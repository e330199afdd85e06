/-!
# Dictionaries

A dictionary is a list of entries in strictly ascending order of their keys. The order is part of
the type, so a dictionary has one representation only, and listing it is listing it by key:

* `Dictionary.get?` and `Dictionary.insert` -- reading a key, and setting it;
* `get?_insert_self`, `get?_insert_of_ne` -- a set key reads as it was set, every other key as
  before;
* `Dictionary.ext_get?` -- dictionaries that read alike are equal;
* `perm_of_get?`, `perm_insert` -- a dictionary is one entry and the dictionary without its key.
-/

namespace KeepTree

/-- Entries in strictly ascending order of their keys. -/
structure Dictionary (κ : Type) [Ord κ] (α : Type) where
  /-- The entries, by ascending key. -/
  entries : List (κ × α)
  /-- Keys ascend strictly, so no key stands twice. -/
  ascending : entries.Pairwise (fun a b => compare a.1 b.1 = .lt)

namespace Dictionary

variable {κ : Type} [Ord κ] {α β : Type} {d : Dictionary κ α} {key other : κ} {value : α}

/-! ## 1. Entry lists -/

/-- The value at `key` in a list of entries. -/
def lookup (key : κ) : List (κ × α) → Option α
  | [] => none
  | (k, v) :: rest => if compare key k = .eq then some v else lookup key rest

/-- Set `key` to `value`, at its place in the order. -/
def place (key : κ) (value : α) : List (κ × α) → List (κ × α)
  | [] => [(key, value)]
  | (k, v) :: rest =>
    match compare key k with
    | .lt => (key, value) :: (k, v) :: rest
    | .eq => (key, value) :: rest
    | .gt => (k, v) :: place key value rest

theorem mem_place {entry : κ × α} :
    ∀ {entries : List (κ × α)}, entry ∈ place key value entries →
      entry = (key, value) ∨ entry ∈ entries
  | [], h => by simpa [place] using h
  | (k, v) :: rest, h => by
    rw [place] at h
    split at h
    · simpa using h
    · rcases List.mem_cons.mp h with rfl | h
      · exact .inl rfl
      · exact .inr (List.mem_cons_of_mem _ h)
    · rcases List.mem_cons.mp h with rfl | h
      · exact .inr List.mem_cons_self
      · exact (mem_place h).imp id (List.mem_cons_of_mem _)

theorem ascending_place [Std.TransOrd κ] [Std.LawfulEqOrd κ] (key : κ) (value : α) :
    ∀ {entries : List (κ × α)}, entries.Pairwise (fun a b => compare a.1 b.1 = .lt) →
      (place key value entries).Pairwise (fun a b => compare a.1 b.1 = .lt)
  | [], _ => by simp [place]
  | (k, v) :: rest, h => by
    obtain ⟨hk, hrest⟩ := List.pairwise_cons.mp h
    rw [place]
    split
    · rename_i hlt
      refine List.pairwise_cons.mpr ⟨fun entry hmem => ?_, h⟩
      rcases List.mem_cons.mp hmem with rfl | hmem
      · exact hlt
      · exact Std.TransCmp.lt_trans hlt (hk entry hmem)
    · rename_i heq
      obtain rfl := Std.LawfulEqOrd.eq_of_compare heq
      exact List.pairwise_cons.mpr ⟨hk, hrest⟩
    · rename_i hgt
      refine List.pairwise_cons.mpr ⟨fun entry hmem => ?_, ascending_place key value hrest⟩
      rcases mem_place hmem with rfl | hmem
      · exact Std.OrientedCmp.gt_iff_lt.mp hgt
      · exact hk entry hmem

theorem lookup_place_self [Std.TransOrd κ] (key : κ) (value : α) :
    ∀ entries : List (κ × α), lookup key (place key value entries) = some value
  | [] => by simp [place, lookup, Std.ReflCmp.compare_self]
  | (k, v) :: rest => by
    rw [place]
    split
    · simp [lookup, Std.ReflCmp.compare_self]
    · simp [lookup, Std.ReflCmp.compare_self]
    · rename_i hgt
      simp [lookup, hgt, lookup_place_self key value rest]

theorem lookup_place_of_ne [Std.TransOrd κ] [Std.LawfulEqOrd κ]
    (h : other ≠ key) (value : α) :
    ∀ entries : List (κ × α), lookup other (place key value entries) = lookup other entries
  | [] => by
    have hne : compare other key ≠ .eq := fun he => h (Std.LawfulEqOrd.eq_of_compare he)
    simp [place, lookup, hne]
  | (k, v) :: rest => by
    have hne : compare other key ≠ .eq := fun he => h (Std.LawfulEqOrd.eq_of_compare he)
    rw [place]
    split
    · simp [lookup, hne]
    · rename_i heq
      obtain rfl := Std.LawfulEqOrd.eq_of_compare heq
      simp [lookup, hne]
    · simp [lookup, lookup_place_of_ne h value rest]

/-! ## 2. Dictionaries -/

/-- The dictionary without entries. -/
def empty : Dictionary κ α := ⟨[], .nil⟩

instance : Inhabited (Dictionary κ α) := ⟨empty⟩

/-- The value at `key`, if the key is set. -/
def get? (d : Dictionary κ α) (key : κ) : Option α := lookup key d.entries

/-- Whether `key` is set. -/
def contains (d : Dictionary κ α) (key : κ) : Bool := (d.get? key).isSome

/-- Set `key` to `value`, over any value it had. -/
def insert [Std.TransOrd κ] [Std.LawfulEqOrd κ] (d : Dictionary κ α) (key : κ) (value : α) :
    Dictionary κ α :=
  ⟨place key value d.entries, ascending_place key value d.ascending⟩

/-- Unset `key`. -/
def erase (d : Dictionary κ α) (key : κ) : Dictionary κ α :=
  ⟨d.entries.filter fun entry => compare key entry.1 != .eq, d.ascending.filter _⟩

/-- Change every value; the keys stay. -/
def map (f : α → β) (d : Dictionary κ α) : Dictionary κ β :=
  ⟨d.entries.map fun entry => (entry.1, f entry.2), List.pairwise_map.mpr d.ascending⟩

/-- The number of entries. -/
def size (d : Dictionary κ α) : Nat := d.entries.length

/-- The values, by ascending key. -/
def values (d : Dictionary κ α) : List α := d.entries.map (·.2)

@[simp] theorem get?_empty (key : κ) : (empty : Dictionary κ α).get? key = none := rfl

@[simp] theorem get?_insert_self [Std.TransOrd κ] [Std.LawfulEqOrd κ] (d : Dictionary κ α)
    (key : κ) (value : α) : (d.insert key value).get? key = some value :=
  lookup_place_self key value d.entries

theorem get?_insert_of_ne [Std.TransOrd κ] [Std.LawfulEqOrd κ] (d : Dictionary κ α)
    (h : other ≠ key) (value : α) :
    (d.insert key value).get? other = d.get? other :=
  lookup_place_of_ne h value d.entries

theorem get?_map (f : α → β) (d : Dictionary κ α) (key : κ) :
    (d.map f).get? key = (d.get? key).map f := by
  obtain ⟨entries, _⟩ := d
  simp only [get?, map]
  induction entries with
  | nil => rfl
  | cons entry rest ih =>
    obtain ⟨k, v⟩ := entry
    simp only [List.map_cons, lookup]
    split
    · rfl
    · exact ih (by simp_all)

/-- A key below every key of a list is not in it. -/
theorem lookup_eq_none_of_lt [Std.TransOrd κ] :
    ∀ {entries : List (κ × α)}, (∀ entry ∈ entries, compare key entry.1 = .lt) →
      lookup key entries = none
  | [], _ => rfl
  | (k, v) :: rest, h => by
    have hk := h (k, v) List.mem_cons_self
    simp [lookup, hk, lookup_eq_none_of_lt fun e he => h e (List.mem_cons_of_mem _ he)]

/-- **Ascending entry lists that read alike are equal.** -/
theorem eq_of_lookup_eq [Std.TransOrd κ] [Std.LawfulEqOrd κ] :
    ∀ {xs ys : List (κ × α)}, xs.Pairwise (fun a b => compare a.1 b.1 = .lt) →
      ys.Pairwise (fun a b => compare a.1 b.1 = .lt) →
      (∀ key, lookup key xs = lookup key ys) → xs = ys
  | [], [], _, _, _ => rfl
  | [], (k, v) :: ys, _, _, h => by
    have := h k
    simp [lookup, Std.ReflCmp.compare_self] at this
  | (k, v) :: xs, [], _, _, h => by
    have := h k
    simp [lookup, Std.ReflCmp.compare_self] at this
  | (k, v) :: xs, (k', v') :: ys, hx, hy, h => by
    obtain ⟨hxk, hxs⟩ := List.pairwise_cons.mp hx
    obtain ⟨hyk, hys⟩ := List.pairwise_cons.mp hy
    -- the least keys agree: each is found on the other side
    have hkk : compare k k' = .eq := by
      match hc : compare k k' with
      | .eq => rfl
      | .lt =>
        have hnone : lookup k ((k', v') :: ys) = none :=
          lookup_eq_none_of_lt fun e he => by
            rcases List.mem_cons.mp he with rfl | he
            · exact hc
            · exact Std.TransCmp.lt_trans hc (hyk e he)
        have := h k
        rw [hnone] at this
        simp [lookup, Std.ReflCmp.compare_self] at this
      | .gt =>
        have hlt : compare k' k = .lt := Std.OrientedCmp.gt_iff_lt.mp hc
        have hnone : lookup k' ((k, v) :: xs) = none :=
          lookup_eq_none_of_lt fun e he => by
            rcases List.mem_cons.mp he with rfl | he
            · exact hlt
            · exact Std.TransCmp.lt_trans hlt (hxk e he)
        have := h k'
        rw [hnone] at this
        simp [lookup, Std.ReflCmp.compare_self] at this
    obtain rfl := Std.LawfulEqOrd.eq_of_compare hkk
    have hv : v = v' := by
      have := h k
      simpa [lookup, Std.ReflCmp.compare_self] using this
    subst hv
    have hrest : ∀ key, lookup key xs = lookup key ys := fun key => by
      by_cases hc : compare key k = .eq
      · obtain rfl := Std.LawfulEqOrd.eq_of_compare hc
        rw [lookup_eq_none_of_lt hxk, lookup_eq_none_of_lt hyk]
      · have := h key
        simpa [lookup, hc] using this
    rw [eq_of_lookup_eq hxs hys hrest]

/-- **Dictionaries that read alike are equal.** -/
theorem ext_get? [Std.TransOrd κ] [Std.LawfulEqOrd κ] {e : Dictionary κ α}
    (h : ∀ key, d.get? key = e.get? key) : d = e := by
  obtain ⟨xs, hx⟩ := d
  obtain ⟨ys, hy⟩ := e
  obtain rfl : xs = ys := eq_of_lookup_eq hx hy h
  rfl

theorem lookup_of_mem [Std.TransOrd κ] :
    ∀ {entries : List (κ × α)}, entries.Pairwise (fun a b => compare a.1 b.1 = .lt) →
      (key, value) ∈ entries → lookup key entries = some value
  | (k, v) :: rest, h, hmem => by
    obtain ⟨hk, hrest⟩ := List.pairwise_cons.mp h
    rcases List.mem_cons.mp hmem with e | hmem
    · cases e
      simp [lookup, Std.ReflCmp.compare_self]
    · have hgt : compare key k = .gt := Std.OrientedCmp.gt_iff_lt.mpr (hk _ hmem)
      simp [lookup, hgt, lookup_of_mem hrest hmem]

/-- Every entry is read under its key. -/
theorem get?_of_mem [Std.TransOrd κ]
    (h : (key, value) ∈ d.entries) : d.get? key = some value :=
  lookup_of_mem d.ascending h

theorem get?_of_mem_values [Std.TransOrd κ]
    (h : value ∈ d.values) : ∃ key, d.get? key = some value := by
  obtain ⟨⟨key, _⟩, hmem, rfl⟩ := List.mem_map.mp h
  exact ⟨key, get?_of_mem hmem⟩

/-- Of two values set at one key the later one counts. -/
theorem insert_insert [Std.TransOrd κ] [Std.LawfulEqOrd κ] (d : Dictionary κ α) (key : κ)
    (first second : α) : (d.insert key first).insert key second = d.insert key second := by
  refine ext_get? fun other => ?_
  by_cases h : other = key
  · rw [h, get?_insert_self, get?_insert_self]
  · rw [get?_insert_of_ne _ h, get?_insert_of_ne _ h, get?_insert_of_ne _ h]

/-! ## 3. One entry and the others -/

/-- A key below every key of a list is different from all of them. -/
theorem filter_eq_self_of_lt {entries : List (κ × α)}
    (h : ∀ entry ∈ entries, compare key entry.1 = .lt) :
    entries.filter (fun entry => compare key entry.1 != .eq) = entries := by
  refine List.filter_eq_self.mpr fun entry hmem => ?_
  simp [h entry hmem]

theorem perm_place [Std.TransOrd κ] [Std.LawfulEqOrd κ] (key : κ) (value : α) :
    ∀ {entries : List (κ × α)}, entries.Pairwise (fun a b => compare a.1 b.1 = .lt) →
      (place key value entries).Perm
        ((key, value) :: entries.filter fun entry => compare key entry.1 != .eq)
  | [], _ => .refl _
  | (k, v) :: rest, h => by
    obtain ⟨hk, hrest⟩ := List.pairwise_cons.mp h
    rw [place]
    split
    · rename_i hlt
      rw [filter_eq_self_of_lt fun entry hmem => ?_]
      rcases List.mem_cons.mp hmem with rfl | hmem
      · exact hlt
      · exact Std.TransCmp.lt_trans hlt (hk entry hmem)
    · rename_i heq
      obtain rfl := Std.LawfulEqOrd.eq_of_compare heq
      rw [List.filter_cons_of_neg (by simp), filter_eq_self_of_lt hk]
    · rename_i hgt
      rw [List.filter_cons_of_pos (by simp [hgt])]
      exact ((perm_place key value hrest).cons _).trans (.swap _ _ _)

theorem perm_of_lookup [Std.TransOrd κ] [Std.LawfulEqOrd κ] :
    ∀ {entries : List (κ × α)}, entries.Pairwise (fun a b => compare a.1 b.1 = .lt) →
      lookup key entries = some value →
      entries.Perm ((key, value) :: entries.filter fun entry => compare key entry.1 != .eq)
  | [], _, hv => by simp [lookup] at hv
  | (k, v) :: rest, h, hv => by
    obtain ⟨hk, hrest⟩ := List.pairwise_cons.mp h
    rw [lookup] at hv
    split at hv
    · rename_i heq
      obtain rfl := Std.LawfulEqOrd.eq_of_compare heq
      obtain rfl := Option.some.inj hv
      rw [List.filter_cons_of_neg (by simp), filter_eq_self_of_lt hk]
    · rename_i hne
      rw [List.filter_cons_of_pos (by simpa using hne)]
      exact ((perm_of_lookup hrest hv).cons _).trans (.swap _ _ _)

theorem lookup_filter_self : ∀ entries : List (κ × α),
    lookup key (entries.filter fun entry => compare key entry.1 != .eq) = none
  | [] => rfl
  | (k, v) :: rest => by
    by_cases h : compare key k = .eq
    · rw [List.filter_cons_of_neg (by simp [h]), lookup_filter_self rest]
    · rw [List.filter_cons_of_pos (by simpa using h), lookup, if_neg h, lookup_filter_self rest]

theorem lookup_filter_of_ne [Std.TransOrd κ] [Std.LawfulEqOrd κ] (h : other ≠ key) :
    ∀ entries : List (κ × α),
      lookup other (entries.filter fun entry => compare key entry.1 != .eq) = lookup other entries
  | [] => rfl
  | (k, v) :: rest => by
    by_cases hk : compare key k = .eq
    · obtain rfl := Std.LawfulEqOrd.eq_of_compare hk
      have hne : compare other key ≠ .eq := fun he => h (Std.LawfulEqOrd.eq_of_compare he)
      rw [List.filter_cons_of_neg (by simp), lookup_filter_of_ne h rest, lookup, if_neg hne]
    · rw [List.filter_cons_of_pos (by simpa using hk), lookup, lookup, lookup_filter_of_ne h rest]

@[simp] theorem get?_erase_self (d : Dictionary κ α) (key : κ) : (d.erase key).get? key = none :=
  lookup_filter_self d.entries

theorem get?_erase_of_ne [Std.TransOrd κ] [Std.LawfulEqOrd κ] (d : Dictionary κ α)
    (h : other ≠ key) : (d.erase key).get? other = d.get? other :=
  lookup_filter_of_ne h d.entries

/-- To set a key whose value was taken out before is to set it. -/
theorem insert_erase [Std.TransOrd κ] [Std.LawfulEqOrd κ] (d : Dictionary κ α) (key : κ) (value : α) :
    (d.erase key).insert key value = d.insert key value := by
  refine ext_get? fun other => ?_
  by_cases h : other = key
  · rw [h, get?_insert_self, get?_insert_self]
  · rw [get?_insert_of_ne _ h, get?_insert_of_ne _ h, get?_erase_of_ne _ h]

/-- **The values are the value of a key and the values without it.** -/
theorem perm_of_get? [Std.TransOrd κ] [Std.LawfulEqOrd κ] (h : d.get? key = some value) :
    d.values.Perm (value :: (d.erase key).values) :=
  (perm_of_lookup d.ascending h).map Prod.snd

theorem mem_values_iff [Std.TransOrd κ] [Std.LawfulEqOrd κ] :
    value ∈ d.values ↔ ∃ key, d.get? key = some value := by
  refine ⟨get?_of_mem_values, ?_⟩
  rintro ⟨key, h⟩
  exact (perm_of_get? h).mem_iff.mpr List.mem_cons_self

theorem perm_insert [Std.TransOrd κ] [Std.LawfulEqOrd κ] (d : Dictionary κ α) (key : κ)
    (value : α) : (d.insert key value).values.Perm (value :: (d.erase key).values) :=
  (perm_place key value d.ascending).map Prod.snd

theorem erase_of_get?_eq_none [Std.TransOrd κ] [Std.LawfulEqOrd κ]
    (h : d.get? key = none) : d.erase key = d := by
  refine ext_get? fun other => ?_
  by_cases e : other = key
  · rw [e, get?_erase_self, h]
  · exact get?_erase_of_ne d e

end Dictionary

end KeepTree
