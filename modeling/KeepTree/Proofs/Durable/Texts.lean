import KeepTree.Proofs.Json.RoundTrip
import KeepTree.Snapshot

/-!
# Texts of snapshots

The text of a snapshot says nothing of the kinds of its values: that a value is a truth value, a
whole number, a text or a list shows in its form alone. It reads back all the same, for values are
written in forms of their own. Two things are lost: floating-point numbers may be written alike,
and the reader stops at `maxNesting` nested parts, two of which the snapshot takes for itself.

* `Snapshot.reads_back` -- **a snapshot without floating-point numbers reads back from its text if
  its lists nest no deeper than 125, and is refused otherwise**.
-/

namespace KeepTree

open List

theorem mapM_of_each {α β : Type} {f : β → Option α} {g : α → β} {P : α → Prop} [DecidablePred P]
    {as : List α} (h : ∀ a ∈ as, f (g a) = if P a then some a else none) :
    (as.map g).mapM f = if ∀ a ∈ as, P a then some as else none := by
  induction as with
  | nil => simp
  | cons a as ih =>
    obtain ⟨ha, has⟩ := forall_mem_cons.mp h
    simp only [map_cons, mapM_cons, ha, ih has, forall_mem_cons]
    by_cases hfst : P a
    · by_cases hrest : ∀ a ∈ as, P a
      · simp only [if_pos hfst, if_pos hrest, if_pos (And.intro hfst hrest)]
        rfl
      · simp only [if_pos hfst, if_neg hrest, if_neg fun h : _ ∧ _ => hrest h.2]
        rfl
    · simp only [if_neg hfst, if_neg fun h : _ ∧ _ => hfst h.1]
      rfl

/-! ## 1. Values -/

namespace Value

mutual
/-- There is no floating-point number in the value. -/
def exact : Value → Bool
  | .float _ => false
  | .list items => allExact items
  | _ => true

/-- There is no floating-point number in any of the values. -/
def allExact : List Value → Bool
  | [] => true
  | v :: rest => v.exact && allExact rest
end

mutual
/-- How many lists nest in the value. -/
def nesting : Value → Nat
  | .list items => deepest items + 1
  | _ => 0

/-- How many lists nest in the deepest of the values. -/
def deepest : List Value → Nat
  | [] => 0
  | v :: rest => max v.nesting (deepest rest)
end

mutual
theorem toJson_lossless : ∀ {v : Value}, v.exact = true → v.toJson.Lossless
  | .null, _ => .null
  | .bool b, _ => .bool b
  | .int n, _ => by
    have hwider : (Nat.pow 2 63 : Int) ≤ Nat.pow 2 64 := by decide
    exact .int n.le_toInt (Int.lt_of_lt_of_le n.toInt_lt hwider)
  | .text s, _ => .string s
  | .list items, h => .array (toJsonAll_lossless h)

theorem toJsonAll_lossless : ∀ {items : List Value}, allExact items = true →
    ∀ json ∈ toJsonAll items, json.Lossless
  | [], _ => nofun
  | v :: rest, h => by
    obtain ⟨hv, hrest⟩ := Bool.and_eq_true_iff.mp h
    exact forall_mem_cons.mpr ⟨toJson_lossless hv, toJsonAll_lossless hrest⟩
end

theorem ofWhole_toInt (n : Int64) : ofWhole n.toInt = .int n := by
  have hrange : -(Nat.pow 2 63 : Int) ≤ n.toInt ∧ n.toInt < Nat.pow 2 63 := ⟨n.le_toInt, n.toInt_lt⟩
  rw [ofWhole, if_pos hrange, Int64.ofInt_toInt]

theorem deepest_le_iff {items : List Value} {depth : Nat} :
    deepest items ≤ depth ↔ ∀ v ∈ items, v.nesting ≤ depth := by
  induction items with
  | nil => simp [deepest]
  | cons v rest ih => rw [deepest, Nat.max_le, ih, forall_mem_cons]

theorem toJsonAll_eq_map (items : List Value) : toJsonAll items = items.map toJson := by
  induction items with
  | nil => rfl
  | cons v rest ih => rw [toJsonAll, ih, map_cons]

mutual
/-- **A value is found in its document** by a reader that goes deep enough, and by no other. -/
theorem ofJson?_toJson : ∀ (v : Value) (depth : Nat),
    ofJson? depth v.toJson = if v.nesting ≤ depth then some v else none
  | .null, depth => by simp [toJson, ofJson?, nesting]
  | .bool b, depth => by simp [toJson, ofJson?, nesting]
  | .int n, depth => by simp [toJson, ofJson?, nesting, ofWhole_toInt]
  | .float x, depth => by simp [toJson, ofJson?, nesting]
  | .text s, depth => by simp [toJson, ofJson?, nesting]
  | .list items, 0 => by simp [toJson, ofJson?, nesting]
  | .list items, depth + 1 => by
    have hitems := mapM_of_each fun v hv => ofJson?_toJson_of_mem items v hv depth
    rw [toJson, toJsonAll_eq_map, ofJson?, hitems, nesting]
    simp only [Nat.add_le_add_iff_right, deepest_le_iff]
    split
    · rfl
    · rfl

theorem ofJson?_toJson_of_mem : ∀ (items : List Value), ∀ v ∈ items, ∀ depth : Nat,
    ofJson? depth v.toJson = if v.nesting ≤ depth then some v else none
  | v :: rest => by
    exact forall_mem_cons.mpr ⟨ofJson?_toJson v, ofJson?_toJson_of_mem rest⟩
  | [] => nofun
end

end Value

/-! ## 2. Dictionaries -/

namespace Dictionary

variable {κ : Type} [Ord κ] [Std.TransOrd κ] [Std.LawfulEqOrd κ] {α : Type}

theorem get?_foldl_insert (key : κ) : ∀ (entries : List (κ × α)) (d : Dictionary κ α),
    entries.Pairwise (fun a b => compare a.1 b.1 = .lt) →
    (entries.foldl (fun d entry => d.insert entry.1 entry.2) d).get? key =
      (lookup key entries).or (d.get? key)
  | [], _, _ => rfl
  | (k, v) :: rest, d, h => by
    obtain ⟨hk, hrest⟩ := pairwise_cons.mp h
    rw [foldl_cons, get?_foldl_insert key rest _ hrest, lookup]
    by_cases hkey : key = k
    · subst hkey
      rw [lookup_eq_none_of_lt hk, get?_insert_self, if_pos Std.ReflCmp.compare_self]
      rfl
    · rw [get?_insert_of_ne _ hkey, if_neg fun he => hkey (Std.LawfulEqOrd.eq_of_compare he)]

/-- **Entries that are set in their order are the dictionary again.** -/
theorem foldl_insert (d : Dictionary κ α) :
    d.entries.foldl (fun d entry => d.insert entry.1 entry.2) empty = d := by
  refine ext_get? fun key => ?_
  rw [get?_foldl_insert key _ _ d.ascending, get?_empty, Option.or_none]
  rfl

end Dictionary

/-! ## 3. Snapshots -/

namespace Snapshot

theorem toJson_lossless {s : Snapshot} (h : ∀ value ∈ s.values.values, value.exact = true) :
    s.toJson.Lossless := by
  have hversion := s.version.toNat_lt
  refine .object (forall_mem_cons.mpr ⟨.int (by simp) (by simp; omega), ?_⟩)
  refine forall_mem_singleton.mpr (.object fun member hmem => ?_)
  obtain ⟨⟨name, value⟩, hent, rfl⟩ := mem_map.mp hmem
  exact Value.toJson_lossless (h value (mem_map.mpr ⟨_, hent, rfl⟩))

theorem mapM_named (depth : Nat) (entries : List (String × Value)) :
    (entries.map fun (name, value) => (name, value.toJson)).mapM
        (fun (name, json) => (Value.ofJson? depth json).map (name, ·)) =
      if ∀ entry ∈ entries, entry.2.nesting ≤ depth then some entries else none := by
  refine mapM_of_each fun entry _ => ?_
  simp only [Value.ofJson?_toJson]
  split
  · rfl
  · rfl

theorem valuesOfJson?_toJson (values : Dictionary String Value) (depth : Nat) :
    valuesOfJson? depth (.object (values.entries.map fun (name, value) => (name, value.toJson))) =
      if ∀ value ∈ values.values, value.nesting ≤ depth then some values else none := by
  have hall : (∀ entry ∈ values.entries, entry.2.nesting ≤ depth) ↔
      ∀ value ∈ values.values, value.nesting ≤ depth := by
    rw [Dictionary.values, forall_mem_map]
  rw [valuesOfJson?, mapM_named]
  simp only [hall]
  split
  · exact congrArg some (Dictionary.foldl_insert values)
  · rfl

theorem ofJson?_toJson (s : Snapshot) :
    ofJson? s.toJson = if ∀ value ∈ s.values.values, value.nesting ≤ 125 then some s else none := by
  let values := Json.object (s.values.entries.map fun (name, value) => (name, value.toJson))
  let fields : Json.Record := [("version", .int s.version.toNat), ("values", values)]
  have hrecord : s.toJson.record? ["version", "values"] = some fields := rfl
  have hversion : fields.required "version" (Json.natBelow? (Nat.pow 2 32)) =
      some s.version.toNat := if_pos s.version.toNat_lt
  have hvalues : fields.required "values" (valuesOfJson? (maxNesting - 2)) =
      if ∀ value ∈ s.values.values, value.nesting ≤ 125 then some s.values else none :=
    valuesOfJson?_toJson s.values 125
  simp only [ofJson?, hrecord, hversion, hvalues, bind, Option.bind_some]
  split
  · simp
  · rfl

/-- **A snapshot without floating-point numbers reads back from its text if its lists nest no
    deeper than 125**, and is refused otherwise: whatever its version, its names and its texts. -/
theorem reads_back (s : Snapshot) (h : ∀ value ∈ s.values.values, value.exact = true) :
    Snapshot.read? s.write =
      if ∀ value ∈ s.values.values, value.nesting ≤ 125 then some s else none := by
  rw [read?, write, Json.pretty, Json.read?_written (toJson_lossless h), Option.bind_some,
    ofJson?_toJson]

/-- Names and texts full of signs that must be escaped, both ends of the range of integers, and lists
    as deep as can be read. -/
def awkward : Snapshot where
  version := 4294967295
  values := [
    ("", .list [.null, .bool true, .bool false, .text "", .list []]),
    ("a\"b\\c", .text "/\x08\x0c\n\r\t\x00\x1f\x7f \u2028 \ud7ff😀"),
    ("ends", .list [.int Int64.minValue, .int Int64.maxValue, .int 0, .int (-1)]),
    ("nested", Nat.repeat (fun v => .list [v]) 125 .null),
    ("null", .text "null")].foldl (fun values entry => values.insert entry.1 entry.2) .empty

theorem reads_back_awkward :
    (∀ value ∈ awkward.values.values, value.exact = true) ∧
      Snapshot.read? awkward.write = some awkward := by
  have hexact : ∀ value ∈ awkward.values.values, value.exact = true := by decide +kernel
  refine ⟨hexact, (reads_back awkward hexact).trans (if_pos ?_)⟩
  decide +kernel

end Snapshot

end KeepTree
