import KeepTree.Proofs.Durable.Tables
import KeepTree.Proofs.Workspace.Reachable

/-!
# Snapshots of restored engines

A snapshot reads the durable tables one after the other; what a later table holds under a name is
taken over what earlier ones hold. A restored value goes to one of these tables, and which one depends
on what the namespace means by its name.

* `restoreValues_keeps` -- **what is restored is added to what the tables hold**;
* `snapshot_of_restored` -- a new engine that restores a snapshot gives it back.
-/

namespace KeepTree

open Namespace DottedName Dictionary List

variable {s : Snapshot} {key : String} {ns : Namespace} {values : String → Option Value}

/-! ## 1. What a snapshot holds -/

theorem Dictionary.lookup_cons_or {α β : Type} {first : String × α} {rest : List (String × α)}
    (hfst : ∀ entry ∈ rest, compare first.1 entry.1 = .lt) (f : α → Option β) (other : Option β) :
    ((lookup key (first :: rest)).bind f).or other =
      ((lookup key rest).bind f).or (if key = first.1 then (f first.2).or other else other) := by
  by_cases hkey : key = first.1
  · have hnone : lookup key rest = none := lookup_eq_none_of_lt (hkey ▸ hfst)
    have hsome : lookup key (first :: rest) = some first.2 := by
      rw [hkey]
      exact if_pos Std.ReflCmp.compare_self
    rw [hnone, hsome, if_pos hkey]
    rfl
  · have hskip : lookup key (first :: rest) = lookup key rest :=
      if_neg fun e => hkey (Std.LawfulEqOrd.eq_of_compare e)
    rw [hskip, if_neg hkey]

namespace Snapshot

theorem captureEntry_get? (s : Snapshot) (name : String) (entry : Entry) (key : String)
    (hkey : isLoopKey key = false) : (s.captureEntry name entry).values.get? key =
      if key = name then entry.ownValue?.or (s.values.get? key) else s.values.get? key := by
  unfold captureEntry
  by_cases hname : key = name
  · subst hname
    rw [hkey, if_pos rfl]
    cases entry.ownValue? with
    | none => rfl
    | some value => exact get?_insert_self _ _ _
  · rw [if_neg hname]
    split
    · rfl
    · split
      · exact get?_insert_of_ne _ hname _
      · rfl

theorem captureEntry_of_loop (s : Snapshot) (name : String) (entry : Entry)
    (hkey : isLoopKey key = true) :
    (s.captureEntry name entry).values.get? key = s.values.get? key := by
  unfold captureEntry
  split
  · rfl
  · rename_i hname
    split
    · refine get?_insert_of_ne _ ?_ _
      rintro rfl
      exact hname hkey
    · rfl

/-- **A table is captured name by name**, over what was there; names of iterations are left out. -/
theorem capture_get? (s : Snapshot) (table : Table) (key : String) :
    (s.capture table).values.get? key =
      if isLoopKey key then s.values.get? key
      else ((table.get? key).bind Entry.ownValue?).or (s.values.get? key) := by
  have hall : ∀ (entries : List (String × Entry)) (s : Snapshot),
      entries.Pairwise (fun a b => compare a.1 b.1 = .lt) →
      (entries.foldl (fun s entry => s.captureEntry entry.1 entry.2) s).values.get? key =
        if isLoopKey key then s.values.get? key
        else ((Dictionary.lookup key entries).bind Entry.ownValue?).or (s.values.get? key) := by
    intro entries
    induction entries with
    | nil => exact fun s _ => (ite_self _).symm
    | cons first rest ih =>
      intro s h
      obtain ⟨hfst, hrest⟩ := pairwise_cons.mp h
      rw [foldl_cons, ih _ hrest]
      cases hkey : isLoopKey key with
      | true => exact captureEntry_of_loop s first.1 first.2 hkey
      | false =>
        simp only [Bool.false_eq_true, if_false, captureEntry_get? s first.1 first.2 key hkey]
        exact (lookup_cons_or hfst _ _).symm
  exact hall table.entries s table.ascending

/-- The snapshot is of the version that is written, and has no names of iterations. -/
structure Current (s : Snapshot) : Prop where
  version_eq : s.version = currentVersion
  names : ∀ entry ∈ s.values.entries, isLoopKey entry.1 = false

theorem captureEntry_version (s : Snapshot) (name : String) (entry : Entry) :
    (s.captureEntry name entry).version = s.version := by
  unfold captureEntry
  split
  · rfl
  · split <;> rfl

theorem capture_version (s : Snapshot) (table : Table) : (s.capture table).version = s.version := by
  unfold capture
  induction table.entries generalizing s with
  | nil => rfl
  | cons first rest ih => exact (ih _).trans (s.captureEntry_version first.1 first.2)

end Snapshot

namespace Engine

variable {e e' : Engine} {name : String} {value : Value} {t : TableId} {entry : Entry}

/-- The value that a table has under a name. -/
def ownValue? (e : Engine) (key : String) (t : TableId) : Option Value :=
  (e.store.get? t key).bind Entry.ownValue?

/-- **A snapshot holds the value of the last durable table that has one.** -/
theorem snapshot_read (e : Engine) (key : String) : e.snapshot.values.get? key =
    if isLoopKey key then none
    else (e.global :: e.sites.values).reverse.findSome? (e.ownValue? key) := by
  have hall : ∀ (tables : List TableId) (s : Snapshot),
      (tables.foldl (fun s id => s.capture (e.store.table id)) s).values.get? key =
        if isLoopKey key then s.values.get? key
        else (tables.reverse.findSome? (e.ownValue? key)).or (s.values.get? key) := by
    intro tables
    induction tables with
    | nil => exact fun s => (ite_self _).symm
    | cons first rest ih =>
      intro s
      rw [foldl_cons, ih, Snapshot.capture_get?]
      split
      · rfl
      · rw [reverse_cons, findSome?_append, Option.or_assoc]
        rw [findSome?_singleton]
        rfl
  refine (hall _ .empty).trans ?_
  split
  · rfl
  · exact Option.or_none

theorem snapshot_version (e : Engine) : e.snapshot.version = Snapshot.currentVersion := by
  have hall : ∀ (tables : List TableId) (s : Snapshot),
      (tables.foldl (fun s id => s.capture (e.store.table id)) s).version = s.version := by
    intro tables
    induction tables with
    | nil => exact fun _ => rfl
    | cons first rest ih => exact fun s => (ih _).trans (s.capture_version _)
  exact hall _ .empty

theorem mem_tables_iff : t ∈ (e.global :: e.sites.values).reverse ↔ e.Durable t := by
  rw [mem_reverse, mem_cons, mem_values_iff]
  rfl

/-- **A value of a snapshot stands in a durable table**, under no name of an iteration. -/
theorem snapshot_get? (h : e.snapshot.values.get? key = some value) : isLoopKey key = false ∧
    ∃ t entry, e.Durable t ∧ e.store.get? t key = some entry ∧ entry.ownValue? = some value := by
  rw [snapshot_read] at h
  split at h
  · cases h
  · rename_i hkey
    obtain ⟨t, ht, hown⟩ := exists_of_findSome?_eq_some h
    obtain ⟨entry, hent, hval⟩ := Option.bind_eq_some_iff.mp hown
    exact ⟨Bool.eq_false_iff.mpr hkey, t, entry, mem_tables_iff.mp ht, hent, hval⟩

/-! ## 2. What an engine keeps -/

/-- The durable tables hold these values, and nothing else. Nothing is said about which of them holds
    a value. -/
structure Keeps (ns : Namespace) (values : String → Option Value) (e : Engine) : Prop
    extends e.Direct ns where
  only : ∀ {t key entry}, e.Durable t → e.store.get? t key = some entry →
    ∃ value, entry.ownValue? = some value ∧ values key = some value
  held : ∀ {key value}, values key = some value → ∃ t entry, e.Durable t ∧
    e.store.get? t key = some entry ∧ entry.ownValue? = some value

theorem new_keeps (ns : Namespace) (limits : Limits) :
    (Engine.new ns limits).Keeps ns fun _ => none where
  toDirect := new_direct ns limits
  only := fun {t key entry} _ h => by
    have hnone : (Engine.new ns limits).store.get? t key = none := by cases t <;> rfl
    cases hnone.symm.trans h
  held := nofun

theorem Keeps.grow (h : e.Keeps ns values) (hg : e.Grown e') : e'.Keeps ns values where
  toDirect := h.toDirect.grow hg
  only := fun {t key entry} ht hget => by
    have hold := hg.larger.get?_of_some hget
    exact h.only (hg.toExtends.durable (Store.lt_of_get? hold) ht) hold
  held := fun {key value} hval => by
    obtain ⟨t, entry, ht, hget, hown⟩ := h.held hval
    refine ⟨t, entry, ?_, (hg.larger.get?_eq (Store.lt_of_get? hget)).trans hget, hown⟩
    exact ht.imp (fun e => e.trans hg.global_eq.symm) fun ⟨site, hsite⟩ => ⟨site, hg.sites hsite⟩

theorem Keeps.set (h : e.Keeps ns values) (hnew : values name = none) (ht : e.Durable t)
    (hown : entry.ownValue? = some value) :
    (e.withStore (e.store.set ⟨t, name⟩ entry)).Keeps ns
      fun key => if key = name then some value else values key where
  toDirect := h.toDirect.set _ _ fun p hp => by
    rw [hp] at hown
    cases hown
  only := fun {t' key found} ht' hget => by
    rcases Store.get?_set hget with ⟨hslot, rfl⟩ | hold
    · obtain ⟨_, rfl⟩ := Location.mk.inj hslot
      exact ⟨value, hown, if_pos rfl⟩
    · obtain ⟨old, hfd, hkept⟩ := h.only ht' hold
      refine ⟨old, hfd, (if_neg fun e => ?_).trans hkept⟩
      cases (e ▸ hkept).symm.trans hnew
  held := fun {key other} hkept => by
    by_cases hname : key = name
    · rw [if_pos hname] at hkept
      cases hkept
      subst hname
      exact ⟨t, entry, ht, Store.get?_write_self _ (h.toRanged.lt ht) _ _, hown⟩
    · rw [if_neg hname] at hkept
      obtain ⟨t', found, ht', hget, hfd⟩ := h.held hkept
      exact ⟨t', found, ht', (Store.get?_write_of_ne _ (.inr hname) _).trans hget, hfd⟩

/-- **A snapshot holds what the engine keeps.** Where several tables hold a name they hold one value. -/
theorem Keeps.snapshot_eq (hs : s.Current) (h : e.Keeps ns s.values.get?) : e.snapshot = s := by
  have hread : ∀ key, e.snapshot.values.get? key = s.values.get? key := by
    intro key
    cases hkept : s.values.get? key with
    | none =>
      refine Option.eq_none_iff_forall_ne_some.mpr fun value hval => ?_
      obtain ⟨_, t, entry, ht, hget, _⟩ := snapshot_get? hval
      obtain ⟨other, _, hoth⟩ := h.only ht hget
      cases hkept.symm.trans hoth
    | some value =>
      have hmem := (perm_of_lookup s.values.ascending hkept).mem_iff.mpr mem_cons_self
      obtain ⟨t, entry, ht, hget, hown⟩ := h.held hkept
      have hfd : (e.global :: e.sites.values).reverse.findSome? (e.ownValue? key) ≠ none := by
        intro hnone
        have ht' := findSome?_eq_none_iff.mp hnone t (mem_tables_iff.mpr ht)
        rw [ownValue?, hget] at ht'
        cases ht'.symm.trans hown
      rw [snapshot_read, hs.names _ hmem]
      obtain ⟨other, hoth⟩ := Option.ne_none_iff_exists'.mp hfd
      obtain ⟨t', ht', hown'⟩ := exists_of_findSome?_eq_some hoth
      obtain ⟨entry', hget', hval'⟩ := Option.bind_eq_some_iff.mp hown'
      obtain ⟨kept, hkept', hsame⟩ := h.only (mem_tables_iff.mp ht') hget'
      exact hoth.trans (hval'.symm.trans (hkept'.trans (hsame.symm.trans hkept)))
  have hvalues : e.snapshot.values = s.values := ext_get? hread
  have hversion := e.snapshot_version.trans hs.version_eq.symm
  calc e.snapshot = ⟨e.snapshot.version, e.snapshot.values⟩ := rfl
    _ = ⟨s.version, s.values⟩ := by rw [hvalues, hversion]

/-! ## 3. Restoring -/

theorem restoreValue_finds (e : Engine) (name : String) (value : Value) :
    (∃ e', e.restoreValue name value = .ok e') ↔ e.ns.Finds (e.ns.lookup name) := by
  unfold restoreValue
  rcases hlook : e.ns.lookup name with gap | _ | id
  · refine iff_of_false ?_ ?_
    · rintro ⟨_, ⟨⟩⟩
    · rintro ⟨_, ⟨⟩, _⟩
  · exact iff_of_true ⟨_, rfl⟩ finds_none
  · cases hd : e.ns.get? id with
    | some d =>
      refine iff_of_true ?_ (finds_some (lt_of_get? hd))
      simp only [bind, Except.bind, find, hd]
      exact ⟨_, rfl⟩
    | none =>
      refine iff_of_false ?_ ?_
      · simp only [bind, Except.bind, find, hd]
        rintro ⟨_, ⟨⟩⟩
      · rintro ⟨found, hfd, hheld⟩
        cases hfd
        obtain ⟨d, hd'⟩ := get?_of_lt (hheld id rfl)
        cases hd.symm.trans hd'

theorem Keeps.restoreValue (h : e.Keeps ns values) (hnew : values name = none)
    (hrestore : e.restoreValue name value = .ok e') :
    e'.Keeps ns fun key => if key = name then some value else values key := by
  rcases restoreValue_ok hrestore with ⟨_, rfl⟩ | ⟨id, d, _, rfl⟩
  · exact h.set hnew (.inl rfl) rfl
  · obtain ⟨hgrown, hhome⟩ := durableTable_grows e d
    exact (h.grow hgrown).set hnew (durable_of_home? hhome) rfl

/-- **What is restored is added to what is kept.** It is all restored just if every name means nothing
    or a definition that is held. -/
theorem restoreValues_keeps : ∀ (entries : List (String × Value)) {e : Engine}
    {values : String → Option Value}, e.Keeps ns values →
    entries.Pairwise (fun a b => compare a.1 b.1 = .lt) →
    (∀ entry ∈ entries, values entry.1 = none) →
    match e.restoreValues entries with
    | (.ok _, e') => (∀ entry ∈ entries, ns.Finds (ns.lookup entry.1)) ∧
        e'.Keeps ns fun key => (Dictionary.lookup key entries).or (values key)
    | (.error _, _) => ¬ ∀ entry ∈ entries, ns.Finds (ns.lookup entry.1)
  | [], e, values, h, _, _ => ⟨nofun, h⟩
  | (name, value) :: rest, e, values, h, hasc, hnew => by
    obtain ⟨hfst, hrest⟩ := pairwise_cons.mp hasc
    have hfinds := restoreValue_finds e name value
    rw [h.ns_eq] at hfinds
    unfold restoreValues
    cases hrestore : e.restoreValue name value with
    | error gap =>
      refine fun hall => ?_
      obtain ⟨e', he'⟩ := hfinds.mpr (hall (name, value) mem_cons_self)
      cases hrestore.symm.trans he'
    | ok e' =>
      have hks := h.restoreValue (hnew (name, value) mem_cons_self) hrestore
      have hothers : ∀ entry ∈ rest,
          (if entry.1 = name then some value else values entry.1) = none := by
        intro entry hmem
        have hlt := hfst entry hmem
        rw [if_neg fun e => by simp [e] at hlt]
        exact hnew entry (mem_cons_of_mem _ hmem)
      have hrun := restoreValues_keeps rest hks hrest hothers
      simp only
      split
      · rename_i heq
        rw [heq] at hrun
        refine ⟨forall_mem_cons.mpr ⟨hfinds.mp ⟨e', hrestore⟩, hrun.1⟩, ?_⟩
        have hadded : ∀ key, (Dictionary.lookup key ((name, value) :: rest)).or (values key) =
            (Dictionary.lookup key rest).or (if key = name then some value else values key) := by
          intro key
          simpa using lookup_cons_or hfst some (values key)
        exact funext hadded ▸ hrun.2
      · rename_i heq
        rw [heq] at hrun
        exact fun hall => hrun (forall_mem_cons.mp hall).2

end Engine

/-- Every name of the snapshot means nothing, or a definition that the namespace holds. -/
def Snapshot.Meant (s : Snapshot) (ns : Namespace) : Prop :=
  ∀ entry ∈ s.values.entries, ns.Finds (ns.lookup entry.1)

theorem Namespace.Closed.meant (h : ns.Closed) (s : Snapshot) : s.Meant ns := by
  intro entry _
  unfold Namespace.lookup
  split
  · exact h.descend _ (h.root ‹_›)
  · exact finds_none

/-- **A new engine that restores a snapshot gives it back**, and says how many values it restored. This
    goes for every snapshot of the current version without names of iterations, so for those of all
    engines, over whatever namespace. It fails just where a name leads to a definition that the
    namespace does not hold, and no name does in a closed one. -/
theorem snapshot_of_restored (ns : Namespace) (limits : Limits) :
    (∀ s : Snapshot, s.Current →
      match (Engine.new ns limits).restore s with
      | (.ok count, e) => s.Meant ns ∧ count = s.size ∧ e.snapshot = s
      | (.error _, _) => ¬ s.Meant ns) ∧
    (∀ e : Engine, e.snapshot.Current) ∧
    (ns.Closed → ∀ s : Snapshot, s.Meant ns) := by
  refine ⟨fun s hs => ?_, fun e => ⟨e.snapshot_version, fun _ hmem =>
    (Engine.snapshot_get? (Dictionary.get?_of_mem hmem)).1⟩, Namespace.Closed.meant⟩
  have hrun := Engine.restoreValues_keeps s.values.entries (Engine.new_keeps ns limits)
    s.values.ascending fun _ _ => rfl
  unfold Engine.restore
  rw [if_pos hs.version_eq]
  rcases hrestored : (Engine.new ns limits).restoreValues s.values.entries with ⟨_ | _, e⟩ <;>
    rw [hrestored] at hrun
  · exact hrun
  · obtain ⟨hmeant, hkeeps⟩ := hrun
    simp only [Option.or_none] at hkeeps
    exact ⟨hmeant, rfl, Engine.Keeps.snapshot_eq hs hkeeps⟩

/-- A page with a counter of its own, and a note that no definition has. -/
def diary : Namespace where
  definitions := #[
    { name := "page", fullName := "page", kind := .site, site := some 0,
      children := Dictionary.empty.insert "count" 1 },
    { name := "count", fullName := "page.count", durability := .global, owner := some 0,
      site := some 0 }]
  roots := Dictionary.empty.insert "page" 0

/-- A value for each. -/
def visits : Snapshot where
  version := Snapshot.currentVersion
  values := (Dictionary.empty.insert "page.count" (.int 3)).insert "note" (.text "draft")

theorem snapshot_of_restored_visits :
    ∃ e, (Engine.new diary {}).restore visits = (.ok 2, e) ∧ e.snapshot = visits := by
  obtain ⟨hrestore, _, hmeant⟩ := snapshot_of_restored diary {}
  have hclosed : diary.Closed := Namespace.closed_of_isClosed (by decide +kernel)
  have hvisits := hrestore visits ⟨rfl, by decide +kernel⟩
  rcases hrestored : (Engine.new diary {}).restore visits with ⟨_ | count, e⟩ <;>
    rw [hrestored] at hvisits
  · exact absurd (hmeant hclosed visits) hvisits
  · obtain ⟨_, rfl, hsnapshot⟩ := hvisits
    exact ⟨e, rfl, hsnapshot⟩

end KeepTree
