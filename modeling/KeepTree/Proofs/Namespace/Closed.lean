import KeepTree.Session.Keeping

/-!
# Closed namespaces

A namespace is closed if it holds every definition that one of its definitions refers to. No walk
through a closed namespace meets a dangling reference, and what a walk finds is there:

* `Closed.resolveWithin` -- **following the links behind a definition never dangles**.
-/

namespace KeepTree.Namespace

open List

/-- Every reference to a definition is to one that the namespace holds. -/
structure Closed (ns : Namespace) : Prop where
  superdefinition : ∀ {id d next}, ns.get? id = some d → d.superdefinition = some next →
    next < ns.size
  child : ∀ {id d name next}, ns.get? id = some d → d.child? name = some next → next < ns.size
  underlying : ∀ {id d next}, ns.get? id = some d →
    d.kind = .flavor next ∨ d.kind = .typeWrapper next → next < ns.size
  root : ∀ {name next}, ns.roots.get? name = some next → next < ns.size

/-- A walk ends, with nothing or with a definition that is held. -/
def Finds (ns : Namespace) (walk : Except Dangling (Option DefId)) : Prop :=
  ∃ found, walk = .ok found ∧ ∀ id ∈ found, id < ns.size

variable {ns : Namespace} {id : DefId}

theorem get?_of_lt (h : id < ns.size) : ∃ d, ns.get? id = some d := ⟨_, Array.getElem?_eq_getElem h⟩

theorem find_of_lt (h : id < ns.size) : ∃ d, ns.find id = .ok d ∧ ns.get? id = some d := by
  obtain ⟨d, hd⟩ := get?_of_lt h
  exact ⟨d, by rw [find, hd], hd⟩

theorem get?_of_find {d : Definition} (h : ns.find id = .ok d) : ns.get? id = some d := by
  unfold find at h
  split at h
  · exact Except.ok.inj h ▸ ‹_›
  · cases h

theorem lt_of_get? {d : Definition} (h : ns.get? id = some d) : id < ns.size :=
  (Array.getElem?_eq_some_iff.mp h).1

theorem finds_none : ns.Finds (.ok none) := ⟨none, rfl, nofun⟩

theorem finds_some (h : id < ns.size) : ns.Finds (.ok (some id)) :=
  ⟨some id, rfl, fun _ e => Option.some.inj e ▸ h⟩

/-! ## 1. Lines of inheritance -/

theorem Closed.inheritsWithin (h : ns.Closed) (other : DefId) : ∀ (steps : Nat) {id : DefId},
    id < ns.size → ∃ answer, ns.inheritsWithin other steps id = .ok answer
  | 0, _, _ => ⟨_, rfl⟩
  | steps + 1, id, hid => by
    obtain ⟨d, hfind, hd⟩ := find_of_lt hid
    rw [Namespace.inheritsWithin, hfind]
    split
    · exact ⟨true, rfl⟩
    · cases hsuper : d.superdefinition with
      | none => exact ⟨false, by simp only [hsuper]⟩
      | some next =>
        simp only [hsuper]
        exact h.inheritsWithin other steps (h.superdefinition hd hsuper)

theorem Closed.inherits (h : ns.Closed) (hid : id < ns.size) (other : DefId) :
    ∃ answer, ns.inherits id other = .ok answer :=
  h.inheritsWithin other ns.size hid

theorem Closed.childWithin (h : ns.Closed) (name : String) : ∀ (steps : Nat) {id : DefId},
    id < ns.size → ns.Finds (ns.childWithin name steps id)
  | 0, _, _ => finds_none
  | steps + 1, id, hid => by
    obtain ⟨d, hfind, hd⟩ := find_of_lt hid
    rw [Namespace.childWithin, hfind]
    cases hch : d.child? name with
    | some next =>
      simp only [hch]
      exact finds_some (h.child hd hch)
    | none =>
      cases hsuper : d.superdefinition with
      | none =>
        simp only [hch, hsuper]
        exact finds_none
      | some next =>
        simp only [hch, hsuper]
        exact h.childWithin name steps (h.superdefinition hd hsuper)

theorem Closed.findsChild (h : ns.Closed) (hid : id < ns.size) (name : String) :
    ns.Finds (ns.child id name) :=
  h.childWithin name (ns.size + 1) hid

theorem Closed.hasChild (h : ns.Closed) (hid : id < ns.size) (name : String) (inside : Bool) :
    ∃ answer, ns.hasChild id name inside = .ok answer := by
  obtain ⟨found, hfd, _⟩ := h.findsChild hid name
  exact ⟨_, by rw [Namespace.hasChild, hfd]; rfl⟩

/-! ## 2. Names -/

theorem Closed.descend (h : ns.Closed) : ∀ (path : List String) {id : DefId}, id < ns.size →
    ns.Finds (ns.descend id path)
  | [], _, hid => finds_some hid
  | name :: rest, id, hid => by
    obtain ⟨found, hfd, hheld⟩ := h.findsChild hid name
    rw [Namespace.descend, hfd]
    cases found with
    | none => exact finds_none
    | some next => exact h.descend rest (hheld next rfl)

theorem descend_cons {name : String} {rest : List String} {next : DefId} :
    ns.descend id (name :: rest) = .ok (some next) ↔
      ∃ mid, ns.child id name = .ok (some mid) ∧ ns.descend mid rest = .ok (some next) := by
  rw [Namespace.descend]
  cases ns.child id name with
  | error gap => simp
  | ok found => cases found <;> simp

theorem ownersWithin_get? : ∀ (steps : Nat) (inside : Option DefId),
    ∀ entry ∈ ns.ownersWithin steps inside, ns.get? entry.1 = some entry.2
  | 0, _, entry, hmem => absurd hmem not_mem_nil
  | _ + 1, none, entry, hmem => absurd hmem not_mem_nil
  | steps + 1, some id, entry, hmem => by
    rw [ownersWithin] at hmem
    cases hd : ns.get? id with
    | none =>
      rw [hd] at hmem
      exact absurd hmem not_mem_nil
    | some d =>
      rw [hd] at hmem
      rcases mem_cons.mp hmem with rfl | hmem
      · exact hd
      · exact ownersWithin_get? steps d.owner entry hmem

theorem Closed.headAmong (h : ns.Closed) (name : String) : ∀ around : List (DefId × Definition),
    (∀ entry ∈ around, entry.1 < ns.size) → ns.Finds (ns.headAmong name around)
  | [], _ => ⟨_, rfl, fun _ hroot => h.root hroot⟩
  | (id, d) :: rest, haround => by
    have hid : id < ns.size := haround (id, d) mem_cons_self
    obtain ⟨found, hfd, hheld⟩ := h.findsChild hid name
    rw [Namespace.headAmong, hfd]
    cases found with
    | some next => exact finds_some (hheld next rfl)
    | none =>
      simp only
      split
      · exact finds_some hid
      · exact h.headAmong name rest fun entry hmem => haround entry (mem_cons_of_mem _ hmem)

/-- **A name means nothing, or something that is held**, wherever it is read. -/
theorem Closed.lookupFrom (h : ns.Closed) (inside : Option DefId) (name : String) :
    ns.Finds (ns.lookupFrom inside name) := by
  obtain ⟨found, hfd, hheld⟩ := h.headAmong (DottedName.head name) (ns.owners inside)
    fun entry hmem => lt_of_get? (ownersWithin_get? ns.size inside entry hmem)
  rw [Namespace.lookupFrom, resolveHead, hfd]
  cases found with
  | none => exact finds_none
  | some start => exact h.descend _ (hheld start rfl)

/-! ## 3. Links -/

theorem Closed.bindName (h : ns.Closed) (inside : Option DefId) (name : String)
    (args : List Argument) : ∃ found, ns.bindName inside name args = .ok found ∧
      ∀ bound ∈ found, bound.definition < ns.size := by
  obtain ⟨found, hfd, hheld⟩ := h.lookupFrom inside name
  refine ⟨found.map (⟨·, args⟩), by rw [Namespace.bindName, hfd]; rfl, ?_⟩
  rintro bound hbound
  obtain ⟨id, hid, rfl⟩ := Option.map_eq_some_iff.mp hbound
  exact hheld id hid

theorem Closed.behind (h : ns.Closed) {d : Definition} (hd : ns.get? id = some d)
    (scope : Option DefId) (args : List Argument) : ∃ found, ns.behind scope d args = .ok found ∧
    ∀ bound ∈ found, bound.definition < ns.size := by
  have hnone : ∃ found : Option Bound, (Except.ok none : Except Dangling (Option Bound)) =
      .ok found ∧ ∀ bound ∈ found, bound.definition < ns.size := ⟨none, rfl, nofun⟩
  have hunderlying : ∀ next, d.kind = .flavor next ∨ d.kind = .typeWrapper next →
      ∃ found : Option Bound, (Except.ok (some ⟨next, args⟩) :
        Except Dangling (Option Bound)) = .ok found ∧
          ∀ bound ∈ found, bound.definition < ns.size := by
    intro next hkind
    refine ⟨_, rfl, ?_⟩
    rintro bound ⟨⟩
    exact h.underlying hd hkind
  unfold Namespace.behind
  cases hkind : d.kind with
  | plain => exact hnone
  | site => exact hnone
  | collection elements => exact hnone
  | aliasOf target => exact h.bindName _ _ _
  | elementRef name index =>
    obtain ⟨found, hfd, _⟩ := h.lookupFrom (d.owner.or scope) name
    simp only [hfd]
    cases found.bind (ns.element? index) with
    | none => exact hnone
    | some element => exact h.bindName _ _ _
  | flavor next => exact hunderlying next (.inl hkind)
  | typeWrapper next => exact hunderlying next (.inr hkind)
  | collectionElement call => exact h.bindName _ _ _

/-- **Following the links behind a definition never dangles.** -/
theorem Closed.resolveWithin (h : ns.Closed) (scope : Option DefId) : ∀ (steps : Nat)
    {bound : Bound}, bound.definition < ns.size → ∀ gap,
      ns.resolveWithin scope steps bound ≠ .dangling gap
  | 0, _, _, _ => nofun
  | steps + 1, bound, hbound, gap => by
    obtain ⟨d, hfind, hd⟩ := find_of_lt hbound
    rw [Namespace.resolveWithin, hfind]
    simp only
    split
    · obtain ⟨found, hfd, hheld⟩ := h.behind hd scope bound.arguments
      rw [hfd]
      cases found with
      | none => nofun
      | some next => exact h.resolveWithin scope steps (hheld next rfl) gap
    · nofun

theorem Closed.keepTargets (h : ns.Closed) (hid : id < ns.size) (keep : Keep) :
    ∃ found, Engine.keepTargets ns id keep = .ok found := by
  obtain ⟨target, htgt, _⟩ := h.findsChild hid keep.target
  rw [Engine.keepTargets, htgt]
  cases target with
  | none => exact ⟨none, rfl⟩
  | some target =>
    cases keep.aliasName with
    | none => exact ⟨_, rfl⟩
    | some name =>
      obtain ⟨found, hfd, _⟩ := h.findsChild hid name
      exact ⟨_, by simp only [hfd]; rfl⟩

/-! ## 4. Telling whether a namespace is closed -/

/-- All that a definition refers to is held. -/
def holdsAllOf (ns : Namespace) (d : Definition) : Bool :=
  d.superdefinition.all (· < ns.size) && d.children.values.all (· < ns.size) &&
    match d.kind with
    | .flavor next | .typeWrapper next => next < ns.size
    | _ => true

/-- All that the definitions of a namespace refer to is held. -/
def isClosed (ns : Namespace) : Bool :=
  ns.definitions.all ns.holdsAllOf && ns.roots.values.all (· < ns.size)

theorem closed_of_isClosed (h : ns.isClosed = true) : ns.Closed := by
  simp only [isClosed, Bool.and_eq_true, all_eq_true, decide_eq_true_eq,
    Array.all_eq_true_iff_forall_mem] at h
  obtain ⟨hdefs, hroots⟩ := h
  have hall : ∀ {id d}, ns.get? id = some d → ns.holdsAllOf d = true := fun hd =>
    hdefs _ (Array.mem_of_getElem? hd)
  have hvalues : ∀ {d : Dictionary String DefId} {name next}, d.get? name = some next →
      next ∈ d.values := fun hget =>
    (Dictionary.perm_of_get? hget).mem_iff.mpr mem_cons_self
  simp only [holdsAllOf, Bool.and_eq_true, all_eq_true, decide_eq_true_eq] at hall
  refine ⟨fun hd hnext => ?_, fun hd hnext => ?_, fun hd hnext => ?_, fun hnext => ?_⟩
  · have hsuper := (hall hd).1.1
    rw [hnext] at hsuper
    simpa using hsuper
  · exact (hall hd).1.2 _ (hvalues hnext)
  · have hkind := (hall hd).2
    rcases hnext with hnext | hnext <;> rw [hnext] at hkind <;> simpa using hkind
  · exact hroots _ (hvalues hnext)

end KeepTree.Namespace
