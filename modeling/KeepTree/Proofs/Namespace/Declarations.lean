import KeepTree.Proofs.Namespace.Closed
import KeepTree.Tree

/-!
# Declarations and links

A tree is loaded by adding its declarations one by one, and then by making the links between them:

* `Declaration.definition`, `Declaration.addTo_cases` -- what a declaration adds, and what it leaves;
* `Namespace.link_eq_ok`, `Namespace.linkAll_cons` -- when links are made, and to what.
-/

namespace KeepTree

open Namespace

theorem Namespace.get?_modify (ns : Namespace) (id other : DefId) (f : Definition → Definition) :
    (ns.modify id f).get? other = if id = other then (ns.get? other).map f else ns.get? other :=
  Array.getElem?_modify

/-! ## 1. Declarations -/

namespace Declaration

variable {ns : Namespace} {id : DefId} {owner : Option DefId} {d : Declaration}

/-- The definition that a declaration adds. -/
def definition (d : Declaration) (owner : Option DefId) (ns : Namespace) : Definition where
  name := d.name
  fullName := match owner with
    | none => d.name
    | some ownerId => DottedName.join (ns.fullName ownerId) d.name
  access := d.access
  durability := d.durability
  kind := d.kind
  owner := owner
  site := if d.site then some ns.size else owner.bind fun ownerId =>
    (ns.get? ownerId).bind fun above => if above.isSite then some ownerId else above.site
  parameters := d.parameters
  keeps := d.keeps
  body := d.body

section

variable (d : Declaration) (owner : Option DefId) (ns : Namespace)

theorem addTo_fst : (d.addTo owner ns).1 = ns.size := by
  cases owner <;> rfl

theorem addTo_size : (d.addTo owner ns).2.size = ns.size + 1 := by
  cases owner <;> simp [addTo, define, setKind, Namespace.modify, size]

theorem addTo_roots : (d.addTo owner ns).2.roots =
      if owner = none then ns.roots.insert d.name ns.size else ns.roots := by
  cases owner <;> rfl

theorem addTo_new : (d.addTo owner ns).2.get? ns.size = some (d.definition owner ns) := by
  have hnew : (ns.define owner d.name).2.get? ns.size = some
      { name := d.name, fullName := (d.definition owner ns).fullName, owner
        site := owner.bind fun ownerId =>
          (ns.get? ownerId).bind fun above => if above.isSite then some ownerId else above.site } := by
    cases owner with
    | none => exact Array.getElem?_push_size
    | some ownerId =>
      simp only [define, get?, size, Namespace.modify,
        Array.getElem?_push, Array.size_modify, if_pos]
      rfl
  have hid : (ns.define owner d.name).1 = ns.size := by cases owner <;> rfl
  simp only [addTo, setKind, get?_modify, hid, if_pos, hnew, Option.map_some, definition]
  unfold kind
  cases d.site <;> cases d.target <;> cases d.elements <;> rfl

end

theorem addTo_old (d : Declaration) (owner : Option DefId) (hid : id < ns.size) :
    (d.addTo owner ns).2.get? id = (ns.get? id).map fun old =>
      if owner = some id then { old with children := old.children.insert d.name ns.size } else old := by
  have hoth : (ns.define owner d.name).1 ≠ id := by
    cases owner <;> exact Nat.ne_of_gt hid
  simp only [addTo, setKind, get?_modify, if_neg hoth]
  have hne : id ≠ ns.definitions.size := Nat.ne_of_lt hid
  cases owner with
  | none => simp [define, get?, Array.getElem?_push, hne]
  | some ownerId =>
    simp only [define, get?, Namespace.modify, Array.getElem?_push,
      Array.size_modify, if_neg hne, Array.getElem?_modify, Option.some.injEq]
    split <;> simp

theorem addTo_cases {found : Definition} (h : (d.addTo owner ns).2.get? id = some found) :
    id = ns.size ∧ found = d.definition owner ns ∨
    ∃ old, ns.get? id = some old ∧ found =
      if owner = some id then { old with children := old.children.insert d.name ns.size }
      else old := by
  have hlt := lt_of_get? h
  rw [addTo_size] at hlt
  rcases Nat.lt_or_eq_of_le (Nat.le_of_lt_succ hlt) with hlt | rfl
  · rw [d.addTo_old owner hlt] at h
    obtain ⟨old, hold, rfl⟩ := Option.map_eq_some_iff.mp h
    exact .inr ⟨old, hold, rfl⟩
  · rw [d.addTo_new] at h
    exact .inl ⟨rfl, (Option.some.inj h).symm⟩

end Declaration

/-! ## 2. Links -/

def Link.name : Link → String
  | .inherit name | .flavor name => name

/-- What a link makes of a definition. -/
def Link.apply (found : DefId) : Link → Definition → Definition
  | .inherit _, d => { d with superdefinition := some found }
  | .flavor _, d => { d with kind := .flavor found }

namespace Namespace

variable {ns ns' : Namespace} {id : DefId} {link : Link}

/-- **A link is made to what its name means.** -/
theorem link_eq_ok : ns.link id link = .ok ns' ↔
    ∃ found, ns.lookup link.name = .ok (some found) ∧ ns.modify id (link.apply found) = ns' := by
  cases link <;>
  · simp only [Namespace.link, Link.name]
    split
    · simp_all only [Except.ok.injEq, Option.some.injEq, exists_eq_left']
      rfl
    · simp_all

theorem linkAll_cons {rest : List (DefId × Link)} : ns.linkAll ((id, link) :: rest) = .ok ns' ↔
    ∃ between, ns.link id link = .ok between ∧ between.linkAll rest = .ok ns' := by
  rw [linkAll]
  cases ns.link id link <;> simp

theorem linkAll_preserves {P : Namespace → Prop}
    (hlink : ∀ {ns ns' id link}, P ns → ns.link id link = .ok ns' → P ns') :
    ∀ (links : List (DefId × Link)) {ns : Namespace}, P ns → ns.linkAll links = .ok ns' → P ns'
  | [], _, h, hlinks => Except.ok.inj hlinks ▸ h
  | _ :: rest, _, h, hlinks => by
    obtain ⟨_, hfst, hrest⟩ := linkAll_cons.mp hlinks
    exact linkAll_preserves hlink rest (hlink h hfst) hrest

end Namespace

end KeepTree
