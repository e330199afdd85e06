import KeepTree.Proofs.Namespace.Closed

/-!
# Outlines

A walk through a namespace asks for names, owners, children, superdefinitions and links, but not for
what definitions evaluate to, what they keep, and for how long. The outline of a namespace has what is
asked for and no more, so namespaces with one outline are alike to every walk:

* `lookupFrom_outline` -- **a name means the same**;
* `canonical_outline` -- **the definition to push is the same**.
-/

namespace KeepTree

/-- The definition, without what no walk through the namespace asks for. -/
def Definition.outline (d : Definition) : Definition :=
  { d with durability := .dynamic, site := none, keeps := [], body := .empty }

namespace Namespace

/-- The namespace, without what no walk asks for. -/
def outline (ns : Namespace) : Namespace :=
  { ns with definitions := ns.definitions.map Definition.outline }

variable (ns : Namespace)

theorem size_outline : ns.outline.size = ns.size := Array.size_map

theorem get?_outline (id : DefId) : ns.outline.get? id = (ns.get? id).map Definition.outline :=
  Array.getElem?_map

theorem find_outline (id : DefId) : ns.outline.find id = (ns.find id).map Definition.outline := by
  rw [find, find, get?_outline]
  cases ns.get? id <;> rfl

theorem fullName_outline (id : DefId) : ns.outline.fullName id = ns.fullName id := by
  rw [fullName, fullName, get?_outline]
  cases ns.get? id <;> rfl

/-! ## 1. Lines of definitions -/

theorem ownersWithin_outline : ∀ (steps : Nat) (id : Option DefId),
    ns.outline.ownersWithin steps id = (ns.ownersWithin steps id).map fun (id, d) => (id, d.outline)
  | 0, _ => rfl
  | _ + 1, none => rfl
  | steps + 1, some id => by
    rw [ownersWithin, ownersWithin, get?_outline]
    cases ns.get? id with
    | none => rfl
    | some d =>
      exact congrArg _ (ownersWithin_outline steps d.owner)

theorem owners_outline (id : Option DefId) :
    ns.outline.owners id = (ns.owners id).map fun (id, d) => (id, d.outline) := by
  rw [owners, size_outline]
  exact ownersWithin_outline ns ns.size id

theorem isWithin_outline (id other : DefId) :
    ns.outline.isWithin id other = ns.isWithin id other := by
  rw [isWithin, owners_outline, List.any_map]
  rfl

theorem childWithin_outline (name : String) : ∀ (steps : Nat) (id : DefId),
    ns.outline.childWithin name steps id = ns.childWithin name steps id
  | 0, _ => rfl
  | steps + 1, id => by
    rw [childWithin, childWithin, find_outline]
    cases ns.find id with
    | error gap => rfl
    | ok d =>
      simp only [Except.map]
      have hch : d.outline.child? name = d.child? name := rfl
      have hsuper : d.outline.superdefinition = d.superdefinition := rfl
      rw [hch, hsuper]
      cases d.child? name with
      | some child => rfl
      | none =>
        cases d.superdefinition with
        | none => rfl
        | some next => exact childWithin_outline name steps next

theorem child_outline (id : DefId) (name : String) :
    ns.outline.child id name = ns.child id name := by
  rw [child, size_outline]
  exact childWithin_outline ns name _ id

theorem isVisible_outline (inside : Bool) (id : DefId) :
    ns.outline.isVisible inside id = ns.isVisible inside id := by
  rw [isVisible, isVisible, get?_outline]
  cases ns.get? id <;> rfl

theorem hasChild_outline (id : DefId) (name : String) (inside : Bool) :
    ns.outline.hasChild id name inside = ns.hasChild id name inside := by
  have hvisible : ns.outline.isVisible inside = ns.isVisible inside :=
    funext (ns.isVisible_outline inside)
  rw [hasChild, child_outline, hvisible]
  rfl

/-! ## 2. Names -/

theorem descend_outline : ∀ (path : List String) (id : DefId),
    ns.outline.descend id path = ns.descend id path
  | [], _ => rfl
  | name :: rest, id => by
    rw [descend, descend, child_outline]
    cases ns.child id name with
    | error gap => rfl
    | ok found =>
      cases found with
      | none => rfl
      | some next => exact descend_outline rest next

theorem headAmong_outline (name : String) : ∀ around : List (DefId × Definition),
    ns.outline.headAmong name (around.map fun (id, d) => (id, d.outline)) = ns.headAmong name around
  | [] => rfl
  | (id, d) :: rest => by
    rw [List.map_cons, headAmong, headAmong, child_outline]
    cases ns.child id name with
    | error gap => rfl
    | ok found =>
      cases found with
      | some next => rfl
      | none =>
        simp only [headAmong_outline name rest]
        rfl

/-- **A name means the same.** -/
theorem lookupFrom_outline (inside : Option DefId) (name : String) :
    ns.outline.lookupFrom inside name = ns.lookupFrom inside name := by
  rw [lookupFrom, lookupFrom, resolveHead, resolveHead, owners_outline, headAmong_outline]
  cases ns.headAmong (DottedName.head name) (ns.owners inside) with
  | error gap => rfl
  | ok found =>
    cases found with
    | none => rfl
    | some start => exact ns.descend_outline _ start

/-! ## 3. Links -/

theorem bindName_outline (inside : Option DefId) (name : String) (arguments : List Argument) :
    ns.outline.bindName inside name arguments = ns.bindName inside name arguments := by
  rw [bindName, lookupFrom_outline]
  rfl

theorem element?_outline (index : Nat) (collection : DefId) :
    ns.outline.element? index collection = ns.element? index collection := by
  rw [element?, element?, get?_outline]
  cases ns.get? collection <;> rfl

theorem behind_outline (scope : Option DefId) (d : Definition) (arguments : List Argument) :
    ns.outline.behind scope d.outline arguments = ns.behind scope d arguments := by
  have helement : ∀ index, ns.outline.element? index = ns.element? index :=
    fun index => funext (ns.element?_outline index)
  simp only [behind, bindName_outline, lookupFrom_outline, helement]
  rfl

theorem resolveWithin_outline (scope : Option DefId) : ∀ (steps : Nat) (bound : Bound),
    ns.outline.resolveWithin scope steps bound = ns.resolveWithin scope steps bound
  | 0, _ => rfl
  | steps + 1, bound => by
    rw [resolveWithin, resolveWithin, find_outline]
    cases ns.find bound.definition with
    | error gap => rfl
    | ok d =>
      simp only [Except.map, behind_outline]
      cases ns.behind scope d bound.arguments with
      | error gap => rfl
      | ok found =>
        cases found with
        | none => rfl
        | some next =>
          simp only [resolveWithin_outline scope steps next]
          rfl

/-- **The definition to push is the same.** -/
theorem canonical_outline (bound : Bound) (scope : Option DefId) (limit : Nat) :
    ns.outline.canonical bound scope limit = ns.canonical bound scope limit := by
  rw [canonical, canonical, resolveWithin_outline, fullName_outline]

/-! ## 4. Namespaces with one outline -/

variable {ns} {ns' : Namespace} {id : DefId}

section

variable (h : ns'.outline = ns.outline)
include h

theorem get?_of_outline {d' : Definition}
    (hd : ns'.get? id = some d') : ∃ d, ns.get? id = some d ∧ d.outline = d'.outline := by
  have hsame : ns'.outline.get? id = ns.outline.get? id := by rw [h]
  rw [get?_outline, get?_outline, hd] at hsame
  exact Option.map_eq_some_iff.mp hsame.symm

theorem size_of_outline : ns'.size = ns.size := by
  rw [← size_outline, h, size_outline]

theorem isWithin_congr (id other : DefId) : ns'.isWithin id other = ns.isWithin id other := by
  rw [← isWithin_outline, h, isWithin_outline]

theorem hasChild_congr (id : DefId) (name : String)
    (inside : Bool) : ns'.hasChild id name inside = ns.hasChild id name inside := by
  rw [← hasChild_outline, h, hasChild_outline]

theorem lookupFrom_congr (inside : Option DefId) (name : String) :
    ns'.lookupFrom inside name = ns.lookupFrom inside name := by
  rw [← lookupFrom_outline, h, lookupFrom_outline]

theorem canonical_congr (bound : Bound) (scope : Option DefId) (limit : Nat) :
    ns'.canonical bound scope limit = ns.canonical bound scope limit := by
  rw [← canonical_outline, h, canonical_outline]

end

/-- **No reference dangles in a namespace if none does in one with its outline.** -/
theorem Closed.of_outline (h : ns.Closed) (houtline : ns'.outline = ns.outline) : ns'.Closed where
  superdefinition hd hsuper := by
    obtain ⟨d, hget, heq⟩ := get?_of_outline houtline hd
    have hsame := congrArg Definition.superdefinition heq
    exact size_of_outline houtline ▸ h.superdefinition hget (hsame.trans hsuper)
  child := fun {_ d' name _} hd hch => by
    obtain ⟨d, hget, heq⟩ := get?_of_outline houtline hd
    have hsame : d.outline.child? name = d'.outline.child? name := by rw [heq]
    rw [size_of_outline houtline]
    exact h.child hget (Eq.trans hsame hch)
  underlying hd hkind := by
    obtain ⟨d, hget, heq⟩ := get?_of_outline houtline hd
    have hsame := congrArg Definition.kind heq
    exact size_of_outline houtline ▸ h.underlying hget (hkind.imp hsame.trans hsame.trans)
  root := fun {name _} hroot => by
    have hsame : ns'.outline.roots.get? name = ns.outline.roots.get? name := by rw [houtline]
    rw [size_of_outline houtline]
    exact h.root (Eq.trans hsame.symm hroot)

end Namespace

end KeepTree
