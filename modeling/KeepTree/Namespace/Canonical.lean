import KeepTree.Fault

/-!
# Canonical definitions

An indirect definition stands for the one behind it. A frame is pushed only for a canonical one,
which is found by following the links, up to a limit:

* `behind` -- the definition and arguments one link behind an indirect definition;
* `canonical` -- the end of the links, with its parameters filled up; nothing where a link leads to
  nothing; and a fault where the links go on too long or one is dangling.
-/

namespace KeepTree

/-- A definition with the arguments to push it with. -/
structure Bound where
  definition : DefId
  arguments : List Argument

namespace Namespace

/-- A call by name, as seen from `inside`. -/
def bindName (ns : Namespace) (inside : Option DefId) (name : String) (arguments : List Argument) :
    Except Dangling (Option Bound) :=
  (ns.lookupFrom inside name).map fun found => found.map (⟨·, arguments⟩)

/-- The element of a collection, with the owner of the collection. -/
def element? (ns : Namespace) (index : Nat) (collection : DefId) : Option (Option DefId × Call) :=
  match ns.get? collection with
  | none => none
  | some d =>
    match d.kind with
    | .collection elements => elements[index]?.map fun call => (d.owner, call)
    | _ => none

/-- One link behind an indirect definition. Its names are read where it is declared, or in `scope`
    if it has no owner; those of a collection's element where the collection is declared. An alias
    without arguments passes on those it is given. -/
def behind (ns : Namespace) (scope : Option DefId) (d : Definition) (arguments : List Argument) :
    Except Dangling (Option Bound) :=
  let inside := d.owner.or scope
  match d.kind with
  | .plain | .site | .collection _ => .ok none
  | .aliasOf target =>
    ns.bindName inside target.name
      (if target.arguments.isEmpty then arguments else target.arguments)
  | .elementRef name index =>
    match ns.lookupFrom inside name with
    | .error gap => .error gap
    | .ok found =>
      match found.bind (ns.element? index) with
      | some (owner, call) => ns.bindName owner call.name call.arguments
      | none => .ok none
  | .flavor underlying | .typeWrapper underlying => .ok (some ⟨underlying, arguments⟩)
  | .collectionElement call => ns.bindName inside call.name call.arguments

/-- What following the links behind a definition comes to. -/
inductive Resolution where
  /-- All definitions that were looked at are indirect. -/
  | endless
  /-- A link leads to nothing. -/
  | nothing
  | canonical (bound : Bound)
  /-- A link leads to a definition that is not there. -/
  | dangling (gap : Dangling)

/-- Look at no more than `steps` definitions. -/
def resolveWithin (ns : Namespace) (scope : Option DefId) : Nat → Bound → Resolution
  | 0, _ => .endless
  | steps + 1, bound =>
    match ns.find bound.definition with
    | .error gap => .dangling gap
    | .ok d =>
      if d.kind.isIndirect then
        match ns.behind scope d bound.arguments with
        | .error gap => .dangling gap
        | .ok none => .nothing
        | .ok (some next) => ns.resolveWithin scope steps next
      else .canonical { bound with arguments := Argument.pad bound.arguments d.parameters }

/-- The definition to push for `bound`, at most `limit` links behind it. -/
def canonical (ns : Namespace) (bound : Bound) (scope : Option DefId) (limit : Nat) :
    Except Fault (Option Bound) :=
  match ns.resolveWithin scope (limit + 1) bound with
  | .canonical found => .ok (some found)
  | .nothing => .ok none
  | .endless => .error (.dereferenceLoop (ns.fullName bound.definition) limit)
  | .dangling gap => .error (.danglingReference gap)

end Namespace

end KeepTree
