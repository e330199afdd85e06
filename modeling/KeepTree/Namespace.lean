import KeepTree.Definition

/-!
# Namespaces

A namespace holds definitions under their numbers. Owners nest them into a tree, superdefinitions
link them into lines of inheritance, and names are found along both:

* `child`, `inherits` -- a child declared or inherited; the line of superdefinitions;
* `owners` -- a definition and all around it;
* `lookup`, `lookupFrom` -- the meaning of a dotted name at the top level, and inside a definition;
* `define` -- a new definition, under an owner or at the top level.

A superdefinition may be named that the namespace does not hold. Such a reference does no harm until
a walk along the line comes to it; the walk then fails with the reference, as `Dangling`.
-/

namespace KeepTree

/-- A reference to a definition that the namespace does not hold. -/
structure Dangling where
  id : DefId
  deriving DecidableEq

/-- A tree of definitions. -/
structure Namespace where
  /-- The definitions by number. -/
  definitions : Array Definition
  /-- The definitions without owner, by name. -/
  roots : Dictionary String DefId

namespace Namespace

/-- The namespace without definitions. -/
def empty : Namespace := ⟨#[], .empty⟩

instance : Inhabited Namespace := ⟨empty⟩

/-- The number of definitions. -/
def size (ns : Namespace) : Nat := ns.definitions.size

def get? (ns : Namespace) (id : DefId) : Option Definition := ns.definitions[id]?

/-- The definition that a reference means. -/
def find (ns : Namespace) (id : DefId) : Except Dangling Definition :=
  match ns.get? id with
  | some d => .ok d
  | none => .error ⟨id⟩

/-- The full name of a definition. -/
def fullName (ns : Namespace) (id : DefId) : String :=
  match ns.get? id with
  | some d => d.fullName
  | none => ""

/-! ## 1. Lines of definitions -/

/-- At most `steps` definitions, each the owner of the one before. -/
def ownersWithin (ns : Namespace) : Nat → Option DefId → List (DefId × Definition)
  | 0, _ => []
  | _ + 1, none => []
  | steps + 1, some id =>
    match ns.get? id with
    | none => []
    | some d => (id, d) :: ns.ownersWithin steps d.owner

/-- A definition and its owners, innermost first. An owner has a smaller number than what it owns,
    so there are no more of them than definitions. -/
def owners (ns : Namespace) (id : Option DefId) : List (DefId × Definition) :=
  ns.ownersWithin ns.size id

/-- `id` is `other`, or lies inside it. -/
def isWithin (ns : Namespace) (id other : DefId) : Bool :=
  (ns.owners (some id)).any fun (owner, _) => owner == other

/-- `id` is `other`, or inherits from it by at most `steps` links. -/
def inheritsWithin (ns : Namespace) (other : DefId) : Nat → DefId → Except Dangling Bool
  | 0, id => .ok (id == other)
  | steps + 1, id =>
    if id == other then .ok true
    else
      match ns.find id with
      | .error gap => .error gap
      | .ok d =>
        match d.superdefinition with
        | none => .ok false
        | some next => ns.inheritsWithin other steps next

/-- `id` is `other`, or inherits from it. Links may be circular; after as many links as there are
    definitions nothing new can come. -/
def inherits (ns : Namespace) (id other : DefId) : Except Dangling Bool :=
  ns.inheritsWithin other ns.size id

/-- The child of this name that the first of `steps` definitions in line declares. -/
def childWithin (ns : Namespace) (name : String) : Nat → DefId → Except Dangling (Option DefId)
  | 0, _ => .ok none
  | steps + 1, id =>
    match ns.find id with
    | .error gap => .error gap
    | .ok d =>
      match d.child? name, d.superdefinition with
      | some child, _ => .ok (some child)
      | none, none => .ok none
      | none, some next => ns.childWithin name steps next

/-! ## 2. Names -/

/-- The child of this name, declared or inherited: the first along the line. -/
def child (ns : Namespace) (id : DefId) (name : String) : Except Dangling (Option DefId) :=
  ns.childWithin name (ns.size + 1) id

/-- A definition may be seen; one for its owner only is seen from inside. -/
def isVisible (ns : Namespace) (inside : Bool) (id : DefId) : Bool :=
  inside || (ns.get? id).any (·.access != .ownerOnly)

/-- There is a child of this name that may be seen. -/
def hasChild (ns : Namespace) (id : DefId) (name : String) (inside : Bool) :
    Except Dangling Bool :=
  (ns.child id name).map fun found => found.any (ns.isVisible inside)

/-- Follow a path of child names. -/
def descend (ns : Namespace) : DefId → List String → Except Dangling (Option DefId)
  | id, [] => .ok (some id)
  | id, name :: rest =>
    match ns.child id name with
    | .ok (some next) => ns.descend next rest
    | stopped => stopped

/-- The definition a dotted name means at the top level. -/
def lookup (ns : Namespace) (name : String) : Except Dangling (Option DefId) :=
  match ns.roots.get? (DottedName.head name) with
  | some root => ns.descend root (DottedName.tail name)
  | none => .ok none

/-- What a single name means inside definitions around each other, the innermost first: a child of
    one of them, one of them itself, or a definition at the top level. -/
def headAmong (ns : Namespace) (name : String) :
    List (DefId × Definition) → Except Dangling (Option DefId)
  | [] => .ok (ns.roots.get? name)
  | (id, d) :: rest =>
    match ns.child id name with
    | .ok none => if d.name == name then .ok (some id) else ns.headAmong name rest
    | found => found

/-- What a single name means inside a definition. -/
def resolveHead (ns : Namespace) (inside : Option DefId) (name : String) :
    Except Dangling (Option DefId) :=
  ns.headAmong name (ns.owners inside)

/-- The definition a dotted name means inside a definition. -/
def lookupFrom (ns : Namespace) (inside : Option DefId) (name : String) :
    Except Dangling (Option DefId) :=
  match ns.resolveHead inside (DottedName.head name) with
  | .ok (some start) => ns.descend start (DottedName.tail name)
  | stopped => stopped

/-! ## 3. Growing a namespace -/

/-- Change a definition. -/
def modify (ns : Namespace) (id : DefId) (f : Definition → Definition) : Namespace :=
  { ns with definitions := ns.definitions.modify id f }

/-- Add a plain definition inside `owner`, or at the top level. It takes the place of an earlier
    one with its name and belongs to the site of its owner. -/
def define (ns : Namespace) (owner : Option DefId) (name : String) : DefId × Namespace :=
  let id := ns.size
  match owner with
  | none =>
    (id, { definitions := ns.definitions.push { name, fullName := name }
           roots := ns.roots.insert name id })
  | some ownerId =>
    let site := (ns.get? ownerId).bind fun d => if d.isSite then some ownerId else d.site
    let fullName := DottedName.join (ns.fullName ownerId) name
    let ns := ns.modify ownerId fun d => { d with children := d.children.insert name id }
    (id, { ns with definitions := ns.definitions.push { name, fullName, owner, site } })

/-- Say what a definition stands for. A site belongs to itself. -/
def setKind (ns : Namespace) (id : DefId) (kind : Kind) : Namespace :=
  ns.modify id fun d =>
    match kind with
    | .site => { d with kind, site := some id }
    | _ => { d with kind }

end Namespace

end KeepTree
