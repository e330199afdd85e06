import KeepTree.Namespace

/-!
# Trees of declarations

A `Forest` is what a written definition tree says: declarations, nested. Loading it numbers the
definitions from the top down, each before its children, and then links superdefinitions and
flavors by name, so that a link may point to a definition further down:

* `Forest.declareAll` -- the definitions, and the links still to be made;
* `Namespace.link` -- one link;
* `Forest.load` -- the namespace, or the first link that leads nowhere.
-/

namespace KeepTree

/-- What is said about one definition. -/
structure Declaration where
  name : String
  site : Bool := false
  access : Access := .everywhere
  durability : Durability := .inContext
  parameters : List String := []
  /-- The full name of the superdefinition. -/
  superName : Option String := none
  keeps : List Keep := []
  body : Body := .empty
  /-- The call the definition is another name for. -/
  target : Option Call := none
  /-- The elements of a collection. -/
  elements : Option (List Call) := none
  /-- The full name of the definition that this one is a flavor of. -/
  flavorOf : Option String := none

/-- A declaration with the declarations inside it. -/
inductive Tree where
  | node (declaration : Declaration) (children : List Tree)

instance : Inhabited Tree := ⟨.node ⟨"", false, .everywhere, .inContext, [], none, [], .empty, none,
  none, none⟩ []⟩

/-- The declarations at the top level. -/
structure Forest where
  trees : List Tree

/-- A link that is made by name. -/
inductive Link where
  | inherit (name : String)
  | flavor (name : String)

/-- Why a tree cannot be loaded. -/
inductive LoadFault where
  /-- The text is not a definition tree. -/
  | malformed
  | unknownSuperdefinition (definition superName : String)
  | unknownUnderlying (definition underlying : String)
  deriving DecidableEq

def LoadFault.message : LoadFault → String
  | .malformed => "invalid definition tree"
  | .unknownSuperdefinition definition superName =>
    "`" ++ definition ++ "` extends unknown definition `" ++ superName ++ "`"
  | .unknownUnderlying definition underlying =>
    "`" ++ definition ++ "` wraps unknown definition `" ++ underlying ++ "`"

namespace Declaration

/-- What the definition stands for. A site is nothing else, and an alias no collection. -/
def kind (d : Declaration) : Kind :=
  if d.site then .site
  else
    match d.target, d.elements with
    | some target, _ => .aliasOf target
    | none, some elements => .collection elements
    | none, none => .plain

/-- The links to be made for a definition. -/
def links (d : Declaration) (id : DefId) : List (DefId × Link) :=
  d.superName.toList.map (fun name => (id, .inherit name)) ++
    d.flavorOf.toList.map (fun name => (id, .flavor name))

/-- Add the definition to a namespace. -/
def addTo (d : Declaration) (owner : Option DefId) (ns : Namespace) : DefId × Namespace :=
  let (id, ns) := ns.define owner d.name
  let ns := ns.setKind id d.kind
  (id, ns.modify id fun definition =>
    { definition with
      access := d.access
      durability := d.durability
      parameters := d.parameters
      body := d.body
      keeps := d.keeps })

end Declaration

mutual
/-- Add a declaration and all inside it; the links to be made, in order. -/
def Tree.declare (owner : Option DefId) : Tree → Namespace → Namespace × List (DefId × Link)
  | .node declaration children, ns =>
    let (id, ns) := declaration.addTo owner ns
    let (ns, links) := Tree.declareAll (some id) children ns
    (ns, declaration.links id ++ links)

/-- Add several declarations. -/
def Tree.declareAll (owner : Option DefId) :
    List Tree → Namespace → Namespace × List (DefId × Link)
  | [], ns => (ns, [])
  | tree :: rest, ns =>
    let (ns, links) := tree.declare owner ns
    let (ns, more) := Tree.declareAll owner rest ns
    (ns, links ++ more)
end

/-- Make a link. The name is looked up with the links made so far. -/
def Namespace.link (ns : Namespace) (id : DefId) : Link → Except LoadFault Namespace
  | .inherit name =>
    match ns.lookup name with
    | .ok (some found) => .ok (ns.modify id fun d => { d with superdefinition := some found })
    | _ => .error (.unknownSuperdefinition (ns.fullName id) name)
  | .flavor name =>
    match ns.lookup name with
    | .ok (some found) => .ok (ns.modify id fun d => { d with kind := .flavor found })
    | _ => .error (.unknownUnderlying (ns.fullName id) name)

/-- Make links in order, up to the first that leads nowhere. -/
def Namespace.linkAll (ns : Namespace) : List (DefId × Link) → Except LoadFault Namespace
  | [] => .ok ns
  | (id, link) :: rest =>
    match ns.link id link with
    | .ok ns => ns.linkAll rest
    | .error fault => .error fault

/-- The namespace of a forest. -/
def Forest.load (forest : Forest) : Except LoadFault Namespace :=
  let (ns, links) := Tree.declareAll none forest.trees .empty
  ns.linkAll links

end KeepTree
