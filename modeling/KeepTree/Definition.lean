import KeepTree.Dictionary
import KeepTree.Value

/-!
# Definitions

A definition is a named template that produces a value. It has parameters, a body, children of
its own and, perhaps, a superdefinition whose children it inherits. Definitions refer to each
other by number; a `Namespace` holds them under these numbers.
-/

namespace KeepTree

/-- The number of a definition in its namespace. -/
abbrev DefId := Nat

/-- Who may see the values computed for a definition. -/
inductive Access where
  /-- Only frames inside the owning definition. -/
  | ownerOnly
  | siteWide
  | everywhere
  deriving DecidableEq

/-- How long a computed value is kept. -/
inductive Durability where
  /-- Computed at every use. -/
  | dynamic
  /-- Kept in the frame that asked for it. -/
  | inContext
  /-- Kept for the whole site. -/
  | global
  /-- Kept for all sites. -/
  | cosmic
  /-- Kept for all sites, and never invalid. -/
  | static
  deriving DecidableEq

/-- The value outlives the frames: it lives in a durable table. -/
def Durability.isGlobal : Durability → Bool
  | .global | .cosmic | .static => true
  | .dynamic | .inContext => false

/-- How durabilities are labelled in listings. -/
def Durability.label : Durability → String
  | .dynamic => "Dynamic"
  | .inContext => "InContext"
  | .global => "Global"
  | .cosmic => "Cosmic"
  | .static => "Static"

/-- `keep target`, `keep target as aliasName`, `keep target in container`. -/
structure Keep where
  target : String
  aliasName : Option String := none
  container : Option String := none
  deriving DecidableEq

/-- What a definition stands for: itself, or another definition behind it. -/
inductive Kind where
  | plain
  /-- The top of a site; its frames share the cache of the frame recorded as root. -/
  | site
  | collection (elements : List Call)
  /-- Another name for a call. -/
  | aliasOf (target : Call)
  /-- The element of a collection at an index. -/
  | elementRef (collection : String) (index : Nat)
  | flavor (underlying : DefId)
  | typeWrapper (underlying : DefId)
  /-- An element of a collection, bound to a call. -/
  | collectionElement (call : Call)

/-- The definition must be resolved before a frame can be pushed for it. -/
def Kind.isIndirect : Kind → Bool
  | .plain | .site | .collection _ => false
  | _ => true

/-- What a definition evaluates to. -/
inductive Body where
  | empty
  | literal (value : Value)
  | ref (call : Call)
  /-- The texts of the parts, joined. -/
  | concat (parts : List Body)
  | list (items : List Body)
  /-- `body` once for each element of `range`, with the element bound to `item`. -/
  | each (item : String) (range body : Body)
  /-- The body of the superdefinition. -/
  | super
  /-- Give up the current output for another location. -/
  | redirect (status : UInt16) (location message : String)

instance : Inhabited Body := ⟨.empty⟩

/-- A named template. -/
structure Definition where
  name : String
  /-- The names of all owners and of the definition, dotted. -/
  fullName : String
  access : Access := .everywhere
  durability : Durability := .inContext
  kind : Kind := .plain
  owner : Option DefId := none
  /-- The site the definition belongs to. -/
  site : Option DefId := none
  superdefinition : Option DefId := none
  parameters : List String := []
  /-- Children declared here, by name. -/
  children : Dictionary String DefId := .empty
  keeps : List Keep := []
  body : Body := .empty

namespace Definition

def isSite (d : Definition) : Bool :=
  match d.kind with
  | .site => true
  | _ => false

/-- Values of the definition live in a durable table. -/
def isGlobal (d : Definition) : Bool := d.durability.isGlobal

/-- The child declared under `name`. -/
def child? (d : Definition) (name : String) : Option DefId := d.children.get? name

/-- The keep whose target or alias is `name`. -/
def keepFor? (d : Definition) (name : String) : Option Keep :=
  d.keeps.find? fun keep => keep.target == name || keep.aliasName == some name

end Definition

end KeepTree
