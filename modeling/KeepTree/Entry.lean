import KeepTree.Definition

/-!
# Cached entries

A table maps keys to entries. An entry is a plain value, a value together with the binding it was
computed for (`Holder`), an element of a cached collection, or a `Pointer`: the value for this key
lives under another key, in another table.
-/

namespace KeepTree

/-- The identity of a table of cached entries. -/
abbrev TableId := Nat

/-! ## 1. Holders -/

/-- A value together with the definition and arguments it was computed for. -/
structure Holder where
  /-- The definition that was asked for. -/
  nominal : DefId
  nominalArguments : List Argument
  /-- The definition that was found behind it. -/
  resolved : DefId
  resolvedArguments : List Argument
  /-- Without data the holder reads as absent. -/
  data : Option Value

namespace Holder

/-- The holder of a value computed for `definition` itself. -/
def of (definition : DefId) (arguments : List Argument) (data : Option Value) : Holder :=
  ⟨definition, arguments, definition, arguments, data⟩

/-- Record the definition and arguments found behind the nominal ones. -/
def withResolution (h : Holder) (definition : DefId) (arguments : List Argument) : Holder :=
  { h with resolved := definition, resolvedArguments := arguments }

/-- The value holds for a request with this definition and these arguments. -/
def fits (h : Holder) (definition : DefId) (arguments : List Argument) : Bool :=
  h.nominal == definition && sameArguments h.nominalArguments arguments

/-- Computed for the same nominal binding. -/
def sameBinding (h other : Holder) : Bool := h.fits other.nominal other.nominalArguments

def same (h other : Holder) : Bool :=
  h.nominal == other.nominal && Argument.sameAll h.nominalArguments other.nominalArguments &&
    h.resolved == other.resolved &&
    Argument.sameAll h.resolvedArguments other.resolvedArguments &&
    match h.data, other.data with
    | some v, some w => v.same w
    | none, none => true
    | _, _ => false

end Holder

/-! ## 2. Elements -/

/-- An element of a cached collection. -/
structure Element where
  collection : Value
  index : Nat

/-- The element itself, if the collection is a list that reaches as far. -/
def Element.resolve (e : Element) : Option Value :=
  e.collection.asList?.bind fun items => items[e.index]?

/-! ## 3. Pointers -/

/-- A definition with arguments, under the name by which it was asked for. -/
structure Binding where
  definition : DefId
  arguments : List Argument
  name : String

/-- The binding of a name without arguments. -/
def Binding.plain (definition : DefId) (name : String) : Binding := ⟨definition, [], name⟩

def Binding.same (b other : Binding) : Bool :=
  b.definition == other.definition && Argument.sameAll b.arguments other.arguments &&
    b.name == other.name

/-- The value lives under `key` in `table`. -/
structure Pointer where
  target : Binding
  /-- The second name of the kept target. -/
  aliasTarget : Option Binding
  key : String
  /-- The container the target is kept in. -/
  container : Option String
  table : TableId

namespace Pointer

/-- The key of the slot in a loop iteration. -/
def slotKey (p : Pointer) (index : Option Nat) : String := DottedName.inLoop p.key index

/-- The same slot of the same table. -/
def sameSlot (p other : Pointer) : Bool := p.key == other.key && p.table == other.table

def same (p other : Pointer) : Bool :=
  p.sameSlot other && p.target.same other.target && p.container == other.container &&
    match p.aliasTarget, other.aliasTarget with
    | some b, some c => b.same c
    | none, none => true
    | _, _ => false

end Pointer

/-! ## 4. Entries -/

/-- What a slot of a table holds. -/
inductive Entry where
  | value (v : Value)
  | holder (h : Holder)
  | element (e : Element)
  | pointer (p : Pointer)

namespace Entry

def pointer? : Entry → Option Pointer
  | .pointer p => some p
  | _ => none

/-- The value an entry holds by itself. A pointer holds none. -/
def ownValue? : Entry → Option Value
  | .value v => some v
  | .holder h => h.data
  | .element e => e.resolve
  | .pointer _ => none

end Entry

end KeepTree
