import KeepTree.Binary64.Layout

/-!
# JSON documents

A `Json` is what a JSON text says. Whole numbers within the range of a signed or unsigned 64-bit
word are exact, all others are binary floating-point. Objects keep their members as they were
written, so that a reader can refuse a name that is given twice.

Some parts of a text follow the grammar and yet say nothing: numbers beyond every range and texts
with half a character. Such a part is `unreadable`. It does no harm where nobody reads it.
-/

namespace KeepTree

/-- What a JSON text says. -/
inductive Json where
  | null
  | bool (b : Bool)
  | int (n : Int)
  | float (x : Binary64)
  | string (s : String)
  | array (items : List Json)
  | object (members : List (String × Json))
  /-- Well formed, but without a value. -/
  | unreadable

namespace Json

instance : Inhabited Json := ⟨.null⟩

/-! ## 1. Records

The fields of a record are the members of an object, in any order and among others, or the items of
an array, in the order of the fields. -/

/-- The fields that were given, by name. -/
abbrev Record := List (String × Json)

/-- The value as a record with these fields. None may be given twice, and an array may be shorter
    than the list of fields but not longer. -/
def record? (fields : List String) : Json → Option Record
  | .object members =>
    if fields.all fun field => (members.filter (·.1 == field)).length ≤ 1 then some members
    else none
  | .array items => if items.length ≤ fields.length then some (fields.zip items) else none
  | _ => none

namespace Record

variable {α : Type}

/-- A field that must be given. -/
def required (r : Record) (field : String) (decode : Json → Option α) : Option α :=
  (r.lookup field).bind decode

/-- A field that may be left out. -/
def optional (r : Record) (field : String) (default : α) (decode : Json → Option α) : Option α :=
  match r.lookup field with
  | some json => decode json
  | none => some default

end Record

/-! ## 2. Simple values -/

def string? : Json → Option String
  | .string s => some s
  | _ => none

def bool? : Json → Option Bool
  | .bool b => some b
  | _ => none

/-- A natural number below `bound`. -/
def natBelow? (bound : Nat) : Json → Option Nat
  | .int (.ofNat n) => if n < bound then some n else none
  | _ => none

/-- A value, or null for none. -/
def nullable? {α : Type} (decode : Json → Option α) : Json → Option (Option α)
  | .null => some none
  | json => (decode json).map some

end Json

end KeepTree
