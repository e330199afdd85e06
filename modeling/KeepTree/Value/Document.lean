import KeepTree.Json.Reader
import KeepTree.Json.Writer
import KeepTree.Value

/-!
# Values as JSON

Values are JSON documents without objects. A reader goes no deeper than a given number of nested
arrays and objects; a whole text may nest `maxNesting` of them.
-/

namespace KeepTree

/-- How many arrays and objects may nest in a text. -/
def maxNesting : Nat := 127

/-- Every part of the document has a value, and no more than `depth` arrays and objects nest. -/
def Json.fits : Nat → Json → Bool
  | _, .unreadable => false
  | depth + 1, .array items => items.all (Json.fits depth)
  | depth + 1, .object members => members.all fun (_, value) => value.fits depth
  | 0, .array _ | 0, .object _ => false
  | _, _ => true

namespace Value

/-- A whole number, as an integer if it is in the range of a signed word. -/
def ofWhole (n : Int) : Value :=
  if -(Nat.pow 2 63 : Int) ≤ n ∧ n < Nat.pow 2 63 then .int (Int64.ofInt n)
  else if 0 ≤ n then .float (Binary64.nearest n.natAbs 1)
  else .float (Binary64.nearest n.natAbs 1).negate

/-- The value of a document with at most `depth` nested arrays. -/
def ofJson? : Nat → Json → Option Value
  | _, .null => some .null
  | _, .bool b => some (.bool b)
  | _, .int n => some (ofWhole n)
  | _, .float x => some (.float x)
  | _, .string s => some (.text s)
  | depth + 1, .array items => (items.mapM (ofJson? depth)).map .list
  | 0, .array _ => none
  | _, .object _ => none
  | _, .unreadable => none

/-- Read a value from a text. -/
def read? (text : String) : Option Value := (Json.read? text).bind (ofJson? maxNesting)

mutual
/-- The document of a value. -/
def toJson : Value → Json
  | .null => .null
  | .bool b => .bool b
  | .int n => .int n.toInt
  | .float x => .float x
  | .text s => .string s
  | .list items => .array (toJsonAll items)

/-- The documents of several values. -/
def toJsonAll : List Value → List Json
  | [] => []
  | v :: rest => v.toJson :: toJsonAll rest
end

end Value

end KeepTree
