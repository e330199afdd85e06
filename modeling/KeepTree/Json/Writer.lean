import KeepTree.Json

/-!
# Writing JSON texts

Documents are written on one line, or on several with two spaces for each level. Numbers are
written with as few digits as read back; numbers that JSON cannot write become null.
-/

namespace KeepTree.Json

/-- Numbers from `1e-5` up to `1e16` are positional, with a digit after the point; halfway digits
    go to the even neighbour. -/
def numbers : Layout where
  tie := .toEven
  positional := some (-5, 16)
  decimalPoint := true
  nan := "null"
  infinities := ("null", "null")

/-! ## 1. Texts -/

/-- A digit of a hexadecimal number. -/
def hexChar (n : Nat) : Char :=
  if n < 10 then Char.ofNat ('0'.toNat + n) else Char.ofNat ('a'.toNat + (n - 10))

/-- A character inside a text. -/
def writeChar (c : Char) : List Char :=
  if c = '"' then ['\\', '"']
  else if c = '\\' then ['\\', '\\']
  else if c = '\n' then ['\\', 'n']
  else if c = '\r' then ['\\', 'r']
  else if c = '\t' then ['\\', 't']
  else if c = '\x08' then ['\\', 'b']
  else if c = '\x0c' then ['\\', 'f']
  else if c.toNat < 0x20 then
    ['\\', 'u', '0', '0', hexChar (c.toNat / 16), hexChar (c.toNat % 16)]
  else [c]

/-- A text in quotes. -/
def writeText (s : String) : List Char := '"' :: s.toList.flatMap writeChar ++ ['"']

/-! ## 2. Documents -/

/-- Where the parts of arrays and objects stand. -/
inductive Spacing where
  /-- All on one line. -/
  | compact
  /-- Each part on a line of its own, two spaces deeper. -/
  | indented
  deriving DecidableEq

/-- The start of a line at a level. -/
def Spacing.newLine (spacing : Spacing) (level : Nat) : List Char :=
  match spacing with
  | .compact => []
  | .indented => '\n' :: List.replicate (2 * level) ' '

/-- Between the name and the value of a member. -/
def Spacing.colon : Spacing → List Char
  | .compact => [':']
  | .indented => [':', ' ']

mutual
/-- The text of a document, as part of a document at a level. -/
def writeAt (spacing : Spacing) (level : Nat) : Json → List Char
  | .null => ['n', 'u', 'l', 'l']
  | .bool true => ['t', 'r', 'u', 'e']
  | .bool false => ['f', 'a', 'l', 's', 'e']
  | .int n => n.repr.toList
  | .float x => (numbers.write x).toList
  | .string s => writeText s
  | .array [] => ['[', ']']
  | .array (item :: items) =>
    '[' :: spacing.newLine (level + 1) ++ writeAt spacing (level + 1) item ++
      writeItems spacing (level + 1) items ++ spacing.newLine level ++ [']']
  | .object [] => ['{', '}']
  | .object ((name, value) :: members) =>
    '{' :: spacing.newLine (level + 1) ++ writeText name ++ spacing.colon ++
      writeAt spacing (level + 1) value ++ writeMembers spacing (level + 1) members ++
      spacing.newLine level ++ ['}']
  | .unreadable => ['n', 'u', 'l', 'l']

/-- The further items of an array. -/
def writeItems (spacing : Spacing) (level : Nat) : List Json → List Char
  | [] => []
  | item :: items =>
    ',' :: spacing.newLine level ++ writeAt spacing level item ++ writeItems spacing level items

/-- The further members of an object. -/
def writeMembers (spacing : Spacing) (level : Nat) : List (String × Json) → List Char
  | [] => []
  | (name, value) :: members =>
    ',' :: spacing.newLine level ++ writeText name ++ spacing.colon ++
      writeAt spacing level value ++ writeMembers spacing level members
end

/-- The text on one line. -/
def compact (json : Json) : String := String.ofList (json.writeAt .compact 0)

/-- The text on several lines. -/
def pretty (json : Json) : String := String.ofList (json.writeAt .indented 0)

end KeepTree.Json
