import KeepTree.Json.Numeral

/-!
# Reading JSON texts

The reader is strict: blanks are spaces, tabs and line ends, nothing follows the document, and
control characters stand in texts only as escapes. It accepts everything the grammar does, however
deep; what nobody can use is marked `unreadable`.
-/

namespace KeepTree.Json

/-! ## 1. Texts -/

def isBlank (c : Char) : Bool := c == ' ' || c == '\n' || c == '\t' || c == '\r'

def skipBlanks (s : List Char) : List Char := s.dropWhile isBlank

/-- The value of a hexadecimal digit. -/
def hexDigit? (c : Char) : Option Nat :=
  if '0' ≤ c ∧ c ≤ '9' then some (c.toNat - '0'.toNat)
  else if 'a' ≤ c ∧ c ≤ 'f' then some (c.toNat - 'a'.toNat + 10)
  else if 'A' ≤ c ∧ c ≤ 'F' then some (c.toNat - 'A'.toNat + 10)
  else none

/-- The number that four hexadecimal digits write. -/
def hexUnit? (a b c d : Char) : Option Nat := do
  let a ← hexDigit? a
  let b ← hexDigit? b
  let c ← hexDigit? c
  let d ← hexDigit? d
  return ((a * 16 + b) * 16 + c) * 16 + d

/-- The character of a one-letter escape. -/
def escaped? : Char → Option Char
  | '"' => some '"'
  | '\\' => some '\\'
  | '/' => some '/'
  | 'b' => some '\x08'
  | 'f' => some '\x0c'
  | 'n' => some '\n'
  | 'r' => some '\r'
  | 't' => some '\t'
  | _ => none

/-- The first of two units that make a character. -/
def isLeading (unit : Nat) : Bool := decide (0xD800 ≤ unit ∧ unit < 0xDC00)

/-- The second of two units that make a character. -/
def isTrailing (unit : Nat) : Bool := decide (0xDC00 ≤ unit ∧ unit < 0xE000)

/-- A part of a text: a character, or one of the two units that make one. -/
inductive TextUnit where
  | whole (c : Char)
  | half (unit : Nat)

/-- The character or half a character that a number stands for. -/
def TextUnit.ofNat (unit : Nat) : TextUnit :=
  if isLeading unit || isTrailing unit then .half unit else .whole (Char.ofNat unit)

/-- The text up to its closing quote, and the rest. -/
def scanUnits? : List Char → Option (List TextUnit × List Char)
  | [] => none
  | '"' :: rest => some ([], rest)
  | '\\' :: 'u' :: a :: b :: c :: d :: rest =>
    match hexUnit? a b c d with
    | some unit => (scanUnits? rest).map fun (units, rest) => (.ofNat unit :: units, rest)
    | none => none
  | '\\' :: c :: rest =>
    match escaped? c with
    | some e => (scanUnits? rest).map fun (units, rest) => (.whole e :: units, rest)
    | none => none
  | c :: rest =>
    if c.toNat < 0x20 then none
    else (scanUnits? rest).map fun (units, rest) => (.whole c :: units, rest)

/-- The characters of a text; none if there is half a character in it. -/
def joinUnits? : List TextUnit → Option (List Char)
  | [] => some []
  | .whole c :: rest => (joinUnits? rest).map (c :: ·)
  | .half first :: .half second :: rest =>
    if isLeading first && isTrailing second then
      let code := (first - 0xD800) * 0x400 + (second - 0xDC00) + 0x10000
      (joinUnits? rest).map (Char.ofNat code :: ·)
    else none
  | .half _ :: _ => none

/-- The text up to its closing quote, unless it holds half a character, and the rest. -/
def scanText? (s : List Char) : Option (Option String × List Char) :=
  (scanUnits? s).map fun (units, rest) => ((joinUnits? units).map String.ofList, rest)

/-- The members of an object, unless a name among them holds half a character. -/
def ofMembers (members : List (Option String × Json)) : Json :=
  match members.mapM fun (name, value) => name.map (·, value) with
  | some members => .object members
  | none => .unreadable

/-! ## 2. Documents -/

mutual
/-- The value at the start of a text, and the rest, in at most as many steps as are given. -/
def scan? : Nat → List Char → Option (Json × List Char)
  | 0, _ => none
  | steps + 1, s =>
    match skipBlanks s with
    | 'n' :: 'u' :: 'l' :: 'l' :: rest => some (.null, rest)
    | 't' :: 'r' :: 'u' :: 'e' :: rest => some (.bool true, rest)
    | 'f' :: 'a' :: 'l' :: 's' :: 'e' :: rest => some (.bool false, rest)
    | '"' :: rest =>
      match scanText? rest with
      | some (some text, rest) => some (.string text, rest)
      | some (none, rest) => some (.unreadable, rest)
      | none => none
    | '[' :: rest =>
      match skipBlanks rest with
      | ']' :: rest => some (.array [], rest)
      | s => (scanItems? steps s).map fun (items, rest) => (.array items, rest)
    | '{' :: rest =>
      match skipBlanks rest with
      | '}' :: rest => some (.object [], rest)
      | s => (scanMembers? steps s).map fun (members, rest) => (ofMembers members, rest)
    | s => (Numeral.scan? s).map fun (n, rest) => (n.toJson, rest)

/-- The items of an array up to its closing bracket, at least one. -/
def scanItems? : Nat → List Char → Option (List Json × List Char)
  | 0, _ => none
  | steps + 1, s =>
    match scan? steps s with
    | none => none
    | some (item, rest) =>
      match skipBlanks rest with
      | ',' :: rest => (scanItems? steps rest).map fun (items, rest) => (item :: items, rest)
      | ']' :: rest => some ([item], rest)
      | _ => none

/-- The members of an object up to its closing brace, at least one. -/
def scanMembers? : Nat → List Char → Option (List (Option String × Json) × List Char)
  | 0, _ => none
  | steps + 1, s =>
    match skipBlanks s with
    | '"' :: rest =>
      match scanText? rest with
      | none => none
      | some (name, rest) =>
        match skipBlanks rest with
        | ':' :: rest =>
          match scan? steps rest with
          | none => none
          | some (value, rest) =>
            match skipBlanks rest with
            | ',' :: rest =>
              (scanMembers? steps rest).map fun (members, rest) => ((name, value) :: members, rest)
            | '}' :: rest => some ([(name, value)], rest)
            | _ => none
        | _ => none
    | _ => none
end

/-- Read a whole text. Each step takes a character or stands before one that does, so twice the
    number of characters is steps enough. -/
def read? (text : String) : Option Json :=
  let s := text.toList
  match scan? (2 * s.length + 2) s with
  | some (json, rest) => if (skipBlanks rest).isEmpty then some json else none
  | none => none

end KeepTree.Json
