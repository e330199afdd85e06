import KeepTree.Toml.Scalar

/-!
# Reading TOML texts

A text is a list of lines: comments, headers, and keys with their values. `read?` gives the table
that the lines add up to, or nothing if the text breaks a rule.
-/

namespace KeepTree.Toml

/-! ## 1. Keys -/

/-- A character of a key without quotes. -/
def isKeyChar (c : Char) : Bool := c.isAlphanum || c == '_' || c == '-'

/-- A single key, with or without quotes. -/
def simpleKey? (s : List Char) : Option (String × List Char) :=
  match shortText? s with
  | some (text, rest) => some (String.ofList text, rest)
  | none =>
    match s.takeWhile isKeyChar with
    | [] => none
    | key => some (String.ofList key, s.dropWhile isKeyChar)

/-- How many keys a path may have, and how many arrays and tables may nest. -/
def nestingLimit : Nat := 80

/-- Keys with dots between them, and blanks anywhere, in at most so many steps. -/
def dottedKey? : Nat → List Char → Option (List String × List Char)
  | 0, _ => none
  | steps + 1, s => do
    let (key, rest) ← simpleKey? (skipBlanks s)
    match skipBlanks rest with
    | '.' :: rest =>
      let (keys, rest) ← dottedKey? steps rest
      return (key :: keys, rest)
    | rest => return ([key], rest)

/-- A path: the keys before the last, and the last. -/
def path? (s : List Char) : Option ((List String × String) × List Char) := do
  let (keys, rest) ← dottedKey? (nestingLimit - 1) s
  let last ← keys.getLast?
  return ((keys.dropLast, last), rest)

/-! ## 2. Values -/

/-- Skip a comment. -/
def skipComment : List Char → List Char
  | '#' :: rest => rest.dropWhile isPrintable
  | s => s

/-- Skip blanks, line ends and comments, in at most so many steps. -/
def skipSpace : Nat → List Char → List Char
  | 0, s => s
  | steps + 1, s =>
    match lineEnd? (skipComment (skipBlanks s)) with
    | some rest => skipSpace steps rest
    | none => skipComment (skipBlanks s)

mutual
/-- A value, in at most so many steps, with at most `depth` arrays and tables inside each other. -/
def value? : Nat → Nat → List Char → Option (Node × List Char)
  | 0, _, _ => none
  | steps + 1, depth, s =>
    match s with
    | '"' :: _ | '\x27' :: _ => (text? s).map fun (_, rest) => (.other, rest)
    | 't' :: 'r' :: 'u' :: 'e' :: rest => some (.boolean true, rest)
    | 'f' :: 'a' :: 'l' :: 's' :: 'e' :: rest => some (.boolean false, rest)
    | '[' :: rest =>
      match depth with
      | 0 => none
      | depth + 1 => (items? steps depth rest).map (.other, ·)
    | '{' :: rest =>
      match depth with
      | 0 => none
      | depth + 1 =>
        match skipBlanks rest with
        | '}' :: rest => some (.other, rest)
        | s => do
          let (pairs, rest) ← pairs? steps depth s
          let _ ← Table.empty.addPairs pairs
          return (.other, rest)
    | s => number? s

/-- The items of an array up to its closing bracket; the characters after it. -/
def items? : Nat → Nat → List Char → Option (List Char)
  | 0, _, _ => none
  | steps + 1, depth, s =>
    match skipSpace s.length s with
    | ']' :: rest => some rest
    | s => do
      let (_, rest) ← value? steps depth s
      match skipSpace rest.length rest with
      | ',' :: rest => items? steps depth rest
      | ']' :: rest => return rest
      | _ => none

/-- The keys and values of a table up to its closing brace, at least one. -/
def pairs? : Nat → Nat → List Char → Option (List (List String × String × Node) × List Char)
  | 0, _, _ => none
  | steps + 1, depth, s => do
    let ((path, key), rest) ← path? s
    let rest ← expect? '=' rest
    let (node, rest) ← value? steps depth (skipBlanks rest)
    match skipBlanks rest with
    | ',' :: rest =>
      let (pairs, rest) ← pairs? steps depth rest
      return ((path, key, node) :: pairs, rest)
    | '}' :: rest => return ([(path, key, node)], rest)
    | _ => none
end

/-! ## 3. Lines -/

/-- The rest of a line: blanks, perhaps a comment, and its end or that of the text. -/
def endOfLine? (s : List Char) : Option (List Char) :=
  match skipComment (skipBlanks s) with
  | [] => some []
  | s => lineEnd? s

/-- A line that is not empty. -/
inductive Line where
  | header (path : List String) (key : String) (many : Bool)
  | pair (path : List String) (key : String) (node : Node)

/-- The line at the start of a text. -/
def line? : List Char → Option (Line × List Char)
  | '[' :: '[' :: s => do
    let ((path, key), rest) ← path? s
    let rest ← expect? ']' rest
    let rest ← expect? ']' rest
    return (.header path key true, ← endOfLine? rest)
  | '[' :: s => do
    let ((path, key), rest) ← path? s
    let rest ← expect? ']' rest
    return (.header path key false, ← endOfLine? rest)
  | s => do
    let ((path, key), rest) ← path? s
    let rest ← expect? '=' rest
    let (node, rest) ← value? (2 * rest.length + 2) (nestingLimit - 1) (skipBlanks rest)
    return (.pair path key node, ← endOfLine? rest)

/-- All lines of a text, in at most so many steps. -/
def lines? : Nat → List Char → Option (List Line)
  | 0, _ => none
  | steps + 1, s =>
    match skipBlanks s with
    | [] => some []
    | '#' :: rest => (endOfLine? ('#' :: rest)).bind (lines? steps)
    | s =>
      match lineEnd? s with
      | some rest => lines? steps rest
      | none => do
        let (line, rest) ← line? s
        return line :: (← lines? steps rest)

/-- The sections that lines make up; `pairs` are those since the last header, in reverse. -/
def sections (header : Option (List String × String)) (many : Bool)
    (pairs : List (List String × String × Node)) : List Line → List Section
  | [] => [⟨header, many, pairs.reverse⟩]
  | .header path key more :: rest =>
    ⟨header, many, pairs.reverse⟩ :: sections (some (path, key)) more [] rest
  | .pair path key node :: rest => sections header many ((path, key, node) :: pairs) rest

/-- Skip the mark that may stand before a text. -/
def skipMark : List Char → List Char
  | '\uFEFF' :: rest => rest
  | s => s

/-- The table that a text describes. Each line takes at least one character. -/
def read? (text : String) : Option Table := do
  let s := skipMark text.toList
  let lines ← lines? (s.length + 1) s
  Table.empty.addSections (sections none false [] lines)

end KeepTree.Toml
