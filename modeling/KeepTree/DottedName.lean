/-!
# Dotted names

Names of definitions are dotted paths, `shop.page.title`; the key of a value computed in a loop
carries the number of the iteration, `title#3`. A name is plain text, so that any text is a name;
this file fixes how a path and a key are read off the text:

* `segments` -- the parts between the dots, at least one;
* `head`, `splitHead?` -- the first part, and the first part with all that follows its dot;
* `inLoop` -- the key of an iteration.
-/

namespace KeepTree.DottedName

/-- The parts of a text between its dots. -/
def splitDots : List Char → List (List Char)
  | [] => [[]]
  | c :: rest =>
    if c = '.' then [] :: splitDots rest
    else
      match splitDots rest with
      | [] => [[c]]
      | part :: parts => (c :: part) :: parts

/-- The segments of a dotted name: at least one, and any of them may be empty. -/
def segments (name : String) : List String := (splitDots name.toList).map String.ofList

/-- The first segment of a name. -/
def head (name : String) : String := String.ofList (name.toList.takeWhile (· != '.'))

/-- The segments after the first. -/
def tail (name : String) : List String := (segments name).tail

/-- A name with a dot in it. -/
def isDotted (name : String) : Bool := name.toList.contains '.'

/-- The text before the first dot and the text after it. -/
def splitHead? (name : String) : Option (String × String) :=
  match name.toList.dropWhile (· != '.') with
  | [] => none
  | _ :: rest => some (head name, String.ofList rest)

/-- The name of `child` inside `owner`. -/
def join (owner child : String) : String := owner ++ "." ++ child

/-- The key of `key` in a loop iteration, which is `key` itself outside of loops. -/
def inLoop (key : String) : Option Nat → String
  | none => key
  | some index => key ++ "#" ++ Nat.repr index

/-- A key with a mark of iteration in it. -/
def isLoopKey (key : String) : Bool := key.toList.contains '#'

end KeepTree.DottedName
