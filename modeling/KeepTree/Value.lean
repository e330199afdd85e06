import KeepTree.Binary64.Layout
import KeepTree.DottedName

/-!
# Values, arguments and calls

Evaluation produces a `Value`. A definition is asked for by a `Call`: a dotted name with
arguments, where an argument is a value, another call (evaluated when it is used, in the frame of
its caller) or missing.

* `Value.shown` -- the text of a value inside other text;
* `Value.same`, `Argument.same` -- equality that compares floating-point numbers as numbers;
* `sameArguments` -- the same binding: missing arguments at the end do not count.
-/

namespace KeepTree

/-! ## 1. Values -/

/-- What a definition evaluates to. -/
inductive Value where
  | null
  | bool (b : Bool)
  | int (n : Int64)
  | float (x : Binary64)
  | text (s : String)
  | list (items : List Value)

namespace Value

instance : Inhabited Value := ⟨.null⟩

/-- Shown numbers are positional and whole ones have no point; halfway digits go up. -/
def shownNumber : Layout where
  tie := .awayFromZero
  positional := none
  decimalPoint := false
  nan := "NaN"
  infinities := ("inf", "-inf")

mutual
/-- The text of a value: nothing for null, and the items of a list one after the other. -/
def shown : Value → String
  | .null => ""
  | .bool b => if b then "true" else "false"
  | .int n => n.toInt.repr
  | .float x => shownNumber.write x
  | .text s => s
  | .list items => shownAll items

/-- The texts of several values, joined. -/
def shownAll : List Value → String
  | [] => ""
  | v :: rest => v.shown ++ shownAll rest
end

mutual
/-- Equal values; floating-point numbers are equal as numbers. -/
def same : Value → Value → Bool
  | .null, .null => true
  | .bool a, .bool b => a == b
  | .int a, .int b => a == b
  | .float a, .float b => a.same b
  | .text a, .text b => a == b
  | .list as, .list bs => sameAll as bs
  | _, _ => false

/-- Equal lists of values. -/
def sameAll : List Value → List Value → Bool
  | [], [] => true
  | a :: as, b :: bs => same a b && sameAll as bs
  | _, _ => false
end

/-- The number of an integer value. -/
def asInt? : Value → Option Int64
  | .int n => some n
  | _ => none

/-- The text of a text value. -/
def asText? : Value → Option String
  | .text s => some s
  | _ => none

/-- The items of a list value. -/
def asList? : Value → Option (List Value)
  | .list items => some items
  | _ => none

def isNull : Value → Bool
  | .null => true
  | _ => false

end Value

/-! ## 2. Arguments -/

/-- What a parameter is bound to. -/
inductive Argument where
  | value (v : Value)
  /-- A call, evaluated when the parameter is used, in the frame that supplied it. -/
  | call (name : String) (arguments : List Argument)
  /-- Nothing was supplied. -/
  | missing

namespace Argument

instance : Inhabited Argument := ⟨.missing⟩

def isMissing : Argument → Bool
  | .missing => true
  | _ => false

mutual
/-- Equal arguments. -/
def same : Argument → Argument → Bool
  | .value a, .value b => a.same b
  | .call f as, .call g bs => f == g && sameAll as bs
  | .missing, .missing => true
  | _, _ => false

/-- Equal lists of arguments. -/
def sameAll : List Argument → List Argument → Bool
  | [], [] => true
  | a :: as, b :: bs => same a b && sameAll as bs
  | _, _ => false
end

/-- The arguments up to the last that is not missing. -/
def significant : List Argument → List Argument
  | [] => []
  | a :: rest =>
    match significant rest with
    | [] => if a.isMissing then [] else [a]
    | b :: bs => a :: b :: bs

/-- Append missing arguments up to the number of parameters. Surplus arguments stay. -/
def pad (arguments : List Argument) (parameters : List String) : List Argument :=
  arguments ++ List.replicate (parameters.length - arguments.length) .missing

end Argument

/-- The same binding of parameters: missing arguments at the end do not count. -/
def sameArguments (left right : List Argument) : Bool :=
  Argument.sameAll (Argument.significant left) (Argument.significant right)

/-! ## 3. Calls -/

/-- A dotted name to evaluate, with its arguments. -/
structure Call where
  name : String
  arguments : List Argument

namespace Call

instance : Inhabited Call := ⟨⟨"", []⟩⟩

/-- A call without arguments. -/
def plain (name : String) : Call := ⟨name, []⟩

/-- The call as an argument of another. -/
def toArgument (call : Call) : Argument := .call call.name call.arguments

/-- The first segment of the name. -/
def head (call : Call) : String := DottedName.head call.name

end Call

end KeepTree
