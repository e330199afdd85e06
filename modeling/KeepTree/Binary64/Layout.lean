import KeepTree.Binary64.Shortest

/-!
# How a floating-point number is written

`Layout` holds the decisions of one way to write numbers, and `Layout.write` applies them to the
fewest digits that identify the number. The two layouts of this library stand where their texts
are written: shown values and JSON.
-/

namespace KeepTree

/-- The decisions of one way to write floating-point numbers. -/
structure Layout where
  /-- Among equally near shortest decimals. -/
  tie : Tie
  /-- The exponents of ten from which, and below which, digits are written positionally; outside
      them stands an exponent with its sign. `none` is always positional. -/
  positional : Option (Int × Int)
  /-- A whole number is written with `.0`. -/
  decimalPoint : Bool
  /-- A number that is none. -/
  nan : String
  /-- The positive and the negative infinity. -/
  infinities : String × String

namespace Layout

def zeros (n : Nat) : List Char := List.replicate n '0'

/-- Positional notation of digits whose point stands after the first `point` of them. -/
def positionally (layout : Layout) (digits : List Char) (point : Int) : List Char :=
  if point ≤ 0 then
    '0' :: '.' :: zeros (-point).toNat ++ digits
  else if (digits.length : Int) ≤ point then
    digits ++ zeros (point - digits.length).toNat ++
      (if layout.decimalPoint then ['.', '0'] else [])
  else
    digits.take point.toNat ++ '.' :: digits.drop point.toNat

/-- One digit before the point, the others after it, and the exponent of ten. -/
def withExponent (digits : List Char) (exponent : Int) : List Char :=
  digits.take 1 ++ (if digits.length ≤ 1 then [] else '.' :: digits.drop 1) ++
    'e' :: (if exponent < 0 then '-' else '+') :: Nat.toDigits 10 exponent.natAbs

/-- A decimal that is not zero. -/
def writeDecimal (layout : Layout) (d : Decimal) : List Char :=
  let digits := Nat.toDigits 10 d.digits
  let exponent := (digits.length : Int) + d.exponent - 1
  match layout.positional with
  | none => layout.positionally digits (exponent + 1)
  | some (least, below) =>
    if least ≤ exponent && exponent < below then layout.positionally digits (exponent + 1)
    else withExponent digits exponent

/-- The text of a floating-point number. -/
def write (layout : Layout) (x : Binary64) : String :=
  if x.isNaN then layout.nan
  else if x.isInfinite then
    if x.negative then layout.infinities.2 else layout.infinities.1
  else
    let sign := if x.negative then ['-'] else []
    let digits :=
      if x.isZero then '0' :: (if layout.decimalPoint then ['.', '0'] else [])
      else layout.writeDecimal (x.magnitude.shortest layout.tie)
    String.ofList (sign ++ digits)

end Layout

end KeepTree
