import KeepTree.Binary64.Nearest
import KeepTree.Json

/-!
# Numbers of JSON texts

A numeral is a sign, whole digits, and perhaps a fraction and an exponent. A whole numeral that
fits a 64-bit word is exact. Any other is read as a significand, which takes as many digits as fit
an unsigned word, times a power of ten; the significand is rounded first and then multiplied or
divided once (in several steps when the exponent is far below zero). A numeral too large for every
number is unreadable.
-/

namespace KeepTree.Json

/-- The parts of a number as written. -/
structure Numeral where
  negative : Bool
  /-- The digits before the point, at least one. -/
  whole : List Char
  /-- The digits after the point; without a point there are none. -/
  fraction : List Char
  /-- The exponent is negative, and its digits. -/
  exponent : Option (Bool × List Char)

namespace Numeral

/-! ## 1. Reading the parts -/

/-- The digits at the start of a text, at least one, and the rest. -/
def digits? (s : List Char) : Option (List Char × List Char) :=
  match s.takeWhile Char.isDigit with
  | [] => none
  | ds => some (ds, s.dropWhile Char.isDigit)

/-- Digits before the point: a zero alone, or digits that do not start with a zero. -/
def whole? : List Char → Option (List Char × List Char)
  | '0' :: rest => some (['0'], rest)
  | s => digits? s

/-- A point and digits, or nothing. -/
def fraction? : List Char → Option (List Char × List Char)
  | '.' :: rest => digits? rest
  | s => some ([], s)

/-- The digits of an exponent, after its sign. -/
def signedExponent? : List Char → Option ((Bool × List Char) × List Char)
  | '-' :: rest => (digits? rest).map fun (ds, rest) => ((true, ds), rest)
  | '+' :: rest => (digits? rest).map fun (ds, rest) => ((false, ds), rest)
  | s => (digits? s).map fun (ds, rest) => ((false, ds), rest)

/-- An exponent, or nothing. -/
def exponent? : List Char → Option (Option (Bool × List Char) × List Char)
  | 'e' :: rest | 'E' :: rest => (signedExponent? rest).map fun (e, rest) => (some e, rest)
  | s => some (none, s)

/-- The numeral at the start of a text, and the rest. -/
def scan? (s : List Char) : Option (Numeral × List Char) := do
  let (negative, s) := match s with
    | '-' :: rest => (true, rest)
    | s => (false, s)
  let (whole, s) ← whole? s
  let (fraction, s) ← fraction? s
  let (exponent, s) ← exponent? s
  return (⟨negative, whole, fraction, exponent⟩, s)

/-! ## 2. The number -/

/-- The value of a digit. -/
def digit (c : Char) : Nat := c.toNat - '0'.toNat

/-- The natural number that digits write. -/
def natural (ds : List Char) : Nat := ds.foldl (fun n c => n * 10 + digit c) 0

/-- Append digits to a significand while it fits an unsigned word; the digits that are left. -/
def absorb (significand : Nat) : List Char → Nat × List Char
  | [] => (significand, [])
  | c :: rest =>
    let longer := significand * 10 + digit c
    if longer < Nat.pow 2 64 then absorb longer rest else (significand, c :: rest)

/-- The magnitude of a power of ten. -/
def powerOfTen (k : Nat) : Binary64.Dyadic := (Binary64.nearest (Nat.pow 10 k) 1).magnitude

/-- Divide by the largest power of ten, `steps` times or down to zero. -/
def shrink : Nat → Binary64 → Binary64
  | 0, x => x
  | steps + 1, x => if x.isZero then x else shrink steps (x.magnitude.dividedBy (powerOfTen 308))

/-- `significand * 10 ^ exponent`; nothing if that is too large. -/
def scaled (significand : Nat) (exponent : Int) : Option Binary64 :=
  let x := Binary64.nearest significand 1
  match exponent with
  | .ofNat k =>
    if x.isZero then some x
    else if 308 < k then none
    else
      let product := x.magnitude.times (powerOfTen k)
      if product.isInfinite then none else some product
  | .negSucc k =>
    let steps := k / 308
    some ((shrink steps x).magnitude.dividedBy (powerOfTen (k + 1 - 308 * steps)))

/-- The magnitude of a numeral that is not read as a whole number. -/
def approximate (n : Numeral) : Option Binary64 :=
  let (significand, surplus) := absorb 0 n.whole
  let (significand, dropped) := absorb significand n.fraction
  let point : Int := surplus.length - (n.fraction.length - dropped.length : Nat)
  match n.exponent with
  | none => scaled significand point
  | some (below, ds) =>
    let e := natural ds
    if e < Nat.pow 2 31 then scaled significand (if below then point - e else point + e)
    else if below || significand == 0 then some ⟨0⟩
    else none

/-- The number that a numeral writes. -/
def toJson (n : Numeral) : Json :=
  let value := natural n.whole
  if n.fraction.isEmpty && n.exponent.isNone && decide (value < Nat.pow 2 64) &&
      (!n.negative || decide (0 < value ∧ value ≤ Nat.pow 2 63)) then
    .int (if n.negative then -value else value)
  else
    match n.approximate with
    | some x => .float (if n.negative then x.negate else x)
    | none => .unreadable

end Numeral

end KeepTree.Json
