/-!
# Binary floating-point words

A `Binary64` is the 64-bit word of a binary floating-point number: a sign bit, eleven bits of
exponent and fifty-two of fraction. Everything a value needs of it is read off the word:

* `isNaN`, `isInfinite`, `isZero`, `negative` -- what kind of number the word is;
* `same` -- equality of numbers, by which a not-a-number differs from itself and the two zeros
  are equal;
* `Dyadic` -- the magnitude of a finite word as `significand * 2 ^ power`.
-/

namespace KeepTree

/-- The word of a binary floating-point number. -/
structure Binary64 where
  bits : UInt64
  deriving DecidableEq

namespace Binary64

/-! ## 1. The fields of a word -/

/-- The sign bit is set. -/
def negative (x : Binary64) : Bool := decide (Nat.pow 2 63 ≤ x.bits.toNat)

/-- The eleven bits of the exponent. -/
def exponentField (x : Binary64) : Nat := x.bits.toNat / Nat.pow 2 52 % Nat.pow 2 11

/-- The fifty-two bits of the fraction. -/
def fraction (x : Binary64) : Nat := x.bits.toNat % Nat.pow 2 52

def isNaN (x : Binary64) : Bool := x.exponentField == 2047 && x.fraction != 0

def isInfinite (x : Binary64) : Bool := x.exponentField == 2047 && x.fraction == 0

def isZero (x : Binary64) : Bool := x.bits.toNat % Nat.pow 2 63 == 0

/-! ## 2. Equality of numbers -/

/-- Equal as numbers: a not-a-number equals nothing, and the two zeros are equal. -/
def same (x y : Binary64) : Bool :=
  !x.isNaN && !y.isNaN && (x.bits == y.bits || x.isZero && y.isZero)

theorem same_self {x : Binary64} (h : x.isNaN = false) : x.same x = true := by
  simp [same, h]

/-! ## 3. Magnitudes -/

/-- The number `significand * 2 ^ power`. The numbers that round to it reach half a unit of the
    last place up, and as far down unless the gap below is only half as wide. -/
structure Dyadic where
  significand : Nat
  power : Int
  narrowBelow : Bool

/-- The magnitude of a finite word. -/
def magnitude (x : Binary64) : Dyadic :=
  if x.exponentField = 0 then ⟨x.fraction, -1074, false⟩
  else ⟨Nat.pow 2 52 + x.fraction, (x.exponentField : Int) - 1075,
    x.fraction == 0 && decide (1 < x.exponentField)⟩

end Binary64

end KeepTree
