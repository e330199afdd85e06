import KeepTree.Binary64

/-!
# The nearest floating-point number

`nearest num den` is the binary floating-point number nearest to `num / den`; of two that are
equally near, the one with an even last bit. From the largest exponent on it is infinite. Products
and quotients of magnitudes round in the same way.
-/

namespace KeepTree.Binary64

/-- The quotient rounded to the nearest natural number, halves to even. -/
def roundDiv (num den : Nat) : Nat :=
  let quotient := num / den
  let rest := 2 * (num % den)
  if den < rest ∨ rest = den ∧ quotient % 2 = 1 then quotient + 1 else quotient

/-- The word of positive infinity. -/
def infinity : Nat := 2047 * Nat.pow 2 52

/-- `num / (den * 2 ^ power)`, rounded. -/
def roundScaled (num den : Nat) (power : Int) : Nat :=
  roundDiv (num * Nat.pow 2 (-power).toNat) (den * Nat.pow 2 power.toNat)

/-- The number nearest to `num / den`. The significand has fifty-three bits unless the number is so
    small that its last place is the smallest there is; the fields of the word then add up. -/
def nearest (num den : Nat) : Binary64 :=
  if num = 0 then ⟨0⟩
  else
    let estimate : Int := (num.log2 : Int) - den.log2 - 52
    let reaches : Bool :=
      decide (den * Nat.pow 2 52 * Nat.pow 2 estimate.toNat ≤ num * Nat.pow 2 (-estimate).toNat)
    let power := max (-1074) (if reaches then estimate else estimate - 1)
    let word := (power + 1074).toNat * Nat.pow 2 52 + roundScaled num den power
    ⟨UInt64.ofNat (min word infinity)⟩

/-- The other sign. -/
def negate (x : Binary64) : Binary64 := ⟨x.bits ^^^ 0x8000000000000000⟩

/-- The product of two magnitudes. -/
def Dyadic.times (a b : Dyadic) : Binary64 :=
  let power := a.power + b.power
  nearest (a.significand * b.significand * Nat.pow 2 power.toNat) (Nat.pow 2 (-power).toNat)

/-- The quotient of two magnitudes. -/
def Dyadic.dividedBy (a b : Dyadic) : Binary64 :=
  let power := a.power - b.power
  nearest (a.significand * Nat.pow 2 power.toNat) (b.significand * Nat.pow 2 (-power).toNat)

end KeepTree.Binary64
