import KeepTree.Binary64

/-!
# The fewest digits that identify a number

Of all decimals that read back as a given binary number, `shortest` gives one with the fewest
digits, and of those the nearest. Two of them may be equally near; then a `Tie` rule decides.
All arithmetic is exact:

* `compareScaled` -- a decimal against a multiple of a power of two, by cross-multiplication;
* `readsBack` -- a decimal lies among the numbers that round to the given one;
* `neighbours` -- the two multiples of a power of ten around the number.
-/

namespace KeepTree

/-- The number `digits * 10 ^ exponent`. -/
structure Decimal where
  digits : Nat
  exponent : Int
  deriving DecidableEq

/-- What to write when two decimals are equally near. -/
inductive Tie where
  | toEven
  | awayFromZero
  deriving DecidableEq

namespace Binary64.Dyadic

/-- Compare `a * 10 ^ i` with `b * 2 ^ j`. -/
def compareScaled (a : Nat) (i : Int) (b : Nat) (j : Int) : Ordering :=
  compare (a * Nat.pow 10 i.toNat * Nat.pow 2 (-j).toNat)
    (b * Nat.pow 2 j.toNat * Nat.pow 10 (-i).toNat)

/-- `c * 10 ^ k` rounds to `x`: it lies between the midpoints to the neighbouring numbers, which
    themselves belong to the one with the even significand. -/
def readsBack (x : Dyadic) (c : Nat) (k : Int) : Bool :=
  let low := 4 * x.significand - (if x.narrowBelow then 1 else 2)
  let high := 4 * x.significand + 2
  match compareScaled c k low (x.power - 2), compareScaled c k high (x.power - 2) with
  | .gt, .lt => true
  | .eq, .lt => x.significand % 2 == 0
  | .gt, .eq => x.significand % 2 == 0
  | _, _ => false

/-- The greatest `c` with `c * 10 ^ k` not above `x`. -/
def floorAt (x : Dyadic) (k : Int) : Nat :=
  x.significand * Nat.pow 2 x.power.toNat * Nat.pow 10 (-k).toNat /
    (Nat.pow 2 (-x.power).toNat * Nat.pow 10 k.toNat)

/-- The least `k` with `x < 10 ^ k`, of a number that is not zero. The smallest number is above
    `10 ^ -324`, so four hundred places show the first digit. -/
def scale (x : Dyadic) : Int :=
  ((Nat.toDigits 10 (x.floorAt (-400))).length : Int) - 400

/-- The multiples of `10 ^ k` next to `x` that read back as `x`, the better one first. -/
def neighbours (tie : Tie) (x : Dyadic) (k : Int) : List Nat :=
  let below := x.floorAt k
  let nearer := match compareScaled (2 * below + 1) k (2 * x.significand) x.power with
    | .gt => [below, below + 1]
    | .lt => [below + 1, below]
    | .eq =>
      match tie with
      | .awayFromZero => [below + 1, below]
      | .toEven => if below % 2 == 0 then [below, below + 1] else [below + 1, below]
  nearer.filter fun c => x.readsBack c k

/-- Move the zeros at the end of the digits into the exponent. -/
def stripZeros : Nat → Decimal → Decimal
  | 0, d => d
  | fuel + 1, d =>
    if d.digits != 0 && d.digits % 10 == 0 then stripZeros fuel ⟨d.digits / 10, d.exponent + 1⟩
    else d

/-- The fewest digits that read back as `x`, which is not zero. Seventeen digits always do. -/
def shortest (tie : Tie) (x : Dyadic) : Decimal :=
  let top := x.scale
  let found := (List.range 17).findSome? fun (n : Nat) =>
    let k := top - (n + 1 : Nat)
    (x.neighbours tie k).head?.map fun c => (⟨c, k⟩ : Decimal)
  stripZeros 20 (found.getD ⟨x.floorAt (top - 17), top - 17⟩)

end Binary64.Dyadic

end KeepTree
