/-!
# Ranges of characters

A set of characters is given by a list of ranges in ascending order, each by its first and its last
code point. A long list is given by lengths instead: those of the ranges, and those of the gaps before
them.
-/

namespace KeepTree.Text

/-- The character is in one of the ranges. -/
def inRanges (ranges : List (Nat × Nat)) (c : Char) : Bool :=
  ranges.any fun (first, last) => decide (first ≤ c.toNat ∧ c.toNat ≤ last)

/-- The ranges from a code point on, by the lengths of a gap and of the range after it, in turn. -/
def rangesFrom (start : Nat) : List Nat → List (Nat × Nat)
  | gap :: length :: rest =>
    (start + gap, start + gap + length - 1) :: rangesFrom (start + gap + length) rest
  | _ => []

end KeepTree.Text
