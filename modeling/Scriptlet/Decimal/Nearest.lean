import Scriptlet.Decimal.Rank

/-!
# Scriptlet.Decimal.Nearest

**The nearest binary64 number.** Rounding of an exact quotient, of an integer and of a decimal to
the nearest number of the format; a value midway between two neighbours goes to the one with the
even significand.

Everything is computed exactly in `Nat` and `Int` and rounded once. The quotient is scaled by a
power of two so that its integer part has 53 bits, or fewer at the low end of the format, where the
scale stops at `2 ^ 1074`. The scaled integer and the scale together are the rank.
-/

namespace Scriptlet

/-- A decimal number: `digits * 10 ^ exponent`. -/
structure Decimal where
  digits : Nat
  exponent : Int
  deriving Repr, DecidableEq

namespace Decimal

/-- The integer nearest to `num / den`; a half goes to the even neighbour. -/
def roundQuotient (num den : Nat) : Nat :=
  let q := num / den
  let twice := 2 * (num % den)
  if twice < den then q else if den < twice then q + 1 else q + q % 2

/-- The power of two that scales `num / den` to 53 bits, but none below `2 ^ (-1074)`. -/
def scaleExponent (num den : Nat) : Int :=
  let q : Int := (num.log2 : Int) - den.log2 - 52
  let short := num * Nat.pow 2 (-q).toNat < den * Nat.pow 2 q.toNat * significandCount
  max (if short then q - 1 else q) (-1074)

/-- The rank of the binary64 number nearest to `num / den`. -/
def nearestRank (num den : Nat) : Nat :=
  if num = 0 then 0
  else
    let q := scaleExponent num den
    let m := roundQuotient (num * Nat.pow 2 (-q).toNat) (den * Nat.pow 2 q.toNat)
    min infinityRank ((q + 1074).toNat * significandCount + m)

/-- The binary64 number nearest to an integer. -/
def ofInt (n : Int) : Float :=
  ofRank (decide (n < 0)) (nearestRank n.natAbs 1)

/-- The rank of the binary64 number nearest to a decimal.

A positive decimal of exponent above 400 is beyond the format, and one below `2 ^ (-1075)` is nearer
to zero than to the least subnormal; both are decided without computing the power of ten. -/
def rank (d : Decimal) : Nat :=
  if d.digits = 0 then 0
  else if 400 < d.exponent then infinityRank
  else if (d.digits.log2 : Int) + 1 + 3 * d.exponent < -1075 then 0
  else nearestRank (d.digits * Nat.pow 10 d.exponent.toNat) (Nat.pow 10 (-d.exponent).toNat)

end Decimal

end Scriptlet
