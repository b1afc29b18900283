import Scriptlet.Decimal.Nearest

/-!
# Scriptlet.Decimal.Shortest

**The shortest decimal of a binary64 number.** Among the decimals that read back as a given number,
`shortest` picks one with the fewest digits and, of those, the one nearest to the number; if two are
equally near, the larger.

The decimals with a fixed last place `10 ^ k` form a grid. Only the two grid points around the
number need a test, because the decimals that read back form an interval around it. The search goes
from coarse grids to fine ones and takes the first hit. Seventeen digits always suffice; the exact
decimal value of the number stands behind the search all the same, so that the result reads back by
construction.
-/

namespace Scriptlet.Decimal

/-- The exact decimal value of a finite rank. -/
def exactDecimal (r : Nat) : Decimal :=
  let q := binaryExponent r
  if q < 0 then ⟨significand r * Nat.pow 5 (-q).toNat, q⟩
  else ⟨significand r * Nat.pow 2 q.toNat, 0⟩

/-- The point of the grid of step `10 ^ k` that reads back as rank `r`, if there is one. -/
def gridPoint? (r : Nat) (k : Int) : Option Nat :=
  let num := numerator r * Nat.pow 10 (-k).toNat
  let den := denominator r * Nat.pow 10 k.toNat
  let below := num / den
  let above := below + 1
  match decide (Decimal.rank ⟨below, k⟩ = r), decide (Decimal.rank ⟨above, k⟩ = r) with
  | true, true => some (if 2 * (num % den) < den then below else above)
  | true, false => some below
  | false, true => some above
  | false, false => none

/-- The first grid, from `10 ^ k` down, with a point that reads back as rank `r`. -/
def searchGrids (r : Nat) : Nat → Int → Option Decimal
  | 0, _ => none
  | n + 1, k =>
    match gridPoint? r k with
    | some digits => some ⟨digits, k⟩
    | none => searchGrids r n (k - 1)

/-- A power of ten above the value of a rank, and not far above it. -/
def coarsestGrid (r : Nat) : Int :=
  (((numerator r).log2 : Int) - (denominator r).log2 + 1) * 30103 / 100000 + 2

/-- The shortest decimal that reads back as the finite rank `r`. -/
def shortest (r : Nat) : Decimal :=
  if r = 0 then ⟨0, 0⟩ else (searchGrids r 22 (coarsestGrid r)).getD (exactDecimal r)

end Scriptlet.Decimal
