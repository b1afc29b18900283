/-!
# Scriptlet.Decimal.Rank

**Ranks of binary64 numbers.** A binary64 number that is not a NaN is fixed by its sign and by the
position of its magnitude among the non-negative numbers of the format: zero has rank 0, the least
subnormal rank 1, and so on up to infinity, which comes last. This module moves between a `Float`,
its rank and the exact value that a rank stands for.

Ranks carry the order: of two numbers the one with the larger signed rank is the larger, and the two
zeros have the same signed rank. Comparison is defined through them, so its laws are laws of `Int`.
-/

namespace Scriptlet.Decimal

/-- The weight of the sign bit. -/
def signWeight : Nat := 0x8000000000000000

/-- The number of significands of a normal number. -/
def significandCount : Nat := 0x10000000000000

/-- The rank of infinity; the finite magnitudes have the ranks below it. -/
def infinityRank : Nat := 0x7FF0000000000000

/-- Whether the sign bit is set, which it also is for the negative zero. -/
def isNegative (x : Float) : Bool :=
  decide (signWeight ≤ x.toBits.toNat)

/-- The rank of the magnitude of `x`, or `none` for a NaN. -/
def magnitudeRank? (x : Float) : Option Nat :=
  let r := x.toBits.toNat % signWeight
  if r ≤ infinityRank then some r else none

/-- The rank of `x` with its sign, or `none` for a NaN. -/
def signedRank? (x : Float) : Option Int :=
  (magnitudeRank? x).map fun r => if isNegative x then -(r : Int) else r

/-- The number with the given sign and rank. -/
def ofRank (negative : Bool) (r : Nat) : Float :=
  Float.ofBits (UInt64.ofNat (if negative then signWeight + r else r))

/-- How two numbers are ordered; a NaN is ordered with nothing. -/
def order? (x y : Float) : Option Ordering :=
  match signedRank? x, signedRank? y with
  | some a, some b => some (compare a b)
  | _, _ => none

/-- Equality of numbers: the two zeros are equal and a NaN equals nothing. -/
def sameNumber (x y : Float) : Bool :=
  order? x y == some .eq

/-- Whether `x` is neither infinite nor a NaN. -/
def isFinite (x : Float) : Bool :=
  match magnitudeRank? x with
  | some r => decide (r < infinityRank)
  | none => false

/-! ### Exact values -/

/-- The integer `m` of the value `m * 2 ^ q` of a finite rank. -/
def significand (r : Nat) : Nat :=
  if r < significandCount then r else significandCount + r % significandCount

/-- The exponent `q` of the value `m * 2 ^ q` of a finite rank. -/
def binaryExponent (r : Nat) : Int :=
  if r < significandCount then -1074 else (r / significandCount : Nat) - 1075

/-- The numerator of the exact value of a finite rank over `denominator r`. -/
def numerator (r : Nat) : Nat :=
  significand r * Nat.pow 2 (binaryExponent r).toNat

/-- The denominator of the exact value of a finite rank, a power of two. -/
def denominator (r : Nat) : Nat :=
  Nat.pow 2 (-binaryExponent r).toNat

end Scriptlet.Decimal
