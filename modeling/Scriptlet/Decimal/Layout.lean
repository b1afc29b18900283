import Scriptlet.Decimal.Shortest

/-!
# Scriptlet.Decimal.Layout

**The text of a binary64 number.** Which digits are written is decided by
`Scriptlet.Decimal.Shortest`; this module decides how they are laid out. The choices are one record,
`FloatLayout`, with one value, `FloatLayout.plain`: numbers from `0.0001` up to `10 ^ 16` are
written positionally and keep a digit after the point, all others in scientific form with as few
characters as possible.
-/

namespace Scriptlet.Decimal

/-- How the digits of a number are laid out. -/
structure FloatLayout where
  /-- The least decimal exponent that is written positionally. -/
  leastPositional : Int
  /-- The greatest decimal exponent that is written positionally. -/
  mostPositional : Int
  /-- The character before the exponent in scientific form. -/
  mark : Char
  /-- The texts of infinity and of a NaN. -/
  infinity : String
  nan : String

/-- Positional from `1e-4` to below `1e16`; otherwise `d.ddde±x` without a sign for positive `x`. -/
def FloatLayout.plain : FloatLayout :=
  ⟨-4, 15, 'e', "inf", "NaN"⟩

/-- The digits `ds` with a point after the first `p` of them; zeros fill up on either side and at
least one digit stands on each. -/
def positional (ds : List Char) (p : Int) : List Char :=
  if p ≤ 0 then '0' :: '.' :: List.replicate (-p).toNat '0' ++ ds
  else if (ds.length : Int) ≤ p then
    ds ++ List.replicate (p.toNat - ds.length) '0' ++ ['.', '0']
  else ds.take p.toNat ++ '.' :: ds.drop p.toNat

/-- The digits `ds` with a point after the first, if more follow, and the decimal exponent `e`. -/
def scientific (mark : Char) (ds : List Char) (e : Int) : List Char :=
  let fraction := if ds.length ≤ 1 then [] else '.' :: ds.drop 1
  let exponent := if e < 0 then '-' :: Nat.toDigits 10 e.natAbs else Nat.toDigits 10 e.natAbs
  ds.take 1 ++ fraction ++ mark :: exponent

/-- A non-negative decimal in the given layout. -/
def FloatLayout.magnitude (l : FloatLayout) (d : Decimal) : List Char :=
  let ds := Nat.toDigits 10 d.digits
  let e := (ds.length : Int) - 1 + d.exponent
  if d.digits = 0 ∨ (l.leastPositional ≤ e ∧ e ≤ l.mostPositional) then positional ds (e + 1)
  else scientific l.mark ds e

/-- The text of a number in the given layout. -/
def FloatLayout.text (l : FloatLayout) (x : Float) : String :=
  match magnitudeRank? x with
  | none => l.nan
  | some r =>
    let digits := if r = infinityRank then l.infinity.toList else l.magnitude (shortest r)
    String.ofList (if isNegative x then '-' :: digits else digits)

/-- The text of a float, as values show it and as programs write it. -/
def floatText (x : Float) : String :=
  FloatLayout.plain.text x

end Scriptlet.Decimal
