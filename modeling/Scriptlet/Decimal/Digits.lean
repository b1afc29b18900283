/-!
# Scriptlet.Decimal.Digits

**Runs of digits.** The number that a run of decimal digits stands for. Going digit by digit
multiplies an ever longer number by ten, so the time grows with the square of the length. A long run
is therefore cut in half, and the numbers of the two halves are put together; that this gives the
same number is `digitsValue_eq`.
-/

namespace Scriptlet.Decimal

/-- Runs up to this length are read digit by digit. -/
def shortRun : Nat := 64

/-- The number of a run of digits that is cut in half, and its halves again, until they are short or
have been cut `depth` times. -/
def valueByHalves : Nat → List Char → Nat
  | 0, cs => Nat.ofDigitChars 10 cs 0
  | depth + 1, cs =>
    if cs.length ≤ shortRun then Nat.ofDigitChars 10 cs 0
    else
      let high := cs.take (cs.length / 2)
      let low := cs.drop (cs.length / 2)
      Nat.pow 10 low.length * valueByHalves depth high + valueByHalves depth low

/-- The number that a run of digits stands for. -/
def digitsValue (cs : List Char) : Nat :=
  valueByHalves cs.length cs

/-- Cutting a run in half does not change its number. -/
theorem valueByHalves_eq (depth : Nat) (cs : List Char) :
    valueByHalves depth cs = Nat.ofDigitChars 10 cs 0 := by
  induction depth generalizing cs with
  | zero => rfl
  | succ depth ih =>
    rw [valueByHalves]
    split
    · rfl
    · simp only [ih]
      conv => rhs; rw [← List.take_append_drop (cs.length / 2) cs, Nat.ofDigitChars_append]
      exact Nat.ofDigitChars_eq_ofDigitChars_zero.symm

/-- The number of a run of digits is the one that reading digit by digit gives. -/
theorem digitsValue_eq (cs : List Char) : digitsValue cs = Nat.ofDigitChars 10 cs 0 :=
  valueByHalves_eq cs.length cs

/-- Further digits never make a number smaller. -/
theorem le_ofDigitChars (n : Nat) (cs : List Char) : n ≤ Nat.ofDigitChars 10 cs n := by
  induction cs generalizing n with
  | nil => exact Nat.le_refl n
  | cons c rest ih =>
    rw [Nat.ofDigitChars_cons]
    exact Nat.le_trans (by omega) (ih _)

end Scriptlet.Decimal
