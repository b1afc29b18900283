import Scriptlet.Decimal.Digits
import Scriptlet.Decimal.Nearest

/-!
# Scriptlet.Decimal.Numeral

**Numerals.** Reading of written numbers: integers in the range of 64 bits, and floats, which must
be finite. A numeral may carry a sign; the token classes never give it one, but a token list need
not come from a text.
-/

namespace Scriptlet.Decimal

/-- A sign in front of a numeral, and the rest; `true` stands for a minus. -/
def splitSign : List Char → Bool × List Char
  | '-' :: rest => (true, rest)
  | '+' :: rest => (false, rest)
  | cs => (false, cs)

/-- The value of a non-empty run of decimal digits. -/
def readNat? (cs : List Char) : Option Nat :=
  if cs ≠ [] ∧ cs.all Char.isDigit then some (digitsValue cs) else none

/-- A numeral with an optional sign. -/
def readInt? (cs : List Char) : Option Int :=
  let (negative, rest) := splitSign cs
  (readNat? rest).map fun n => if negative then -(n : Int) else n

/-- The 64-bit integer of that value, if there is one. -/
def int64? (n : Int) : Option Int64 :=
  if -9223372036854775808 ≤ n ∧ n ≤ 9223372036854775807 then some (Int64.ofInt n) else none

/-- Reads an integer numeral in the range of 64 bits. -/
def readInt64? (s : String) : Option Int64 :=
  (readInt? s.toList).bind int64?

/-- An exponent of this magnitude or more takes no further digits. -/
def exponentCap : Nat := 65536

/-- Goes on reading the digits of an exponent after those that gave `n`. Once the cap is reached the
digits that are left do not count, so a written exponent means less than ten times the cap. -/
def readCapped (n : Nat) : List Char → Nat
  | [] => n
  | c :: rest => readCapped (if n < exponentCap then 10 * n + (c.toNat - '0'.toNat) else n) rest

/-- Below the cap the digits of an exponent are read like those of any number. -/
theorem readCapped_eq_of_lt {n : Nat} {cs : List Char}
    (h : Nat.ofDigitChars 10 cs n < exponentCap) : readCapped n cs = Nat.ofDigitChars 10 cs n := by
  induction cs generalizing n with
  | nil => rfl
  | cons c rest ih =>
    rw [Nat.ofDigitChars_cons] at h ⊢
    have hle := le_ofDigitChars (10 * n + (c.toNat - '0'.toNat)) rest
    rw [readCapped, if_pos (by omega), ih h]

/-- The value of an exponent: digits after an optional sign. -/
def readExponentValue? (cs : List Char) : Option Int :=
  let (negative, digits) := splitSign cs
  if digits ≠ [] ∧ digits.all Char.isDigit then
    let n := readCapped 0 digits
    some (if negative then -(n : Int) else n)
  else none

/-- The exponent part of a float numeral: nothing, or a mark and an exponent. -/
def readExponent? : List Char → Option Int
  | [] => some 0
  | c :: rest => if c = 'e' ∨ c = 'E' then readExponentValue? rest else none

/-- Reads digits, an optional point with further digits, and an optional exponent. There must be a
digit before or after the point. -/
def readDecimal? (cs : List Char) : Option Decimal :=
  let whole := cs.takeWhile Char.isDigit
  let afterWhole := cs.dropWhile Char.isDigit
  let (fraction, tail) :=
    match afterWhole with
    | '.' :: rest => (rest.takeWhile Char.isDigit, rest.dropWhile Char.isDigit)
    | _ => ([], afterWhole)
  if whole ++ fraction = [] then none
  else
    (readExponent? tail).map fun e =>
      ⟨digitsValue (whole ++ fraction), e - fraction.length⟩

/-- Reads a float numeral whose nearest number is finite. -/
def readFloat? (s : String) : Option Float :=
  let (negative, rest) := splitSign s.toList
  match readDecimal? rest with
  | some d => if d.rank < infinityRank then some (ofRank negative d.rank) else none
  | none => none

end Scriptlet.Decimal
