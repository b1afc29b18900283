import Mathlib.Algebra.Group.Nat.Defs
import Scriptlet.Decimal.Numeral
import Scriptlet.Proofs.Token.Regex

/-!
# Scriptlet.Proofs.Decimal.Numeral

**Reading numerals.** What reading gives for a numeral that is put together from runs of digits, and
the two directions for integers: the text of an integer that is not negative reads back, and a run
of digits never reads as a negative one.
-/

namespace Scriptlet.Decimal

/-! ### Runs of digits -/

theorem digits_toDigits (n : Nat) : Regex.digits.Matches (Nat.toDigits 10 n) :=
  Regex.matches_digits.2 ⟨Nat.toDigits_ne_nil,
    fun _ hc => Nat.isDigit_of_mem_toDigits (by decide) (by decide) hc⟩

theorem digitsValue_toDigits (n : Nat) : digitsValue (Nat.toDigits 10 n) = n := by
  rw [digitsValue_eq, Nat.ofDigitChars_ten_toDigits]

/-- Zeros in front of a run of digits do not count. -/
theorem digitsValue_zeros_append (n : Nat) (ds : List Char) :
    digitsValue (List.replicate n '0' ++ ds) = digitsValue ds := by
  rw [digitsValue_eq, digitsValue_eq, Nat.ofDigitChars_append, Nat.ofDigitChars_replicate_zero,
    Nat.mul_zero]

theorem digitsValue_append_zeros (ds : List Char) (n : Nat) :
    digitsValue (ds ++ List.replicate n '0') = digitsValue ds * 10 ^ n := by
  rw [digitsValue_eq, digitsValue_eq, Nat.ofDigitChars_append, Nat.ofDigitChars_replicate_zero,
    Nat.mul_comm]

/-- A run of digits has no sign. -/
theorem splitSign_cons {c : Char} (hc : c.isDigit ∨ c = '.') (cs : List Char) :
    splitSign (c :: cs) = (false, c :: cs) := by
  unfold splitSign
  split
  · rename_i heq
    cases heq
    simp at hc
  · rename_i heq
    cases heq
    simp at hc
  · rfl

theorem splitSign_digits {ds : List Char} (h : Regex.digits.Matches ds) :
    splitSign ds = (false, ds) := by
  obtain ⟨hne, hdig⟩ := Regex.matches_digits.1 h
  obtain ⟨c, cs, rfl⟩ := List.exists_cons_of_ne_nil hne
  exact splitSign_cons (.inl (hdig c (by simp))) cs

/-! ### Integers -/

theorem readInt?_digits {ds : List Char} (h : Regex.digits.Matches ds) :
    readInt? ds = some (digitsValue ds : Int) := by
  obtain ⟨hne, hdig⟩ := Regex.matches_digits.1 h
  rw [readInt?, splitSign_digits h]
  have hread : readNat? ds = some (digitsValue ds) := if_pos ⟨hne, List.all_eq_true.2 hdig⟩
  simp only [hread]
  rfl

/-- The text of an integer that is not negative is a run of digits. -/
theorem toList_toString_nonneg {n : Int} (h : 0 ≤ n) :
    (toString n).toList = Nat.toDigits 10 n.toNat := by
  obtain ⟨m, rfl⟩ := Int.eq_ofNat_of_zero_le h
  exact Nat.toList_repr

/-- The sign of an integer is written in front of its magnitude. -/
theorem toString_eq_sign (n : Int) :
    toString n = (if n < 0 then "-" else "") ++ toString (n.natAbs : Int) := by
  cases n with
  | ofNat m => exact (String.empty_append).symm
  | negSucc m =>
    rw [if_pos (Int.negSucc_lt_zero m)]
    rfl

theorem readInt64?_toString {n : Int64} (h : 0 ≤ n.toInt) :
    readInt64? (toString n.toInt) = some n := by
  have hlow := n.le_toInt
  have hhigh := n.toInt_lt
  rw [readInt64?, toList_toString_nonneg h, readInt?_digits (digits_toDigits _),
    digitsValue_toDigits, Int.toNat_of_nonneg h, Option.bind_some, int64?, if_pos (by omega),
    Int64.ofInt_toInt]

/-- A run of digits that reads as an integer of 64 bits reads as one that is not negative. -/
theorem nonneg_of_readInt64? {s : String} {n : Int64} (hs : Regex.digits.Matches s.toList)
    (h : readInt64? s = some n) : 0 ≤ n.toInt := by
  rw [readInt64?, readInt?_digits hs, Option.bind_some, int64?] at h
  split at h
  · rename_i hrange
    cases h
    rw [Int64.toInt_ofInt_of_le (by omega) (by omega)]
    exact Int.natCast_nonneg _
  · cases h

/-! ### Decimals -/

theorem takeWhile_digits {w rest : List Char} (hw : ∀ c ∈ w, c.isDigit)
    (hrest : ∀ c ∈ rest.head?, ¬c.isDigit) :
    (w ++ rest).takeWhile Char.isDigit = w ∧ (w ++ rest).dropWhile Char.isDigit = rest := by
  rw [List.takeWhile_append_of_pos hw, List.dropWhile_append_of_pos hw]
  cases rest with
  | nil => simp
  | cons c rest =>
    have hc : ¬c.isDigit := hrest c rfl
    rw [List.takeWhile_cons_of_neg hc, List.dropWhile_cons_of_neg hc, List.append_nil]
    exact ⟨rfl, rfl⟩

/-- The whole part and the fraction of a numeral are read as one run of digits. -/
theorem readDecimal?_point {w f t : List Char} (hw : ∀ c ∈ w, c.isDigit) (hne : w ≠ [])
    (hf : ∀ c ∈ f, c.isDigit) (ht : ∀ c ∈ t.head?, ¬c.isDigit) :
    readDecimal? (w ++ '.' :: (f ++ t)) =
      (readExponent? t).map fun e => ⟨digitsValue (w ++ f), e - f.length⟩ := by
  have hpoint : ∀ c ∈ ('.' :: (f ++ t)).head?, ¬c.isDigit := by
    rintro c ⟨⟩
    decide
  obtain ⟨htake, hdrop⟩ := takeWhile_digits hw hpoint
  obtain ⟨htake', hdrop'⟩ := takeWhile_digits hf ht
  rw [readDecimal?]
  simp only [htake, hdrop, htake', hdrop']
  exact if_neg fun h => hne (List.append_eq_nil_iff.1 h).1

theorem readDecimal?_whole {w : List Char} (hw : ∀ c ∈ w, c.isDigit) (hne : w ≠ [])
    (tail : List Char) :
    readDecimal? (w ++ 'e' :: tail) =
      (readExponent? ('e' :: tail)).map fun e => ⟨digitsValue w, e⟩ := by
  have hmark : ∀ c ∈ ('e' :: tail).head?, ¬c.isDigit := by
    rintro c ⟨⟩
    decide
  obtain ⟨htake, hdrop⟩ := takeWhile_digits hw hmark
  rw [readDecimal?]
  simp only [htake, hdrop]
  change (if w ++ [] = [] then none else (readExponent? ('e' :: tail)).map fun e =>
    (⟨digitsValue (w ++ []), e - (0 : Nat)⟩ : Decimal)) = _
  simp only [List.append_nil, if_neg hne, Int.natCast_zero, Int.sub_zero]

/-- The text of a small exponent reads back. -/
theorem readExponent?_text {e : Int} (h : e.natAbs < exponentCap) :
    readExponent? ('e' :: if e < 0 then '-' :: Nat.toDigits 10 e.natAbs
      else Nat.toDigits 10 e.natAbs) = some e := by
  have hdigits := digits_toDigits e.natAbs
  obtain ⟨hne, hdig⟩ := Regex.matches_digits.1 hdigits
  have hvalue : readCapped 0 (Nat.toDigits 10 e.natAbs) = e.natAbs := by
    have hnat := Nat.ofDigitChars_ten_toDigits (n := e.natAbs)
    rw [readCapped_eq_of_lt (by omega), hnat]
  have hall : Nat.toDigits 10 e.natAbs ≠ [] ∧ (Nat.toDigits 10 e.natAbs).all Char.isDigit :=
    ⟨hne, List.all_eq_true.2 hdig⟩
  rw [readExponent?, if_pos (.inl rfl), readExponentValue?]
  by_cases hneg : e < 0
  · simp only [if_pos hneg, splitSign, if_pos hall, hvalue, if_true]
    congr 1
    omega
  · simp only [if_neg hneg, splitSign_digits hdigits, if_pos hall, hvalue, Bool.false_eq_true,
      if_false]
    congr 1
    omega

end Scriptlet.Decimal
