import Scriptlet.Decimal.Layout
import Scriptlet.Proofs.Decimal.Bits
import Scriptlet.Proofs.Decimal.Numeral
import Scriptlet.Proofs.Decimal.Shortest
import Scriptlet.Proofs.Token.Munch

/-!
# Scriptlet.Proofs.Decimal.Layout

**The text of a float reads back.** Both layouts write a numeral of the declared class of floats,
and reading it gives a decimal of the same rank as the one that was laid out: the same digits and
exponent, except that the positional layout of a large number writes out its zeros. With the laws of
`shortest` and of float patterns, `readFloat?` undoes `floatText` on every finite number that has no
sign (`readFloat?_floatText`).
-/

namespace Scriptlet.Decimal

/-- A numeral spells a float and reads as a decimal of rank `r`. -/
structure WritesRank (cs : List Char) (r : Nat) : Prop where
  spells : Kind.float.Spells cs
  reads : ∃ d : Decimal, readDecimal? cs = some d ∧ d.rank = r

theorem WritesRank.of_point {w f : List Char} (hw : Regex.digits.Matches w)
    (hf : Regex.digits.Matches f) {d : Decimal} (hdigits : digitsValue (w ++ f) = d.digits)
    (hexponent : -(f.length : Int) = d.exponent) : WritesRank (w ++ '.' :: f) d.rank := by
  obtain ⟨hwne, hwdig⟩ := Regex.matches_digits.1 hw
  obtain ⟨-, hfdig⟩ := Regex.matches_digits.1 hf
  constructor
  · exact Kind.spells_float.2 (.inl ⟨w, '.' :: f, rfl, hw,
      Regex.matches_fraction.2 ⟨f, [], by simp, hf, .inr rfl⟩⟩)
  · have hread := readDecimal?_point hwdig hwne hfdig (t := []) (by simp)
    rw [List.append_nil] at hread
    refine ⟨d, ?_, rfl⟩
    rw [hread, readExponent?, Option.map_some, hdigits, Int.zero_sub, hexponent]

theorem digits_append {u v : List Char} (hu : ∀ c ∈ u, c.isDigit) (hv : Regex.digits.Matches v) :
    Regex.digits.Matches (u ++ v) := by
  obtain ⟨hne, hdig⟩ := Regex.matches_digits.1 hv
  refine Regex.matches_digits.2 ⟨by simp [hne], ?_⟩
  exact List.forall_mem_append.2 ⟨hu, hdig⟩

theorem isDigit_of_mem_zeros {n : Nat} {c : Char} (h : c ∈ List.replicate n '0') : c.isDigit := by
  rw [List.eq_of_mem_replicate h]
  decide

/-- The positional layout. Zeros before the digits do not count, and zeros after them move from the
exponent to the digits. -/
theorem writesRank_positional {d : Decimal} {e : Int}
    (he : e = ((Nat.toDigits 10 d.digits).length : Int) - 1 + d.exponent) (hsmall : e ≤ 400) :
    WritesRank (positional (Nat.toDigits 10 d.digits) (e + 1)) d.rank := by
  have hds := digits_toDigits d.digits
  have hvalue := digitsValue_toDigits d.digits
  obtain ⟨hne, hdig⟩ := Regex.matches_digits.1 hds
  generalize Nat.toDigits 10 d.digits = ds at *
  have hpos : 0 < ds.length := List.length_pos_iff.2 hne
  rw [positional]
  split
  · -- the point stands before all digits
    have hzeros :
        digitsValue (['0'] ++ (List.replicate (-(e + 1)).toNat '0' ++ ds)) = d.digits := by
      rw [← List.append_assoc]
      exact (digitsValue_zeros_append ((-(e + 1)).toNat + 1) ds).trans hvalue
    refine .of_point (Regex.matches_digits.2 ⟨by simp, List.forall_mem_singleton.2 rfl⟩)
      (digits_append (fun _ => isDigit_of_mem_zeros) hds) hzeros ?_
    rw [List.length_append, List.length_replicate]
    omega
  · split
    · -- the point stands after all digits and the zeros that fill up the places
      obtain ⟨n, hn⟩ : ∃ n : Nat, d.exponent = n := ⟨d.exponent.toNat, by omega⟩
      obtain ⟨digits, exponent⟩ := d
      obtain rfl : exponent = n := hn
      have hzeros : (e + 1).toNat - ds.length = n := by
        simp only at he
        omega
      rw [← rank_mul_ten_pow digits n (by simp only at he; omega), hzeros]
      have hw : Regex.digits.Matches (ds ++ List.replicate n '0') := by
        refine Regex.matches_digits.2 ⟨by simp [hne], ?_⟩
        exact List.forall_mem_append.2 ⟨hdig, fun _ => isDigit_of_mem_zeros⟩
      refine .of_point hw (Regex.matches_digits.2 ⟨by simp, List.forall_mem_singleton.2 rfl⟩) ?_ rfl
      rw [List.append_assoc, ← List.replicate_succ', digitsValue_append_zeros, hvalue]
    · -- the point stands between two digits
      rename_i hp hlen
      have htake : Regex.digits.Matches (ds.take (e + 1).toNat) := by
        refine Regex.matches_digits.2 ⟨?_, fun c hc => hdig c (List.mem_of_mem_take hc)⟩
        intro hnil
        have hlength := congrArg List.length hnil
        rw [List.length_take, List.length_nil] at hlength
        omega
      have hdrop : Regex.digits.Matches (ds.drop (e + 1).toNat) := by
        refine Regex.matches_digits.2 ⟨?_, fun c hc => hdig c (List.mem_of_mem_drop hc)⟩
        intro hnil
        have hlength := congrArg List.length hnil
        rw [List.length_drop, List.length_nil] at hlength
        omega
      refine .of_point htake hdrop (by rw [List.take_append_drop, hvalue]) ?_
      rw [List.length_drop]
      omega

/-- The exponent of the scientific layout. -/
theorem matches_exponent_text (e : Int) :
    Regex.exponent.Matches ('e' :: if e < 0 then '-' :: Nat.toDigits 10 e.natAbs
      else Nat.toDigits 10 e.natAbs) := by
  have hdigits := digits_toDigits e.natAbs
  rw [Regex.matches_exponent]
  split
  · exact ⟨'e', ['-'], _, rfl, .inl rfl, .inr (.inr rfl), hdigits⟩
  · exact ⟨'e', [], _, rfl, .inl rfl, .inl rfl, hdigits⟩

/-- The scientific layout. -/
theorem writesRank_scientific {d : Decimal} {e : Int}
    (he : e = ((Nat.toDigits 10 d.digits).length : Int) - 1 + d.exponent)
    (hcap : e.natAbs < exponentCap) :
    WritesRank (scientific 'e' (Nat.toDigits 10 d.digits) e) d.rank := by
  have hds := digits_toDigits d.digits
  have hvalue := digitsValue_toDigits d.digits
  have hexp := matches_exponent_text e
  have hread := readExponent?_text hcap
  obtain ⟨hne, hdig⟩ := Regex.matches_digits.1 hds
  generalize Nat.toDigits 10 d.digits = ds at *
  obtain ⟨c, rest, rfl⟩ := List.exists_cons_of_ne_nil hne
  have hc : Regex.digits.Matches [c] :=
    Regex.matches_digits.2 ⟨by simp, by simpa using hdig c (by simp)⟩
  cases rest with
  | nil =>
    constructor
    · exact Kind.spells_float.2 (.inr (.inr ⟨[c], _, rfl, hc, hexp⟩))
    · have h := readDecimal?_whole (w := [c]) (Regex.matches_digits.1 hc).2 (by simp)
        (if e < 0 then '-' :: Nat.toDigits 10 e.natAbs else Nat.toDigits 10 e.natAbs)
      rw [hread, Option.map_some, hvalue] at h
      refine ⟨d, h.trans ?_, rfl⟩
      simp only [List.length_cons, List.length_nil] at he
      congr 2
      omega
  | cons c' rest =>
    have hrest : Regex.digits.Matches (c' :: rest) :=
      Regex.matches_digits.2 ⟨by simp, fun x hx => hdig x (List.mem_cons_of_mem c hx)⟩
    constructor
    · exact Kind.spells_float.2 (.inl ⟨[c], _, rfl, hc,
        Regex.matches_fraction.2 ⟨c' :: rest, _, rfl, hrest, .inl hexp⟩⟩)
    · have hmark : ∀ x ∈ ('e' :: if e < 0 then '-' :: Nat.toDigits 10 e.natAbs
          else Nat.toDigits 10 e.natAbs).head?, ¬x.isDigit := by
        rintro x ⟨⟩
        decide
      have h := readDecimal?_point (Regex.matches_digits.1 hc).2 (by simp)
        (Regex.matches_digits.1 hrest).2 hmark
      rw [hread, Option.map_some, show [c] ++ c' :: rest = c :: c' :: rest from rfl, hvalue] at h
      refine ⟨d, h.trans ?_, rfl⟩
      simp only [List.length_cons] at he ⊢
      congr 2
      omega

/-- The digits of a finite number, in the layout of programs. -/
theorem writesRank_magnitude {r : Nat} (hr : r < infinityRank) :
    WritesRank (FloatLayout.plain.magnitude (shortest r)) r := by
  obtain ⟨hlen, hlow, hhigh⟩ := shortest_bounds hr
  have hpos : 0 < (Nat.toDigits 10 (shortest r).digits).length := Nat.length_toDigits_pos
  have hrank := rank_shortest hr
  simp only [FloatLayout.magnitude]
  split
  · rename_i h
    have hwrites := writesRank_positional (d := shortest r) rfl ?_
    · rwa [hrank] at hwrites
    · rcases h with hzero | ⟨-, hmost⟩
      · rw [hzero]
        simpa using hhigh
      · exact Int.le_trans hmost (by decide)
  · have hwrites := writesRank_scientific (d := shortest r) rfl ?_
    · rwa [hrank] at hwrites
    · simp only [exponentCap]
      omega

/-! ### Floats -/

/-- A finite float without a sign is written as its digits. -/
theorem toList_floatText {r : Nat} (hr : r < infinityRank) :
    (floatText (ofRank false r)).toList = FloatLayout.plain.magnitude (shortest r) := by
  simp only [floatText, FloatLayout.text, magnitudeRank?_ofRank hr, isNegative_ofRank hr,
    if_neg (Nat.ne_of_lt hr), Bool.false_eq_true, if_false, String.toList_ofList]

/-- The sign of a float is written in front of its magnitude. -/
theorem floatText_ofRank {r : Nat} (hr : r < infinityRank) (negative : Bool) :
    floatText (ofRank negative r) =
      (if negative then "-" else "") ++ floatText (ofRank false r) := by
  apply String.toList_injective
  simp only [floatText, FloatLayout.text, magnitudeRank?_ofRank hr, isNegative_ofRank hr,
    if_neg (Nat.ne_of_lt hr)]
  cases negative <;> simp

theorem spells_floatText {r : Nat} (hr : r < infinityRank) :
    Kind.float.Spells (floatText (ofRank false r)).toList := by
  rw [toList_floatText hr]
  exact (writesRank_magnitude hr).spells

/-- A lexeme of the class of floats has no sign. -/
theorem splitSign_float {cs : List Char} (h : Kind.float.Spells cs) :
    splitSign cs = (false, cs) := by
  obtain ⟨c, u, rfl, hc, -⟩ := exists_of_spells_float h
  exact splitSign_cons hc u

/-- **The text of a float reads back** as the float. -/
theorem readFloat?_floatText {r : Nat} (hr : r < infinityRank) :
    readFloat? (floatText (ofRank false r)) = some (ofRank false r) := by
  obtain ⟨d, hread, hrank⟩ := (writesRank_magnitude hr).reads
  rw [← toList_floatText hr] at hread
  rw [readFloat?, splitSign_float (spells_floatText hr)]
  simp only [hread, hrank, if_pos hr]

/-- What a lexeme of the class of floats reads as is finite and has no sign. -/
theorem exists_rank_of_readFloat? {s : String} {x : Float} (hs : Kind.float.Spells s.toList)
    (h : readFloat? s = some x) : ∃ r < infinityRank, x = ofRank false r := by
  rw [readFloat?, splitSign_float hs] at h
  simp only at h
  split at h
  · rename_i d _
    split at h
    · rename_i hr
      cases h
      exact ⟨d.rank, hr, rfl⟩
    · cases h
  · cases h

end Scriptlet.Decimal
