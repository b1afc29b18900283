import Mathlib.Data.List.TakeWhile
import Scriptlet.Proofs.Token.Regex

/-!
# Scriptlet.Proofs.Token.Longest

**Each length function measures its class.** For every class of lexemes, the length function of
`Scriptlet.Token.Pattern` gives the length of the longest beginning of a text that the declaration
of the class matches, and zero if it matches none. The functions read a text once and never go
back, so what has to be shown is that no longer match was given up on the way.

* Runs, names and numbers are bounded by the first character that cannot continue them.
* A literal or block comment closes in one place only, so its match is the only one.
-/

namespace Scriptlet

/-- `n` is the length of the longest beginning of `cs` that belongs to `L`, or zero if none does. -/
structure IsLongest (L : List Char → Prop) (cs : List Char) (n : Nat) : Prop where
  attained : n ≠ 0 → ∃ w, w <+: cs ∧ w.length = n ∧ L w
  bound : ∀ w, w <+: cs → L w → w.length ≤ n

namespace IsLongest

variable {L M : List Char → Prop} {cs : List Char} {n : Nat}

theorem congr (h : ∀ w, L w ↔ M w) (hL : IsLongest L cs n) : IsLongest M cs n where
  attained hn := by
    obtain ⟨w, hw, hlen, hLw⟩ := hL.attained hn
    exact ⟨w, hw, hlen, (h w).1 hLw⟩
  bound w hw hMw := hL.bound w hw ((h w).2 hMw)

/-- A class whose members at the start of a text all have length `n` has its longest one there. -/
theorem of_unique (hn : n ≠ 0 → ∃ w, w <+: cs ∧ w.length = n ∧ L w)
    (hu : ∀ w rest, cs = w ++ rest → L w → w.length = n) : IsLongest L cs n where
  attained := hn
  bound := by
    rintro w ⟨rest, rfl⟩ hw
    exact Nat.le_of_eq (hu w rest rfl hw)

end IsLongest

/-! ### Runs -/

theorem le_runLength {p : Char → Bool} {w cs : List Char} (hw : w <+: cs) (h : ∀ c ∈ w, p c) :
    w.length ≤ runLength p cs := by
  obtain ⟨rest, rfl⟩ := hw
  rw [runLength, List.takeWhile_append_of_pos h, List.length_append]
  exact Nat.le_add_right _ _

/-- A run ends before the first character outside its class. -/
theorem runLength_append {p : Char → Bool} {w rest : List Char} (h : ∀ c ∈ w, p c)
    (hrest : ∀ c ∈ rest.head?, ¬p c) : runLength p (w ++ rest) = w.length := by
  rw [runLength, List.takeWhile_append_of_pos h]
  cases rest with
  | nil => simp
  | cons c rest =>
    have hc : ¬p c := hrest c rfl
    simp [hc]

theorem isLongest_run (p : Char → Bool) (cs : List Char) :
    IsLongest (fun w => w ≠ [] ∧ ∀ c ∈ w, p c) cs (runLength p cs) where
  attained hn := by
    refine ⟨cs.takeWhile p, List.takeWhile_prefix p, rfl, ?_, fun c hc => ?_⟩
    · intro hnil
      exact hn (by rw [runLength, hnil]; rfl)
    · exact List.mem_takeWhile_imp hc
  bound w hw h := le_runLength hw h.2

theorem isLongest_digits (cs : List Char) :
    IsLongest Regex.digits.Matches cs (runLength Char.isDigit cs) :=
  (isLongest_run Char.isDigit cs).congr fun _ => Regex.matches_digits.symm

/-! ### Fixed spellings and names -/

theorem isLongest_spelling (l cs : List Char) : IsLongest (· = l) cs (spellingLength l cs) where
  attained hn := by
    rw [spellingLength] at hn ⊢
    split at hn
    · rename_i h
      exact ⟨l, List.isPrefixOf_iff_prefix.1 h, (if_pos h).symm, rfl⟩
    · exact absurd rfl hn
  bound := by
    rintro w hw rfl
    rw [spellingLength, if_pos (List.isPrefixOf_iff_prefix.2 hw)]

theorem isLongest_name (cs : List Char) : IsLongest Kind.identifier.Spells cs (nameLength cs) where
  attained hn := by
    cases cs with
    | nil => exact absurd rfl hn
    | cons c rest =>
      rw [nameLength] at hn ⊢
      split at hn
      · rename_i hc
        refine ⟨c :: rest.takeWhile isNamePart, ?_, ?_, ?_⟩
        · exact List.cons_prefix_cons.2 ⟨rfl, List.takeWhile_prefix _⟩
        · rw [if_pos hc, List.length_cons, runLength]
        · exact Kind.spells_identifier.2 ⟨c, _, rfl, hc, fun d hd => List.mem_takeWhile_imp hd⟩
      · exact absurd rfl hn
  bound := by
    intro w hw hs
    obtain ⟨c, u, rfl, hc, hu⟩ := Kind.spells_identifier.1 hs
    obtain ⟨rest, rfl⟩ := hw
    rw [List.cons_append, nameLength, if_pos hc, List.length_cons]
    exact Nat.succ_le_succ (le_runLength (List.prefix_append u rest) hu)

/-! ### Numbers -/

/-- An exponent starts with a character that is no digit, so it bounds the digits before it. -/
theorem isDigit_eq_false_of_mark {c : Char} (h : c = 'e' ∨ c = 'E') : c.isDigit = false := by
  rcases h with rfl | rfl <;> decide

/-- An exponent is measured by its mark, its sign and the run of digits after them. -/
theorem exponentLength_run {c : Char} {sign d : List Char} (hc : c = 'e' ∨ c = 'E')
    (hsign : sign = [] ∨ sign = ['+'] ∨ sign = ['-']) (hd : Regex.digits.Matches d)
    (rest : List Char) :
    exponentLength (c :: (sign ++ d) ++ rest) =
      sign.length + 1 + runLength Char.isDigit (d ++ rest) := by
  obtain ⟨hne, hdig⟩ := Regex.matches_digits.1 hd
  have hrun : runLength Char.isDigit (d ++ rest) ≠ 0 := by
    have hle := le_runLength (List.prefix_append d rest) hdig
    have hpos := List.length_pos_iff.2 hne
    omega
  have hsigned : ∀ s, s = '+' ∨ s = '-' →
      exponentLength (c :: s :: (d ++ rest)) = 2 + runLength Char.isDigit (d ++ rest) := by
    intro s hs
    simp only [exponentLength, if_pos hc, if_pos hs, if_neg hrun]
    omega
  rcases hsign with rfl | rfl | rfl
  · -- the first digit is not taken for a sign
    obtain ⟨s, d, rfl⟩ := List.exists_cons_of_ne_nil hne
    have hs : ¬(s = '+' ∨ s = '-') := by
      have hsdig : s.isDigit := hdig s (List.mem_cons_self ..)
      intro hs
      rcases hs with rfl | rfl
      · exact absurd hsdig (by decide)
      · exact absurd hsdig (by decide)
    simp only [List.cons_append] at hrun
    simp only [List.cons_append, List.nil_append, exponentLength, if_pos hc, if_neg hs, if_neg hrun,
      List.length_nil]
    omega
  · exact hsigned '+' (.inl rfl)
  · exact hsigned '-' (.inr rfl)

theorem isLongest_exponent (cs : List Char) :
    IsLongest Regex.exponent.Matches cs (exponentLength cs) where
  attained hn := by
    match cs, hn with
    | [], hn => exact absurd rfl hn
    | [c], hn =>
      rw [exponentLength] at hn
      split at hn <;> exact absurd rfl hn
    | c :: s :: rest, hn =>
      rw [exponentLength] at hn ⊢
      by_cases hc : c = 'e' ∨ c = 'E'
      · simp only [if_pos hc] at hn ⊢
        by_cases hs : s = '+' ∨ s = '-'
        · simp only [if_pos hs] at hn ⊢
          have hd : runLength Char.isDigit rest ≠ 0 := by
            intro h0
            exact hn (if_pos h0)
          obtain ⟨d, hpre, hlen, hd⟩ := (isLongest_digits rest).attained hd
          refine ⟨c :: s :: d, ?_, ?_, Regex.matches_exponent.2 ⟨c, [s], d, rfl, hc, ?_, hd⟩⟩
          · simpa using hpre
          · rw [if_neg ‹_›, ← hlen, List.length_cons, List.length_cons]
          · rcases hs with rfl | rfl <;> simp
        · simp only [if_neg hs] at hn ⊢
          have hd : runLength Char.isDigit (s :: rest) ≠ 0 := by
            intro h0
            exact hn (if_pos h0)
          obtain ⟨d, hpre, hlen, hd⟩ := (isLongest_digits (s :: rest)).attained hd
          refine ⟨c :: d, ?_, ?_, Regex.matches_exponent.2 ⟨c, [], d, rfl, hc, .inl rfl, hd⟩⟩
          · simpa using hpre
          · rw [if_neg ‹_›, ← hlen, List.length_cons]
      · rw [if_neg hc] at hn
        exact absurd rfl hn
  bound := by
    rintro w ⟨rest, rfl⟩ hw
    obtain ⟨c, sign, d, rfl, hc, hsign, hd⟩ := Regex.matches_exponent.1 hw
    have hle := (isLongest_digits (d ++ rest)).bound d (List.prefix_append d rest) hd
    rw [exponentLength_run hc hsign hd, List.length_cons, List.length_append]
    omega

theorem exists_exponent (cs : List Char) :
    ∃ e, e <+: cs ∧ e.length = exponentLength cs ∧ (Regex.exponent.Matches e ∨ e = []) := by
  by_cases h : exponentLength cs = 0
  · exact ⟨[], List.nil_prefix, h.symm, .inr rfl⟩
  · obtain ⟨e, hpre, hlen, he⟩ := (isLongest_exponent cs).attained h
    exact ⟨e, hpre, hlen, .inl he⟩

/-- The digits before an exponent are measured exactly. -/
theorem runLength_exponent {d e rest : List Char} (hd : ∀ c ∈ d, c.isDigit)
    (he : Regex.exponent.Matches e) : runLength Char.isDigit (d ++ (e ++ rest)) = d.length := by
  obtain ⟨mark, sign, d', rfl, hmark, -, -⟩ := Regex.matches_exponent.1 he
  refine runLength_append hd ?_
  intro c hc
  obtain rfl : mark = c := Option.some.inj hc
  simp [isDigit_eq_false_of_mark hmark]

theorem isLongest_fraction (cs : List Char) :
    IsLongest Regex.fraction.Matches cs (fractionLength cs) where
  attained hn := by
    cases cs with
    | nil => exact absurd rfl hn
    | cons c rest =>
      rw [fractionLength] at hn ⊢
      split at hn
      · rename_i h
        obtain ⟨rfl, hd⟩ := h
        obtain ⟨d, ⟨tail, rfl⟩, hlen, hdig⟩ := (isLongest_digits rest).attained hd
        rw [← hlen] at hd ⊢
        rw [List.drop_left, if_pos ⟨rfl, hd⟩]
        obtain ⟨e, hpre, helen, he⟩ := exists_exponent tail
        refine ⟨'.' :: (d ++ e), ?_, ?_, Regex.matches_fraction.2 ⟨d, e, rfl, hdig, he⟩⟩
        · exact List.cons_prefix_cons.2 ⟨rfl, (List.prefix_append_right_inj d).2 hpre⟩
        · rw [← helen, List.length_cons, List.length_append]
          omega
      · exact absurd rfl hn
  bound := by
    rintro w ⟨rest, rfl⟩ hw
    obtain ⟨d, e, rfl, hd, he⟩ := Regex.matches_fraction.1 hw
    obtain ⟨hne, hdig⟩ := Regex.matches_digits.1 hd
    have hpos : 0 < d.length := List.length_pos_iff.2 hne
    simp only [List.cons_append, List.append_assoc, fractionLength, true_and]
    rcases he with he | rfl
    · rw [runLength_exponent hdig he, List.drop_left, if_pos (by omega)]
      have hle := (isLongest_exponent (e ++ rest)).bound e (List.prefix_append e rest) he
      simp only [List.length_cons, List.length_append]
      omega
    · have hle := le_runLength (List.prefix_append d ([] ++ rest)) hdig
      rw [if_pos (by omega), List.append_nil, List.length_cons]
      omega

/-- A float is measured after the digits that it starts with. -/
theorem floatLength_append {d rest : List Char} (hd : ∀ c ∈ d, c.isDigit)
    (hrest : ∀ c ∈ rest.head?, ¬c.isDigit) :
    floatLength (d ++ rest) =
      if fractionLength rest ≠ 0 then d.length + fractionLength rest
      else if d.length = 0 then 0
      else if exponentLength rest = 0 then 0
      else d.length + exponentLength rest := by
  rw [floatLength, runLength_append hd hrest, List.drop_left]

/-- Every text is a run of digits followed by something that starts with no digit. -/
theorem exists_digits_append (cs : List Char) :
    ∃ d rest, cs = d ++ rest ∧ (∀ c ∈ d, c.isDigit) ∧ ∀ c ∈ rest.head?, ¬c.isDigit := by
  refine ⟨cs.takeWhile Char.isDigit, cs.dropWhile Char.isDigit,
    (List.takeWhile_append_dropWhile).symm, fun c hc => List.mem_takeWhile_imp hc, ?_⟩
  intro c hc
  have hstop := List.head?_dropWhile_not Char.isDigit cs
  rw [hc] at hstop
  simpa using hstop

/-- Digits and a fraction: only the fraction is left to measure. -/
theorem floatLength_fraction {d f : List Char} (hd : ∀ c ∈ d, c.isDigit)
    (hf : Regex.fraction.Matches f) (rest : List Char) :
    floatLength (d ++ (f ++ rest)) = d.length + fractionLength (f ++ rest) := by
  have hle := (isLongest_fraction (f ++ rest)).bound f (List.prefix_append f rest) hf
  obtain ⟨d', e, rfl, -, -⟩ := Regex.matches_fraction.1 hf
  have hpoint : ∀ c ∈ ('.' :: (d' ++ e) ++ rest).head?, ¬c.isDigit := by
    intro c hc
    obtain rfl : '.' = c := Option.some.inj hc
    decide
  rw [List.length_cons] at hle
  rw [floatLength_append hd hpoint, if_pos (by omega)]

/-- Digits and an exponent: only the exponent is left to measure, as it starts with no point. -/
theorem floatLength_exponent {d e : List Char} (hd : Regex.digits.Matches d)
    (he : Regex.exponent.Matches e) (rest : List Char) :
    floatLength (d ++ (e ++ rest)) = d.length + exponentLength (e ++ rest) := by
  obtain ⟨hne, hdig⟩ := Regex.matches_digits.1 hd
  have hd0 : d.length ≠ 0 := fun h => hne (List.length_eq_zero_iff.1 h)
  have hle := (isLongest_exponent (e ++ rest)).bound e (List.prefix_append e rest) he
  have hrun : runLength Char.isDigit (d ++ (e ++ rest)) = d.length := runLength_exponent hdig he
  obtain ⟨mark, sign, d', rfl, hmark, -, -⟩ := Regex.matches_exponent.1 he
  have hfraction : fractionLength (mark :: (sign ++ d') ++ rest) = 0 := by
    rw [List.cons_append, fractionLength, if_neg]
    intro h
    obtain ⟨rfl, -⟩ := h
    simp at hmark
  rw [List.length_cons] at hle
  rw [floatLength, hrun, List.drop_left, hfraction, if_neg (by omega), if_neg hd0,
    if_neg (by omega)]

theorem isLongest_float (cs : List Char) : IsLongest Kind.float.Spells cs (floatLength cs) where
  attained hn := by
    obtain ⟨d, rest, rfl, hd, hrest⟩ := exists_digits_append cs
    rw [floatLength_append hd hrest] at hn ⊢
    by_cases hf : fractionLength rest = 0
    · simp only [hf, ne_eq, not_true_eq_false, if_false] at hn ⊢
      by_cases hd0 : d.length = 0
      · exact absurd (if_pos hd0) hn
      · simp only [if_neg hd0] at hn ⊢
        have he0 : exponentLength rest ≠ 0 := fun h => hn (if_pos h)
        obtain ⟨e, hpre, hlen, he⟩ := (isLongest_exponent rest).attained he0
        have hdm : Regex.digits.Matches d :=
          Regex.matches_digits.2 ⟨fun h => hd0 (List.length_eq_zero_iff.2 h), hd⟩
        refine ⟨d ++ e, (List.prefix_append_right_inj d).2 hpre, ?_,
          Kind.spells_float.2 (.inr (.inr ⟨d, e, rfl, hdm, he⟩))⟩
        rw [if_neg he0, List.length_append, hlen]
    · obtain ⟨f, hpre, hlen, hfm⟩ := (isLongest_fraction rest).attained hf
      refine ⟨d ++ f, (List.prefix_append_right_inj d).2 hpre, ?_, Kind.spells_float.2 ?_⟩
      · rw [if_pos hf, List.length_append, hlen]
      · -- without digits before the point the fraction alone is the float
        by_cases hd0 : d = []
        · subst hd0
          exact .inr (.inl hfm)
        · exact .inl ⟨d, f, rfl, Regex.matches_digits.2 ⟨hd0, hd⟩, hfm⟩
  bound := by
    rintro w ⟨rest, rfl⟩ hw
    have hfraction : ∀ d f : List Char, (∀ c ∈ d, c.isDigit) → Regex.fraction.Matches f →
        (d ++ f).length ≤ floatLength (d ++ (f ++ rest)) := by
      intro d f hd hf
      have hle := (isLongest_fraction (f ++ rest)).bound f (List.prefix_append f rest) hf
      rw [floatLength_fraction hd hf, List.length_append]
      omega
    rcases Kind.spells_float.1 hw with ⟨d, f, rfl, hd, hf⟩ | hf | ⟨d, e, rfl, hd, he⟩
    · rw [List.append_assoc]
      exact hfraction d f (Regex.matches_digits.1 hd).2 hf
    · exact hfraction [] w (by simp) hf
    · have hle := (isLongest_exponent (e ++ rest)).bound e (List.prefix_append e rest) he
      rw [List.append_assoc, floatLength_exponent hd he, List.length_append]
      omega

/-! ### Literals -/

theorem stringTailLength_cons {c : Char} (n : Nat) (tail : List Char) (hquote : c ≠ '"')
    (hback : c ≠ '\\') (hline : c ≠ '\n') :
    stringTailLength n (c :: tail) = stringTailLength (n + 1) tail := by
  rw [stringTailLength.eq_6]
  · exact hquote
  · exact hline
  · exact fun h => absurd h hback
  · exact fun _ _ h => absurd h hback

/-- Reading the inside of a literal arrives at its closing quote. -/
theorem stringTailLength_append {u : List Char} (n : Nat) (rest : List Char)
    (hu : (Regex.star (Regex.quotedChar '"')).Matches u) :
    stringTailLength n (u ++ '"' :: rest) = n + u.length + 1 := by
  generalize hr : Regex.star (Regex.quotedChar '"') = r at hu
  induction hu generalizing n with
  | nil => simp [stringTailLength]
  | @cons r u v hc _ _ ih =>
    cases hr
    rcases Regex.matches_quotedChar.1 hc with ⟨c, rfl, hquote, hback, hline⟩ | ⟨c, rfl, hline⟩
    · rw [List.append_assoc, List.singleton_append,
        stringTailLength_cons n _ hquote hback hline, ih _ rfl]
      simp only [List.length_append, List.length_singleton]
      omega
    · simp only [List.cons_append, List.nil_append, stringTailLength, if_neg hline, ih _ rfl,
        List.length_cons]
      omega
  | _ => cases hr

/-- What closes a literal is a quote after quoted characters. -/
theorem exists_of_stringTailLength_ne_zero {n : Nat} {cs : List Char}
    (h : stringTailLength n cs ≠ 0) :
    ∃ u rest, cs = u ++ '"' :: rest ∧ (Regex.star (Regex.quotedChar '"')).Matches u := by
  fun_induction stringTailLength n cs with
  | case1 => exact absurd rfl h
  | case2 n rest => exact ⟨[], rest, rfl, .nil⟩
  | case3 => exact absurd rfl h
  | case4 => exact absurd rfl h
  | case5 => exact absurd rfl h
  | case6 n c rest hc ih =>
    obtain ⟨u, tail, rfl, hu⟩ := ih h
    exact ⟨['\\', c] ++ u, tail, rfl,
      .cons (Regex.matches_quotedChar.2 (.inr ⟨c, rfl, hc⟩)) hu⟩
  | case7 n c rest hquote hline hend hback ih =>
    -- a backslash is neither the last character nor before another one, so this is none
    have hc : c ≠ '\\' := by
      cases rest with
      | nil => exact fun h => hend h rfl
      | cons d rest => exact fun h => hback d rest h rfl
    obtain ⟨u, tail, rfl, hu⟩ := ih h
    exact ⟨[c] ++ u, tail, rfl,
      .cons (Regex.matches_quotedChar.2 (.inl ⟨c, rfl, hquote, hc, hline⟩)) hu⟩

theorem isLongest_string (cs : List Char) : IsLongest Kind.str.Spells cs (stringLength cs) := by
  refine .of_unique ?_ ?_
  · intro hn
    unfold stringLength at hn ⊢
    split at hn
    · rename_i rest
      obtain ⟨u, tail, rfl, hu⟩ := exists_of_stringTailLength_ne_zero hn
      refine ⟨'"' :: (u ++ ['"']), ⟨tail, by simp⟩, ?_, Kind.spells_str.2 ⟨u, rfl, hu⟩⟩
      simp only [stringTailLength_append 1 tail hu, List.length_cons, List.length_append,
        List.length_nil]
      omega
    · exact absurd rfl hn
  · intro w rest hcs hw
    obtain ⟨u, rfl, hu⟩ := Kind.spells_str.1 hw
    subst hcs
    have htail : stringLength ('"' :: (u ++ ['"']) ++ rest) = 1 + u.length + 1 := by
      simpa [stringLength] using stringTailLength_append 1 rest hu
    rw [htail, List.length_cons, List.length_append, List.length_singleton]
    omega

/-- A character literal is measured exactly, whatever follows. -/
theorem charLength_append {w : List Char} (hw : Kind.char.Spells w) (rest : List Char) :
    charLength (w ++ rest) = w.length := by
  obtain ⟨u, rfl, hu⟩ := Kind.spells_char.1 hw
  rcases Regex.matches_quotedChar.1 hu with ⟨c, rfl, hquote, hback, hline⟩ | ⟨c, rfl, hline⟩
  · simp only [List.cons_append, List.nil_append, List.length_cons, List.length_nil]
    rw [charLength.eq_2 c rest]
    · rw [if_neg (by simp [hquote, hback, hline])]
    · exact fun _ h => absurd h hback
  · simp only [List.cons_append, List.nil_append, List.length_cons, List.length_nil, charLength,
      if_neg hline]

theorem isLongest_char (cs : List Char) : IsLongest Kind.char.Spells cs (charLength cs) := by
  refine .of_unique ?_ ?_
  · intro hn
    unfold charLength at hn ⊢
    split at hn
    · rename_i c tail
      have hc : c ≠ '\n' := fun h => hn (if_pos h)
      refine ⟨['\'', '\\', c, '\''], ⟨tail, rfl⟩, (if_neg hc).symm, ?_⟩
      exact Kind.spells_char.2 ⟨['\\', c], rfl, Regex.matches_quotedChar.2 (.inr ⟨c, rfl, hc⟩)⟩
    · rename_i c tail _
      have hc : ¬(c = '\'' ∨ c = '\\' ∨ c = '\n') := fun h => hn (if_pos h)
      refine ⟨['\'', c, '\''], ⟨tail, rfl⟩, (if_neg hc).symm, ?_⟩
      simp only [not_or] at hc
      exact Kind.spells_char.2 ⟨[c], rfl, Regex.matches_quotedChar.2 (.inl ⟨c, rfl, hc⟩)⟩
    · exact absurd rfl hn
  · rintro w rest rfl hw
    exact (charLength_append hw rest).symm

/-! ### Comments -/

theorem isLongest_lineComment (cs : List Char) :
    IsLongest Kind.lineComment.Spells cs (lineCommentLength cs) where
  attained hn := by
    unfold lineCommentLength at hn ⊢
    split at hn
    · rename_i rest
      refine ⟨'/' :: '/' :: rest.takeWhile (fun c => c != '\n' && c != '\r'), ?_, rfl, ?_⟩
      · simpa using List.takeWhile_prefix _
      · refine Kind.spells_lineComment.2 ⟨_, rfl, fun c hc => ?_⟩
        exact (List.mem_takeWhile_imp hc :)
    · exact absurd rfl hn
  bound := by
    rintro w ⟨rest, rfl⟩ hw
    obtain ⟨u, rfl, hu⟩ := Kind.spells_lineComment.1 hw
    simp only [List.cons_append, lineCommentLength, List.length_cons]
    have hle := le_runLength (List.prefix_append u rest) hu
    omega

/-- The mark that closes a block comment. -/
def closing : List Char := ['*', '/']

@[simp] theorem length_closing : closing.length = 2 := rfl

/-- Inside a comment the reader goes on unless the closing mark comes next. -/
theorem blockTailLength_cons {c : Char} (n : Nat) (tail : List Char)
    (h : ¬closing <+: c :: tail) :
    blockTailLength n (c :: tail) = blockTailLength (n + 1) tail := by
  rw [blockTailLength.eq_3]
  rintro rest rfl rfl
  exact h ⟨rest, rfl⟩

/-- A comment is read up to the first closing mark. -/
theorem blockTailLength_append {body : List Char} (n : Nat) (rest : List Char)
    (h : ¬closing <:+: body ++ ['*']) :
    blockTailLength n (body ++ closing ++ rest) = n + body.length + 2 := by
  induction body generalizing n with
  | nil => rfl
  | cons c body ih =>
    have htail : ¬closing <:+: body ++ ['*'] := fun hi =>
      h (hi.trans (List.suffix_cons c _).isInfix)
    -- the mark cannot overlap the body: its star would be the last of the body, and the text goes
    -- on with a star and not with a slash
    have hhead : ¬closing <+: c :: (body ++ closing ++ rest) := by
      intro h
      obtain ⟨t, ht⟩ := h
      obtain ⟨rfl, hnext⟩ : '*' = c ∧ '/' :: t = body ++ closing ++ rest := by
        simpa [closing] using ht
      cases body with
      | nil => simp [closing] at hnext
      | cons d body =>
        obtain rfl : '/' = d := (List.cons.inj hnext).1
        exact h ⟨[], body ++ ['*'], rfl⟩
    rw [List.cons_append, List.cons_append, blockTailLength_cons n _ hhead, ih _ htail,
      List.length_cons]
    omega

/-- Only a closing mark ends a comment. -/
theorem exists_of_blockTailLength_ne_zero {n : Nat} {cs : List Char}
    (h : blockTailLength n cs ≠ 0) :
    ∃ body rest, cs = body ++ closing ++ rest ∧ ¬closing <:+: body ++ ['*'] := by
  fun_induction blockTailLength n cs with
  | case1 => exact absurd rfl h
  | case2 n rest => exact ⟨[], rest, rfl, by decide⟩
  | case3 n c rest hclose ih =>
    obtain ⟨body, tail, rfl, hbody⟩ := ih h
    refine ⟨c :: body, tail, rfl, ?_⟩
    intro hin
    rcases List.infix_cons_iff.1 hin with ⟨t, ht⟩ | hin
    · obtain ⟨rfl, hnext⟩ : '*' = c ∧ '/' :: t = body ++ ['*'] := by simpa [closing] using ht
      cases body with
      | nil => simp at hnext
      | cons d body =>
        obtain rfl : '/' = d := (List.cons.inj hnext).1
        exact hclose (body ++ closing ++ tail) rfl rfl
    · exact hbody hin

/-- The body of a comment that is closed nowhere else consists of the declared parts and some of the
stars before the closing mark. -/
theorem exists_commentParts {body : List Char} (h : ¬closing <:+: body ++ ['*']) :
    ∃ u n, body ++ ['*'] = u ++ List.replicate (n + 1) '*' ∧
      (Regex.star Regex.commentPart).Matches u := by
  induction body with
  | nil => exact ⟨[], 0, rfl, .nil⟩
  | cons c body ih =>
    obtain ⟨u, n, hbody, hu⟩ := ih fun hi => h (hi.trans (List.suffix_cons c _).isInfix)
    by_cases hc : c = '*'
    · subst hc
      -- a star joins the stars that the next part starts with, or makes that part one of stars
      cases hu with
      | nil => exact ⟨[], n + 1, by rw [List.cons_append, hbody]; rfl, .nil⟩
      | @cons _ v t hv ht =>
        rw [List.append_assoc] at hbody
        rcases Regex.matches_commentPart.1 hv with ⟨d, rfl, hd⟩ | ⟨k, d, rfl, hd⟩
        · have hslash : d ≠ '/' := by
            rintro rfl
            exact h ⟨[], t ++ List.replicate (n + 1) '*', by rw [List.cons_append, hbody]; rfl⟩
          refine ⟨['*', d] ++ t, n, by rw [List.cons_append, hbody]; simp, .cons ?_ ht⟩
          exact Regex.matches_commentPart.2 (.inr ⟨0, d, rfl, hd, hslash⟩)
        · refine ⟨(List.replicate (k + 2) '*' ++ [d]) ++ t, n, ?_, .cons ?_ ht⟩
          · rw [List.cons_append, hbody, List.replicate_succ (n := k + 1)]
            simp
          · exact Regex.matches_commentPart.2 (.inr ⟨k + 1, d, rfl, hd⟩)
    · refine ⟨[c] ++ u, n, by rw [List.cons_append, hbody]; rfl, .cons ?_ hu⟩
      exact Regex.matches_commentPart.2 (.inl ⟨c, rfl, hc⟩)

/-- A closing mark after stars and a character that does not close them lies behind both. -/
theorem closing_infix_of_stars {m : Nat} {d : Char} {x : List Char} (hd : d ≠ '*' ∧ d ≠ '/')
    (h : closing <:+: List.replicate m '*' ++ d :: x) : closing <:+: x := by
  induction m with
  | zero =>
    rcases List.infix_cons_iff.1 h with ⟨t, ht⟩ | h
    · exact absurd (List.cons.inj ht).1.symm hd.1
    · exact h
  | succ m ih =>
    rw [List.replicate_succ, List.cons_append] at h
    rcases List.infix_cons_iff.1 h with ⟨t, ht⟩ | h
    · have hnext := (List.cons.inj ht).2
      cases m with
      | zero => exact absurd (List.cons.inj hnext).1.symm hd.2
      | succ m => exact absurd (List.cons.inj hnext).1 (by decide)
    · exact ih h

/-- The declared parts hold no closing mark. -/
theorem not_closing_infix {u : List Char} (n : Nat)
    (hu : (Regex.star Regex.commentPart).Matches u) :
    ¬closing <:+: u ++ List.replicate (n + 1) '*' := by
  generalize hr : Regex.star Regex.commentPart = r at hu
  induction hu with
  | nil =>
    intro h
    have hmem := h.subset (show '/' ∈ closing by decide)
    exact absurd (List.eq_of_mem_replicate hmem) (by decide)
  | cons hv _ _ ih =>
    cases hr
    rw [List.append_assoc]
    rcases Regex.matches_commentPart.1 hv with ⟨d, rfl, hd⟩ | ⟨k, d, rfl, hd⟩
    · intro h
      rcases List.infix_cons_iff.1 h with ⟨t, ht⟩ | h
      · exact absurd (List.cons.inj ht).1.symm hd
      · exact ih rfl h
    · intro h
      rw [List.append_assoc] at h
      exact ih rfl (closing_infix_of_stars hd h)
  | _ => cases hr

/-- A block comment is anything between its marks that holds no closing mark. -/
theorem spells_blockComment_iff {w : List Char} :
    Kind.blockComment.Spells w ↔
      ∃ body, w = '/' :: '*' :: (body ++ closing) ∧ ¬closing <:+: body ++ ['*'] := by
  rw [Kind.spells_blockComment]
  constructor
  · intro h
    obtain ⟨u, n, rfl, hu⟩ := h
    refine ⟨u ++ List.replicate n '*', ?_, ?_⟩
    · simp [closing, List.replicate_succ']
    · rw [List.append_assoc, ← List.replicate_succ']
      exact not_closing_infix n hu
  · intro h
    obtain ⟨body, rfl, hbody⟩ := h
    obtain ⟨u, n, hu, hparts⟩ := exists_commentParts hbody
    refine ⟨u, n, ?_, hparts⟩
    rw [← hu]
    simp [closing]

theorem isLongest_blockComment (cs : List Char) :
    IsLongest Kind.blockComment.Spells cs (blockCommentLength cs) := by
  refine .of_unique ?_ ?_
  · intro hn
    unfold blockCommentLength at hn ⊢
    split at hn
    · rename_i rest
      obtain ⟨body, tail, rfl, hbody⟩ := exists_of_blockTailLength_ne_zero hn
      refine ⟨'/' :: '*' :: (body ++ closing), ⟨tail, by simp⟩, ?_,
        spells_blockComment_iff.2 ⟨body, rfl, hbody⟩⟩
      simp only [blockTailLength_append 2 tail hbody, List.length_cons, List.length_append,
        length_closing]
      omega
    · exact absurd rfl hn
  · intro w rest hcs hw
    obtain ⟨body, rfl, hbody⟩ := spells_blockComment_iff.1 hw
    subst hcs
    simp only [List.cons_append, blockCommentLength, blockTailLength_append 2 rest hbody,
      List.length_cons, List.length_append, length_closing]
    omega

end Scriptlet
