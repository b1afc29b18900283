import Scriptlet.Proofs.Token.Munch

/-!
# Scriptlet.Proofs.Token.Lexeme

**When a lexeme is taken whole, and no more.** For names, reserved words, numbers, string literals
and comments, what may follow a lexeme so that it is the best match at its place. The first
character of a lexeme leaves few kinds to compare with (`spells_cons_…`), and the length functions
bound those.
-/

namespace Scriptlet

/-- A match that no other exceeds is the best one, if it is not a reserved word read as a name. -/
theorem Best.of_bound {k : Kind} {w rest : List Char} (hw : k.Spells w)
    (hbound : ∀ (k' : Kind) (w' : List Char), k'.Spells w' → w' <+: w ++ rest →
      w'.length ≤ w.length)
    (hname : k = .identifier → ∀ k' : Kind, k'.isReserved → ¬k'.Spells w) :
    Best k w (w ++ rest) := by
  refine ⟨hw.ne_nil, List.prefix_append w rest, hw, hbound, fun k' h' => ?_⟩
  rcases eq_or_reserved hw h' with rfl | hres | ⟨hres, hid⟩
  · exact .inl rfl
  · exact .inr hres
  · exact absurd h' (hname hid k' hres)

/-- The other matches at a place start with the same character. -/
theorem Kind.Spells.exists_cons {k : Kind} {w tail : List Char} {c : Char} (h : k.Spells w)
    (hw : w <+: c :: tail) : ∃ u, w = c :: u ∧ u <+: tail := by
  obtain ⟨d, u, rfl⟩ := List.exists_cons_of_ne_nil h.ne_nil
  obtain ⟨rfl, hu⟩ := List.cons_prefix_cons.1 hw
  exact ⟨u, rfl, hu⟩

/-! ### Names and reserved words -/

/-- The shape of a name, as a test. -/
def isNameLike : List Char → Bool
  | [] => false
  | c :: u => isNameStart c && u.all isNamePart

theorem spells_identifier_iff {w : List Char} : Kind.identifier.Spells w ↔ isNameLike w := by
  rw [Kind.spells_identifier]
  constructor
  · intro h
    obtain ⟨c, u, rfl, hc, hu⟩ := h
    simpa [isNameLike] using ⟨hc, hu⟩
  · intro h
    cases w with
    | nil => exact absurd h (by decide)
    | cons c u => exact ⟨c, u, rfl, by simpa [isNameLike] using h⟩

/-- What starts like a name is a name; reserved words have the shape of names too. -/
theorem spells_cons_name {k : Kind} {c : Char} {u : List Char} (h : k.Spells (c :: u))
    (hc : isNameStart c) : Kind.identifier.Spells (c :: u) := by
  cases hk : k.spelling? with
  | some s =>
    have hfixed : ∀ k ∈ Kind.fixed, ∀ s ∈ k.spelling?,
        s.toList.head?.any isNameStart → isNameLike s.toList := by decide
    have hs := (Kind.spells_fixed hk).1 h
    rw [spells_identifier_iff, hs]
    exact hfixed k (mem_fixed hk) s hk (by rw [← hs]; exact hc)
  | none =>
    obtain rfl : .identifier = k := (sortOf_name u hc).symm.trans (sortOf_eq hk h)
    exact h

theorem nameLength_append {w rest : List Char} (hw : Kind.identifier.Spells w)
    (hrest : ∀ c ∈ rest.head?, ¬isNamePart c) : nameLength (w ++ rest) = w.length := by
  obtain ⟨c, u, rfl, hc, hu⟩ := Kind.spells_identifier.1 hw
  rw [List.cons_append, nameLength, if_pos hc, runLength_append hu hrest, List.length_cons]

theorem best_of_name {k : Kind} {w rest : List Char} (hk : k.Spells w)
    (hw : Kind.identifier.Spells w) (hrest : ∀ c ∈ rest.head?, ¬isNamePart c)
    (hname : k = .identifier → ∀ k' : Kind, k'.isReserved → ¬k'.Spells w) :
    Best k w (w ++ rest) := by
  refine .of_bound hk (fun k' w' h' hw' => ?_) hname
  rw [← nameLength_append hw hrest]
  refine (isLongest_name (w ++ rest)).bound w' hw' ?_
  obtain ⟨c, u, rfl, hc, hu⟩ := Kind.spells_identifier.1 hw
  obtain ⟨u', rfl, -⟩ := h'.exists_cons hw'
  exact spells_cons_name h' hc

/-- A name that is no reserved word ends where no character continues it. -/
theorem best_identifier {w rest : List Char} (hw : Kind.identifier.Spells w)
    (hres : ∀ k : Kind, k.isReserved → ¬k.Spells w) (hrest : ∀ c ∈ rest.head?, ¬isNamePart c) :
    Best .identifier w (w ++ rest) :=
  best_of_name hw hw hrest fun _ => hres

theorem best_reserved {k : Kind} {w rest : List Char} (hk : k.isReserved) (hw : k.Spells w)
    (hrest : ∀ c ∈ rest.head?, ¬isNamePart c) : Best k w (w ++ rest) := by
  have hname : Kind.identifier.Spells w := by
    have hfixed : ∀ k ∈ Kind.fixed, ∀ s ∈ k.spelling?, k.isReserved → isNameLike s.toList := by
      decide
    cases hs : k.spelling? with
    | some s =>
      rw [spells_identifier_iff, (Kind.spells_fixed hs).1 hw]
      exact hfixed k (mem_fixed hs) s hs hk
    | none => cases k <;> simp_all [Kind.isReserved, Kind.spelling?]
  refine best_of_name hw hname hrest ?_
  rintro rfl
  simp [Kind.isReserved] at hk

/-! ### Numbers -/

theorem spells_cons_number {k : Kind} {c : Char} {u : List Char} (h : k.Spells (c :: u))
    (hc : c.isDigit ∨ c = '.') : k = .int ∨ k = .float := by
  cases hk : k.spelling? with
  | some s =>
    have hfixed : ∀ k ∈ Kind.fixed, ∀ s ∈ k.spelling?,
        s.toList.head?.any (fun c => c.isDigit || c == '.') = false := by decide
    have hnone := hfixed k (mem_fixed hk) s hk
    rw [← (Kind.spells_fixed hk).1 h] at hnone
    exact absurd hc (by simpa using hnone)
  | none =>
    have hsort := (sortOf_number u hc).symm.trans (sortOf_eq hk h)
    split at hsort
    · exact .inl hsort.symm
    · exact .inr hsort.symm

/-- A number can end before `rest`: no digit and no point come next, and no exponent. -/
structure NumberEnds (rest : List Char) : Prop where
  no_digit : ∀ c ∈ rest.head?, ¬c.isDigit
  no_point : rest.head? ≠ some '.'
  no_exponent : ∀ e, Regex.exponent.Matches e → ¬e <+: rest

theorem NumberEnds.exponentLength_eq {rest : List Char} (h : NumberEnds rest) :
    exponentLength rest = 0 := by
  by_contra hne
  obtain ⟨e, hpre, -, he⟩ := (isLongest_exponent rest).attained hne
  exact h.no_exponent e he hpre

theorem NumberEnds.fractionLength_eq {rest : List Char} (h : NumberEnds rest) :
    fractionLength rest = 0 := by
  cases rest with
  | nil => rfl
  | cons c rest =>
    rw [fractionLength, if_neg]
    intro h
    obtain ⟨rfl, -⟩ := h
    exact h.no_point rfl

theorem exponentLength_append {e rest : List Char} (he : Regex.exponent.Matches e)
    (hrest : ∀ c ∈ rest.head?, ¬c.isDigit) : exponentLength (e ++ rest) = e.length := by
  obtain ⟨mark, sign, d, rfl, hmark, hsign, hd⟩ := Regex.matches_exponent.1 he
  rw [exponentLength_run hmark hsign hd, runLength_append (Regex.matches_digits.1 hd).2 hrest,
    List.length_cons, List.length_append]
  omega

theorem fractionLength_append {f rest : List Char} (hf : Regex.fraction.Matches f)
    (hrest : NumberEnds rest) : fractionLength (f ++ rest) = f.length := by
  obtain ⟨d, e, rfl, hd, he⟩ := Regex.matches_fraction.1 hf
  obtain ⟨hne, hdig⟩ := Regex.matches_digits.1 hd
  have hpos : d.length ≠ 0 := fun h => hne (List.length_eq_zero_iff.1 h)
  simp only [List.cons_append, List.append_assoc, fractionLength, true_and]
  rcases he with he | rfl
  · rw [runLength_exponent hdig he, if_pos hpos, List.drop_left,
      exponentLength_append he hrest.no_digit, List.length_cons, List.length_append]
    omega
  · rw [List.nil_append, runLength_append hdig hrest.no_digit, if_pos hpos, List.drop_left,
      hrest.exponentLength_eq, List.append_nil, List.length_cons]

/-- A float is measured whole where a number can end. -/
theorem floatLength_of_spells {w rest : List Char} (hw : Kind.float.Spells w)
    (hrest : NumberEnds rest) : floatLength (w ++ rest) = w.length := by
  have hfraction : ∀ d f : List Char, (∀ c ∈ d, c.isDigit) → Regex.fraction.Matches f →
      floatLength (d ++ (f ++ rest)) = (d ++ f).length := by
    intro d f hd hf
    rw [floatLength_fraction hd hf, fractionLength_append hf hrest, List.length_append]
  rcases Kind.spells_float.1 hw with ⟨d, f, rfl, hd, hf⟩ | hf | ⟨d, e, rfl, hd, he⟩
  · rw [List.append_assoc]
    exact hfraction d f (Regex.matches_digits.1 hd).2 hf
  · exact hfraction [] w (by simp) hf
  · rw [List.append_assoc, floatLength_exponent hd he, exponentLength_append he hrest.no_digit,
      List.length_append]

/-- Two measures bound every match that starts like a number. -/
theorem length_le_of_number {k : Kind} {w w' rest : List Char} {n : Nat} (hw : k.Spells w)
    (hstart : ∃ c u, w = c :: u ∧ (c.isDigit ∨ c = '.'))
    (hint : runLength Char.isDigit (w ++ rest) ≤ n) (hfloat : floatLength (w ++ rest) ≤ n)
    {k' : Kind} (h' : k'.Spells w') (hw' : w' <+: w ++ rest) : w'.length ≤ n := by
  obtain ⟨c, u, rfl, hc⟩ := hstart
  obtain ⟨u', rfl, -⟩ := h'.exists_cons hw'
  rcases spells_cons_number h' hc with rfl | rfl
  · exact Nat.le_trans ((isLongest_digits _).bound _ hw' (Kind.spells_int.1 h')) hint
  · exact Nat.le_trans ((isLongest_float _).bound _ hw' h') hfloat

theorem best_int {w rest : List Char} (hw : Kind.int.Spells w) (hrest : NumberEnds rest) :
    Best .int w (w ++ rest) := by
  obtain ⟨hne, hdig⟩ := Regex.matches_digits.1 (Kind.spells_int.1 hw)
  have hrun := runLength_append hdig hrest.no_digit
  have hfloat : floatLength (w ++ rest) = 0 := by
    rw [floatLength_append hdig hrest.no_digit, hrest.fractionLength_eq, hrest.exponentLength_eq]
    simp
  refine .of_bound hw (fun k' w' h' hw' => ?_) (by simp)
  obtain ⟨c, u, hcu⟩ := List.exists_cons_of_ne_nil hne
  refine length_le_of_number hw ⟨c, u, hcu, .inl (hdig c (by simp [hcu]))⟩ ?_ ?_ h' hw'
  · exact Nat.le_of_eq hrun
  · omega

theorem best_float {w rest : List Char} (hw : Kind.float.Spells w) (hrest : NumberEnds rest) :
    Best .float w (w ++ rest) := by
  have hfloat := floatLength_of_spells hw hrest
  obtain ⟨c, u, rfl, hc, hall⟩ := exists_of_spells_float hw
  refine .of_bound hw (fun k' w' h' hw' => ?_) (by simp)
  refine length_le_of_number hw ⟨c, u, rfl, hc⟩ ?_ (Nat.le_of_eq hfloat) h' hw'
  -- the digits stop inside the float
  by_contra hlt
  have hpre : c :: u <+: (c :: u ++ rest).takeWhile Char.isDigit :=
    List.prefix_of_prefix_length_le (List.prefix_append _ _) (List.takeWhile_prefix _)
      (Nat.le_of_lt (Nat.lt_of_not_le hlt))
  refine hall (List.all_eq_true.2 fun d hd => ?_)
  exact List.mem_takeWhile_imp (hpre.subset hd)

/-! ### Literals and comments -/

/-- The kinds that start with a character that starts no number, name or space. -/
theorem spells_cons_quote {k : Kind} {u : List Char} (h : k.Spells ('"' :: u)) : k = .str := by
  cases hk : k.spelling? with
  | some s =>
    have hfixed : ∀ k ∈ Kind.fixed, ∀ s ∈ k.spelling?, s.toList.head? ≠ some '"' := by decide
    exact absurd (by rw [← (Kind.spells_fixed hk).1 h]; rfl) (hfixed k (mem_fixed hk) s hk)
  | none => exact (sortOf_eq hk h).symm

/-- A string literal is taken whole, whatever follows. -/
theorem best_str {w : List Char} (hw : Kind.str.Spells w) (rest : List Char) :
    Best .str w (w ++ rest) := by
  have hlen : stringLength (w ++ rest) = w.length := by
    obtain ⟨u, rfl, hu⟩ := Kind.spells_str.1 hw
    have htail := stringTailLength_append 1 rest hu
    simp only [List.cons_append, List.append_assoc, List.nil_append, stringLength, htail,
      List.length_cons, List.length_append, List.length_nil]
    omega
  refine .of_bound hw (fun k' w' h' hw' => ?_) (by simp)
  obtain ⟨u, rfl, -⟩ := Kind.spells_str.1 hw
  obtain ⟨u', rfl, -⟩ := h'.exists_cons hw'
  obtain rfl := spells_cons_quote h'
  rw [← hlen]
  exact (isLongest_string _).bound _ hw' h'

theorem spells_cons_apostrophe {k : Kind} {u : List Char} (h : k.Spells ('\'' :: u)) :
    k = .char := by
  cases hk : k.spelling? with
  | some s =>
    have hfixed : ∀ k ∈ Kind.fixed, ∀ s ∈ k.spelling?, s.toList.head? ≠ some '\'' := by decide
    exact absurd (by rw [← (Kind.spells_fixed hk).1 h]; rfl) (hfixed k (mem_fixed hk) s hk)
  | none => exact (sortOf_eq hk h).symm

/-- A character literal is taken whole, whatever follows. -/
theorem best_char {w : List Char} (hw : Kind.char.Spells w) (rest : List Char) :
    Best .char w (w ++ rest) := by
  have hlen := charLength_append hw rest
  refine .of_bound hw (fun k' w' h' hw' => ?_) (by simp)
  obtain ⟨u, rfl, -⟩ := Kind.spells_char.1 hw
  obtain ⟨u', rfl, -⟩ := h'.exists_cons hw'
  obtain rfl := spells_cons_apostrophe h'
  rw [← hlen]
  exact (isLongest_char _).bound _ hw' h'

/-- After a slash and a star only a block comment is longer than the slash. -/
theorem spells_slash_star {k : Kind} {w rest : List Char} (h : k.Spells w)
    (hw : w <+: '/' :: '*' :: rest) : w.length ≤ 1 ∨ k = .blockComment := by
  obtain ⟨u, rfl, hu⟩ := h.exists_cons hw
  cases u with
  | nil => exact .inl (Nat.le_refl _)
  | cons d u =>
    obtain ⟨rfl, -⟩ := List.cons_prefix_cons.1 hu
    cases hk : k.spelling? with
    | some s =>
      have hfixed : ∀ k ∈ Kind.fixed, ∀ s ∈ k.spelling?, s.toList.take 2 ≠ ['/', '*'] := by decide
      exact absurd (by rw [← (Kind.spells_fixed hk).1 h]; rfl) (hfixed k (mem_fixed hk) s hk)
    | none => exact .inr (sortOf_eq hk h).symm

/-- A block comment ends at its first closing mark, whatever follows. -/
theorem best_blockComment {w : List Char} (hw : Kind.blockComment.Spells w) (rest : List Char) :
    Best .blockComment w (w ++ rest) := by
  obtain ⟨body, rfl, hbody⟩ := spells_blockComment_iff.1 hw
  refine .of_bound hw (fun k' w' h' hw' => ?_) (by simp)
  rcases spells_slash_star h' hw' with hle | rfl
  · exact Nat.le_trans hle (by simp)
  · refine Nat.le_trans ((isLongest_blockComment _).bound _ hw' h') ?_
    simp only [List.cons_append, blockCommentLength, blockTailLength_append 2 rest hbody,
      List.length_cons, List.length_append, length_closing]
    omega

/-- A comment that nothing closes is a slash and what follows it. -/
theorem best_slash {rest : List Char} (h : ¬closing <:+: rest) :
    Best (.operator .div) ['/'] (['/'] ++ '*' :: rest) := by
  refine .of_bound ((Kind.spells_fixed rfl).2 rfl) (fun k' w' h' hw' => ?_) (by simp)
  rcases spells_slash_star h' hw' with hle | rfl
  · exact hle
  · exfalso
    obtain ⟨body, rfl, -⟩ := spells_blockComment_iff.1 h'
    obtain ⟨t, ht⟩ := hw'
    refine h ⟨body, t, ?_⟩
    simpa using ht

/-! ### Characters that start nothing -/

/-- A quote that opens no literal, a point before no digit, or one half of an operator. -/
def StandsAlone (c : Char) (rest : List Char) : Prop :=
  c = '"' ∧ (∀ w, Kind.str.Spells w → ¬w <+: c :: rest) ∨
  c = '\'' ∧ (∀ w, Kind.char.Spells w → ¬w <+: c :: rest) ∨
  c = '.' ∧ (∀ d ∈ rest.head?, ¬d.isDigit) ∨
  c = '&' ∧ rest.head? ≠ some '&' ∨
  c = '|' ∧ rest.head? ≠ some '|' ∨
  c = '!' ∧ rest.head? ≠ some '='

/-- Nothing that is declared starts at a character that stands alone. -/
theorem StandsAlone.not_spells {c : Char} {rest : List Char} (h : StandsAlone c rest) (k : Kind)
    (w : List Char) (hk : k.Spells w) : ¬w <+: c :: rest := by
  intro hw
  obtain ⟨u, rfl, hu⟩ := hk.exists_cons hw
  cases hs : k.spelling? with
  | some s =>
    -- of the fixed spellings only three operators start so, and each asks for its second half
    have hfixed : ∀ k ∈ Kind.fixed, ∀ s ∈ k.spelling?,
        s.toList.head?.any (['"', '\'', '.', '&', '|', '!'].contains ·) →
          s.toList ∈ [['&', '&'], ['|', '|'], ['!', '=']] := by decide
    have heq := (Kind.spells_fixed hs).1 hk
    have hc : ['"', '\'', '.', '&', '|', '!'].contains c := by
      rcases h with ⟨rfl, -⟩ | ⟨rfl, -⟩ | ⟨rfl, -⟩ | ⟨rfl, -⟩ | ⟨rfl, -⟩ | ⟨rfl, -⟩ <;> rfl
    have hmem := hfixed k (mem_fixed hs) s hs (by rw [← heq]; exact hc)
    rw [← heq] at hmem
    simp only [List.mem_cons, List.cons.injEq, List.not_mem_nil, or_false] at hmem
    obtain ⟨t, rfl⟩ := hu
    rcases hmem with ⟨rfl, rfl⟩ | ⟨rfl, rfl⟩ | ⟨rfl, rfl⟩ <;> simp [StandsAlone] at h
  | none =>
    have hsort := sortOf_eq hs hk
    rcases h with ⟨rfl, h⟩ | ⟨rfl, h⟩ | ⟨rfl, h⟩ | ⟨rfl, h⟩ | ⟨rfl, h⟩ | ⟨rfl, h⟩
    · obtain rfl : .str = k := hsort
      exact h _ hk hw
    · obtain rfl : .char = k := hsort
      exact h _ hk hw
    · rcases spells_cons_number hk (.inr rfl) with rfl | rfl
      · exact absurd ((Regex.matches_digits.1 (Kind.spells_int.1 hk)).2 '.' (by simp)) (by decide)
      · have hle := (isLongest_float _).bound _ hw hk
        have hrun : runLength Char.isDigit rest = 0 := runLength_append (w := []) (by simp) h
        rw [← List.nil_append ('.' :: rest), floatLength_append (by simp) (by rintro c ⟨⟩; decide)]
          at hle
        simp [fractionLength, hrun] at hle
    all_goals
      obtain rfl : .unknown = k := hsort
      exact Kind.not_spells_unknown _ hk

end Scriptlet
