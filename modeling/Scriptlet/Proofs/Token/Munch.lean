import Scriptlet.Proofs.Token.Longest
import Scriptlet.Token.Lexer

/-!
# Scriptlet.Proofs.Token.Munch

**The match that is taken at one place.** `munch` compares the classes in the order of a table. This
module says what that comes to in terms of the declarations alone: `Best k w cs` holds if `w` is the
longest beginning of `cs` that any declaration matches, and `k` is its kind. Such a match is taken
whenever there is one (`Best.munch_eq`), and nothing is taken otherwise (`munch_eq_zero_iff`).

Two classes share a lexeme only if one of them is a reserved word and the other the identifiers
(`eq_or_reserved`). What a lexeme looks like, `sortOf`, tells the open classes apart, so the proof
does not go through pairs of classes.
-/

namespace Scriptlet

/-- The match `w` of kind `k` at the start of `cs`: no declaration matches more of the text, and a
reserved word is preferred to an identifier. -/
structure Best (k : Kind) (w cs : List Char) : Prop where
  nonempty : w ≠ []
  start : w <+: cs
  spells : k.Spells w
  longest : ∀ (k' : Kind) (w' : List Char), k'.Spells w' → w' <+: cs → w'.length ≤ w.length
  preferred : ∀ k' : Kind, k'.Spells w → k' = k ∨ k.isReserved ∧ k' = .identifier

/-! ### The table covers the declarations -/

theorem isSome_spelling_of_mem_fixed : ∀ k ∈ Kind.fixed, k.spelling?.isSome := by decide

theorem mem_fixed {k : Kind} {s : String} (h : k.spelling? = some s) : k ∈ Kind.fixed := by
  cases k <;> simp_all [Kind.spelling?, Kind.fixed, Keyword.mem_all, Ty.mem_all, Mark.mem_all,
    Step.mem_all, BinOp.mem_all]

/-- Every pattern of the table measures the declared class of its kind. -/
theorem isLongest_pattern {p : Pattern} (hp : p ∈ patterns) (cs : List Char) :
    IsLongest p.kind.Spells cs (p.length cs) := by
  rcases List.mem_append.1 hp with hp | hp
  · obtain ⟨k, hk, rfl⟩ := List.mem_map.1 hp
    obtain ⟨s, hs⟩ := Option.isSome_iff_exists.1 (isSome_spelling_of_mem_fixed k hk)
    simp only [Pattern.ofKind, hs, Option.getD_some]
    exact (isLongest_spelling s.toList cs).congr fun _ => (Kind.spells_fixed hs).symm
  · simp only [List.mem_cons, List.not_mem_nil, or_false] at hp
    rcases hp with rfl | rfl | rfl | rfl | rfl | rfl | rfl | rfl
    · exact isLongest_name cs
    · exact (isLongest_digits cs).congr fun _ => Kind.spells_int.symm
    · exact isLongest_float cs
    · exact isLongest_string cs
    · exact isLongest_char cs
    · exact (isLongest_run isSpace cs).congr fun _ => Kind.spells_whitespace.symm
    · exact isLongest_lineComment cs
    · exact isLongest_blockComment cs

/-- Every declared kind has a pattern in the table. -/
theorem exists_pattern {k : Kind} {w : List Char} (h : k.Spells w) :
    ∃ p ∈ patterns, p.kind = k := by
  have hall : ∀ k ∈ Kind.all, k.declared.isEmpty = false → k ∈ patterns.map Pattern.kind := by
    decide
  obtain ⟨r, hr, -⟩ := h
  have hne : k.declared.isEmpty = false := List.isEmpty_eq_false_iff.2 (List.ne_nil_of_mem hr)
  exact List.mem_map.1 (hall k (Kind.mem_all k) hne)

/-! ### Telling classes apart -/

/-- The open class that a lexeme belongs to by its look, if it belongs to one. -/
def sortOf : List Char → Kind
  | '/' :: '/' :: _ => .lineComment
  | '/' :: '*' :: _ => .blockComment
  | '"' :: _ => .str
  | '\'' :: _ => .char
  | [] => .unknown
  | c :: w =>
    if isNameStart c then .identifier
    else if isSpace c then .whitespace
    else if c.isDigit || c == '.' then if (c :: w).all Char.isDigit then .int else .float
    else .unknown

theorem sortOf_fixed : ∀ k ∈ Kind.fixed, ∀ s ∈ k.spelling?,
    sortOf s.toList = if k.isReserved then .identifier else .unknown := by decide

/-- Where a lexeme does not start like a literal or a comment, its first character decides. -/
theorem sortOf_cons {c : Char} (w : List Char)
    (hc : c ≠ '/' ∧ c ≠ '"' ∧ c ≠ '\'') :
    sortOf (c :: w) =
      if isNameStart c then .identifier
      else if isSpace c then .whitespace
      else if c.isDigit || c == '.' then if (c :: w).all Char.isDigit then .int else .float
      else .unknown := by
  obtain ⟨hslash, hquote, hsingle⟩ := hc
  rw [sortOf.eq_6]
  · exact fun _ h => absurd h hslash
  · exact fun _ h => absurd h hslash
  · exact hquote
  · exact hsingle

theorem sortOf_name {c : Char} (w : List Char) (hc : isNameStart c) :
    sortOf (c :: w) = .identifier := by
  rw [sortOf_cons w, if_pos hc]
  refine ⟨?_, ?_, ?_⟩ <;> (rintro rfl; exact absurd hc (by decide))

theorem sortOf_space {c : Char} (w : List Char) (hc : isSpace c) :
    sortOf (c :: w) = .whitespace := by
  have hname : ¬isNameStart c := by
    simp only [isSpace, Bool.or_eq_true, beq_iff_eq] at hc
    rcases hc with (((rfl | rfl) | rfl) | rfl) | rfl <;> decide
  rw [sortOf_cons w, if_neg hname, if_pos hc]
  refine ⟨?_, ?_, ?_⟩ <;> (rintro rfl; exact absurd hc (by decide))

theorem mem_digits_of_isDigit {c : Char} (h : c.isDigit) :
    c ∈ ['0', '1', '2', '3', '4', '5', '6', '7', '8', '9'] := by
  have hall : ∀ n < 58, 48 ≤ n →
      Char.ofNat n ∈ ['0', '1', '2', '3', '4', '5', '6', '7', '8', '9'] := by decide
  obtain ⟨hlo, hhi⟩ : 48 ≤ c.toNat ∧ c.toNat ≤ 57 := by
    simpa [Char.isDigit, UInt32.le_iff_toNat_le] using h
  have hmem := hall c.toNat (by omega) hlo
  rwa [Char.ofNat_toNat] at hmem

/-- A number is an integer if it has digits only. -/
theorem sortOf_number {c : Char} (w : List Char) (hc : c.isDigit ∨ c = '.') :
    sortOf (c :: w) = if (c :: w).all Char.isDigit then .int else .float := by
  have hother : isNameStart c = false ∧ isSpace c = false ∧ c ≠ '/' ∧ c ≠ '"' ∧ c ≠ '\'' := by
    rcases hc with hc | rfl
    · have hall : ['0', '1', '2', '3', '4', '5', '6', '7', '8', '9'].all fun d =>
          !isNameStart d && !isSpace d && d != '/' && d != '"' && d != '\'' := by decide
      simpa [and_assoc] using List.all_eq_true.1 hall c (mem_digits_of_isDigit hc)
    · decide
  obtain ⟨hname, hspace, hrest⟩ := hother
  rw [sortOf_cons w hrest, hname, hspace]
  simp [hc]

/-- A float starts with a digit or a point and does not consist of digits alone. -/
theorem exists_of_spells_float {w : List Char} (h : Kind.float.Spells w) :
    ∃ c u, w = c :: u ∧ (c.isDigit ∨ c = '.') ∧ ¬(c :: u).all Char.isDigit := by
  have hdigits : ∀ d v : List Char, Regex.digits.Matches d → (∃ x ∈ v, x.isDigit = false) →
      ∃ c u, d ++ v = c :: u ∧ (c.isDigit ∨ c = '.') ∧ ¬(c :: u).all Char.isDigit := by
    rintro d v hd ⟨x, hx, hxd⟩
    obtain ⟨hne, hall⟩ := Regex.matches_digits.1 hd
    obtain ⟨c, u, rfl⟩ := List.exists_cons_of_ne_nil hne
    refine ⟨c, u ++ v, rfl, .inl (hall c (by simp)), fun hw => ?_⟩
    have := List.all_eq_true.1 hw x (by simp [hx])
    simp [hxd] at this
  rcases Kind.spells_float.1 h with ⟨d, v, rfl, hd, hv⟩ | hv | ⟨d, v, rfl, hd, hv⟩
  · obtain ⟨d', e, rfl, -⟩ := Regex.matches_fraction.1 hv
    exact hdigits d _ hd ⟨'.', by simp, by decide⟩
  · obtain ⟨d', e, rfl, -⟩ := Regex.matches_fraction.1 hv
    exact ⟨'.', _, rfl, .inr rfl, by simp [show Char.isDigit '.' = false by decide]⟩
  · obtain ⟨mark, sign, d', rfl, hmark, -⟩ := Regex.matches_exponent.1 hv
    exact hdigits d _ hd ⟨mark, by simp, isDigit_eq_false_of_mark hmark⟩

/-- The look of a lexeme tells its open class. -/
theorem sortOf_eq {k : Kind} {w : List Char} (hk : k.spelling? = none) (h : k.Spells w) :
    sortOf w = k := by
  cases k with
  | int =>
    obtain ⟨hne, hd⟩ := Regex.matches_digits.1 (Kind.spells_int.1 h)
    obtain ⟨c, u, rfl⟩ := List.exists_cons_of_ne_nil hne
    rw [sortOf_number u (.inl (hd c (by simp))), if_pos (List.all_eq_true.2 hd)]
  | whitespace =>
    obtain ⟨hne, hs⟩ := Kind.spells_whitespace.1 h
    obtain ⟨c, u, rfl⟩ := List.exists_cons_of_ne_nil hne
    exact sortOf_space u (hs c (by simp))
  | float =>
    obtain ⟨c, u, rfl, hc, hu⟩ := exists_of_spells_float h
    rw [sortOf_number u hc, if_neg hu]
  | str =>
    obtain ⟨u, rfl, -⟩ := Kind.spells_str.1 h
    rfl
  | char =>
    obtain ⟨u, rfl, -⟩ := Kind.spells_char.1 h
    rfl
  | identifier =>
    obtain ⟨c, u, rfl, hc, -⟩ := Kind.spells_identifier.1 h
    exact sortOf_name u hc
  | lineComment =>
    obtain ⟨u, rfl, -⟩ := Kind.spells_lineComment.1 h
    rfl
  | blockComment =>
    obtain ⟨u, n, rfl, -⟩ := Kind.spells_blockComment.1 h
    rfl
  | unknown => exact absurd h (Kind.not_spells_unknown _)
  | endOfInput => exact absurd h (Kind.not_spells_endOfInput _)
  | _ => simp [Kind.spelling?] at hk

theorem Kind.Spells.ne_nil {k : Kind} {w : List Char} (h : k.Spells w) : w ≠ [] := by
  rintro rfl
  cases hk : k.spelling? with
  | some s =>
    have hne : ∀ k ∈ Kind.fixed, ∀ s ∈ k.spelling?, [] ≠ s.toList := by decide
    exact hne k (mem_fixed hk) s hk ((Kind.spells_fixed hk).1 h)
  | none =>
    obtain rfl : .unknown = k := sortOf_eq hk h
    exact Kind.not_spells_unknown _ h

/-- Two kinds share a lexeme only if one of them is a reserved word and the other the
identifiers. -/
theorem eq_or_reserved {k k' : Kind} {w : List Char} (h : k.Spells w) (h' : k'.Spells w) :
    k = k' ∨ k.isReserved ∧ k' = .identifier ∨ k'.isReserved ∧ k = .identifier := by
  -- a fixed spelling that also belongs to an open class looks like an identifier or like nothing,
  -- and no lexeme of an open class looks like nothing
  have hmixed : ∀ {k k' : Kind} {s : String}, k.spelling? = some s → k'.spelling? = none →
      k.Spells w → k'.Spells w → k.isReserved ∧ k' = .identifier := by
    intro k k' s hk hk' h h'
    have hsort := sortOf_fixed k (mem_fixed hk) s hk
    rw [← (Kind.spells_fixed hk).1 h, sortOf_eq hk' h'] at hsort
    by_cases hres : k.isReserved
    · exact ⟨hres, by rw [hsort, if_pos hres]⟩
    · rw [if_neg hres] at hsort
      subst hsort
      exact absurd h' (Kind.not_spells_unknown _)
  cases hk : k.spelling? with
  | none =>
    cases hk' : k'.spelling? with
    | none => exact .inl ((sortOf_eq hk h).symm.trans (sortOf_eq hk' h'))
    | some s' => exact .inr (.inr (hmixed hk' hk h' h))
  | some s =>
    cases hk' : k'.spelling? with
    | none => exact .inr (.inl (hmixed hk hk' h h'))
    | some s' =>
      -- no two fixed kinds have one spelling
      have hinj : ∀ k ∈ Kind.fixed, ∀ k' ∈ Kind.fixed, k.spelling? = k'.spelling? → k = k' := by
        decide +kernel
      have hs : s = s' := String.toList_injective <|
        ((Kind.spells_fixed hk).1 h).symm.trans ((Kind.spells_fixed hk').1 h')
      exact .inl (hinj k (mem_fixed hk) k' (mem_fixed hk') (by rw [hk, hk', hs]))

/-! ### The winner -/

/-- Going through a table keeps the best match so far, or ends with the first pattern that measures
more than all before it and at least as much as all after it. -/
theorem foldl_improve (cs : List Char) (ps : List Pattern) (best : Kind × Nat) :
    (ps.foldl (Pattern.improve cs) best = best ∧ ∀ p ∈ ps, p.length cs ≤ best.2) ∨
    ∃ pre p post, ps = pre ++ p :: post ∧
      ps.foldl (Pattern.improve cs) best = (p.kind, p.length cs) ∧ best.2 < p.length cs ∧
      (∀ q ∈ pre, q.length cs < p.length cs) ∧ ∀ q ∈ post, q.length cs ≤ p.length cs := by
  induction ps generalizing best with
  | nil => exact .inl ⟨rfl, by simp⟩
  | cons p ps ih =>
    rw [List.foldl_cons]
    by_cases hp : best.2 < p.length cs
    · have himp : Pattern.improve cs best p = (p.kind, p.length cs) := if_pos hp
      rw [himp]
      rcases ih (p.kind, p.length cs) with ⟨hr, hle⟩ | ⟨pre, q, post, rfl, hr, hlt, hpre, hpost⟩
      · exact .inr ⟨[], p, ps, rfl, hr, hp, by simp, hle⟩
      · exact .inr ⟨p :: pre, q, post, rfl, hr, Nat.lt_trans hp hlt,
          List.forall_mem_cons.2 ⟨hlt, hpre⟩, hpost⟩
    · have himp : Pattern.improve cs best p = best := if_neg hp
      rw [himp]
      rcases ih best with ⟨hr, hle⟩ | ⟨pre, q, post, rfl, hr, hlt, hpre, hpost⟩
      · exact .inl ⟨hr, List.forall_mem_cons.2 ⟨Nat.le_of_not_lt hp, hle⟩⟩
      · exact .inr ⟨p :: pre, q, post, rfl, hr, hlt,
          List.forall_mem_cons.2 ⟨Nat.lt_of_le_of_lt (Nat.le_of_not_lt hp) hlt, hpre⟩, hpost⟩

/-- No pattern measures more than the match that is taken. -/
theorem length_le_munch {cs : List Char} {p : Pattern} (hp : p ∈ patterns) :
    p.length cs ≤ (munch cs).2 := by
  rcases foldl_improve cs patterns (.unknown, 0) with
    ⟨hr, hle⟩ | ⟨pre, q, post, hps, hr, -, hpre, hpost⟩
  · rw [munch, hr]
    exact hle p hp
  · rw [munch, hr]
    rw [hps, List.mem_append, List.mem_cons] at hp
    rcases hp with hp | rfl | hp
    · exact Nat.le_of_lt (hpre p hp)
    · exact Nat.le_refl _
    · exact hpost p hp

/-- No declaration matches more than the match that is taken. -/
theorem Kind.Spells.length_le_munch {k : Kind} {w cs : List Char} (h : k.Spells w)
    (hw : w <+: cs) : w.length ≤ (munch cs).2 := by
  obtain ⟨p, hp, rfl⟩ := exists_pattern h
  exact Nat.le_trans ((isLongest_pattern hp cs).bound w hw h) (Scriptlet.length_le_munch hp)

/-- The identifiers come after the reserved words in the table. -/
theorem pairwise_patterns :
    patterns.Pairwise fun p q => p.kind = .identifier → q.kind.isReserved = false := by
  have h : (patterns.map Pattern.kind).Pairwise
      fun k k' => k = .identifier → k'.isReserved = false := by decide
  exact List.pairwise_map.1 h

/-- What `munch` takes is the best match. -/
theorem best_of_munch {cs : List Char} {k : Kind} {n : Nat} (h : munch cs = (k, n)) (hn : n ≠ 0) :
    ∃ w, w.length = n ∧ Best k w cs := by
  rcases foldl_improve cs patterns (.unknown, 0) with ⟨hr, -⟩ | ⟨pre, p, post, hps, hr, -, hpre, -⟩
  · rw [munch, hr] at h
    cases h
    exact absurd rfl hn
  · rw [munch, hr] at h
    cases h
    have hp : p ∈ patterns := by simp [hps]
    obtain ⟨w, hw, hlen, hspells⟩ := (isLongest_pattern hp cs).attained hn
    refine ⟨w, hlen, hspells.ne_nil, hw, hspells, fun k' w' h' hw' => ?_, fun k' h' => ?_⟩
    · rw [hlen]
      have hle := h'.length_le_munch hw'
      rwa [munch, hr] at hle
    · rcases eq_or_reserved hspells h' with heq | hres | ⟨hres, hid⟩
      · exact .inl heq.symm
      · exact .inr hres
      · -- a reserved word stands before the identifiers and would have been taken
        exfalso
        obtain ⟨q, hq, rfl⟩ := exists_pattern h'
        have hlt : p.length cs ≤ q.length cs := by
          rw [← hlen]
          exact (isLongest_pattern hq cs).bound w hw h'
        have hpair := pairwise_patterns
        rw [hps, List.pairwise_append, List.pairwise_cons] at hpair
        rw [hps, List.mem_append, List.mem_cons] at hq
        rcases hq with hq | rfl | hq
        · exact absurd (hpre q hq) (Nat.not_lt.2 hlt)
        · simp [hid, Kind.isReserved] at hres
        · have := hpair.2.1.1 q hq hid
          simp [hres] at this

/-- A best match is the one that is taken. -/
theorem Best.munch_eq {k : Kind} {w cs : List Char} (h : Best k w cs) :
    munch cs = (k, w.length) := by
  obtain ⟨k', n, hm⟩ : ∃ k' n, munch cs = (k', n) := ⟨_, _, rfl⟩
  have hle : w.length ≤ n := by
    have := h.spells.length_le_munch h.start
    rwa [hm] at this
  have hpos : 0 < w.length := List.length_pos_iff.2 h.nonempty
  obtain ⟨w', rfl, h'⟩ := best_of_munch hm (by omega)
  have hlen := h.longest k' w' h'.spells h'.start
  obtain rfl : w = w' :=
    (List.prefix_of_prefix_length_le h.start h'.start hle).eq_of_length (by omega)
  rw [hm]
  rcases h.preferred k' h'.spells with rfl | ⟨hres, rfl⟩
  · rfl
  · rcases h'.preferred k h.spells with rfl | ⟨hid, -⟩
    · rfl
    · simp [Kind.isReserved] at hid

/-- Nothing is taken exactly where no declaration matches. -/
theorem munch_eq_zero_iff {cs : List Char} :
    (munch cs).2 = 0 ↔ ∀ (k : Kind) (w : List Char), k.Spells w → ¬w <+: cs := by
  constructor
  · intro h k w hk hw
    have := hk.length_le_munch hw
    exact hk.ne_nil (List.length_eq_zero_iff.1 (by omega))
  · intro h
    by_contra hn
    obtain ⟨w, -, hbest⟩ := best_of_munch (k := (munch cs).1) rfl hn
    exact h _ w hbest.spells hbest.start

end Scriptlet
