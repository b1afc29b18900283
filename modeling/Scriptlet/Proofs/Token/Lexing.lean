import Scriptlet.Proofs.Token.Lexeme

/-!
# Scriptlet.Proofs.Token.Lexing

**The lexer is maximal munch.** `Munched offset cs ts` says, in terms of the declarations alone,
that `ts` are the tokens of a text `cs` that starts at byte `offset`: at each place the best match
is taken and shown or passed over, and where nothing matches, one character is an unknown token.
The relation holds of the tokens that the lexer gives and of no others (`munched_iff`).

The lexer walks through a text character by character and counts those that belong to the lexeme
taken last. `lexFrom_best` and `lexFrom_unknown` are its two steps from lexeme to lexeme; everything
after them is about whole lexemes.
-/

namespace Scriptlet

/-! ### Bytes -/

theorem utf8ByteSize_ofList_cons (c : Char) (w : List Char) :
    (String.ofList (c :: w)).utf8ByteSize = c.utf8Size + (String.ofList w).utf8ByteSize := by
  rw [← List.singleton_append, String.ofList_append, String.utf8ByteSize_append,
    ← String.singleton_eq_ofList, String.utf8ByteSize_singleton]

theorem utf8ByteSize_ofList_append (u v : List Char) :
    (String.ofList (u ++ v)).utf8ByteSize =
      (String.ofList u).utf8ByteSize + (String.ofList v).utf8ByteSize := by
  rw [String.ofList_append, String.utf8ByteSize_append]

/-! ### From lexeme to lexeme -/

/-- The characters of a lexeme that has been taken are passed over. -/
theorem lexFrom_length (u rest : List Char) (offset : Nat) :
    lexFrom u.length offset (u ++ rest) =
      lexFrom 0 (offset + (String.ofList u).utf8ByteSize) rest := by
  induction u generalizing offset with
  | nil => rfl
  | cons c u ih =>
    rw [List.cons_append, List.length_cons, lexFrom, ih, utf8ByteSize_ofList_cons, Nat.add_assoc]

theorem lexFrom_best {k : Kind} {w rest : List Char} (h : Best k w (w ++ rest)) (offset : Nat) :
    lexFrom 0 offset (w ++ rest) =
      if k.isSkipped then lexFrom 0 (offset + (String.ofList w).utf8ByteSize) rest
      else ⟨k, String.ofList w, offset⟩ ::
        lexFrom 0 (offset + (String.ofList w).utf8ByteSize) rest := by
  have hm := h.munch_eq
  obtain ⟨c, u, rfl⟩ := List.exists_cons_of_ne_nil h.nonempty
  have hat : lexemeAt c (u ++ rest) = (k, u.length) := by
    rw [lexemeAt, ← List.cons_append, hm, List.length_cons]
  rw [List.cons_append, lexFrom]
  simp only [hat, lexFrom_length, List.take_left, utf8ByteSize_ofList_cons, Nat.add_assoc]

theorem lexFrom_shown {k : Kind} {w rest : List Char} (h : Best k w (w ++ rest))
    (hk : k.isSkipped = false) (offset : Nat) :
    lexFrom 0 offset (w ++ rest) =
      ⟨k, String.ofList w, offset⟩ ::
        lexFrom 0 (offset + (String.ofList w).utf8ByteSize) rest := by
  rw [lexFrom_best h, hk]
  rfl

theorem lexFrom_passed {k : Kind} {w rest : List Char} (h : Best k w (w ++ rest))
    (hk : k.isSkipped) (offset : Nat) :
    lexFrom 0 offset (w ++ rest) =
      lexFrom 0 (offset + (String.ofList w).utf8ByteSize) rest := by
  rw [lexFrom_best h, if_pos hk]

theorem lexFrom_unknown {c : Char} {rest : List Char}
    (h : ∀ (k : Kind) (w : List Char), k.Spells w → ¬w <+: c :: rest) (offset : Nat) :
    lexFrom 0 offset (c :: rest) =
      ⟨.unknown, String.singleton c, offset⟩ :: lexFrom 0 (offset + c.utf8Size) rest := by
  obtain ⟨k, hk⟩ : ∃ k, munch (c :: rest) = (k, 0) :=
    ⟨_, Prod.ext rfl (munch_eq_zero_iff.2 h)⟩
  have hat : lexemeAt c rest = (.unknown, 0) := by rw [lexemeAt, hk]
  rw [lexFrom]
  simp [hat, Kind.isSkipped]

/-! ### The relation -/

/-- `ts` are the tokens of the text `cs` that starts at byte `offset`. -/
inductive Munched : Nat → List Char → List Token → Prop
  | done (offset : Nat) : Munched offset [] [⟨.endOfInput, "", offset⟩]
  /-- The best match becomes a token. -/
  | shown {offset : Nat} {k : Kind} {w rest : List Char} {ts : List Token}
      (hbest : Best k w (w ++ rest)) (hk : ¬k.isSkipped)
      (hrest : Munched (offset + (String.ofList w).utf8ByteSize) rest ts) :
      Munched offset (w ++ rest) (⟨k, String.ofList w, offset⟩ :: ts)
  /-- White space and comments are passed over. -/
  | passed {offset : Nat} {k : Kind} {w rest : List Char} {ts : List Token}
      (hbest : Best k w (w ++ rest)) (hk : k.isSkipped)
      (hrest : Munched (offset + (String.ofList w).utf8ByteSize) rest ts) :
      Munched offset (w ++ rest) ts
  /-- Where no declaration matches, one character is a token of its own. -/
  | unknown {offset : Nat} {c : Char} {rest : List Char} {ts : List Token}
      (hnone : ∀ (k : Kind) (w : List Char), k.Spells w → ¬w <+: c :: rest)
      (hrest : Munched (offset + c.utf8Size) rest ts) :
      Munched offset (c :: rest) (⟨.unknown, String.singleton c, offset⟩ :: ts)

/-- At each place of a text either there is a best match or nothing matches. -/
theorem exists_best_or_none (cs : List Char) :
    (∃ k w rest, cs = w ++ rest ∧ Best k w (w ++ rest)) ∨
      ∀ (k : Kind) (w : List Char), k.Spells w → ¬w <+: cs := by
  by_cases h : (munch cs).2 = 0
  · exact .inr (munch_eq_zero_iff.1 h)
  · obtain ⟨w, -, hbest⟩ := best_of_munch (k := (munch cs).1) rfl h
    obtain ⟨rest, rfl⟩ := hbest.start
    exact .inl ⟨_, w, rest, rfl, hbest⟩

theorem munched_lexFrom (offset : Nat) (cs : List Char) :
    Munched offset cs (lexFrom 0 offset cs) := by
  -- on the length of the text, since a step takes a whole lexeme
  induction hn : cs.length using Nat.strongRecOn generalizing offset cs with
  | ind n ih =>
    cases cs with
    | nil => exact .done offset
    | cons c tail =>
      rcases exists_best_or_none (c :: tail) with ⟨k, w, rest, hcs, hbest⟩ | hnone
      · have hpos : 0 < w.length := List.length_pos_iff.2 hbest.nonempty
        have hlen : rest.length < n := by
          rw [← hn, hcs, List.length_append]
          omega
        have htail := ih rest.length hlen (offset + (String.ofList w).utf8ByteSize) rest rfl
        rw [hcs]
        by_cases hk : k.isSkipped
        · rw [lexFrom_passed hbest hk]
          exact .passed hbest hk htail
        · rw [lexFrom_shown hbest (Bool.eq_false_iff.2 hk)]
          exact .shown hbest hk htail
      · rw [lexFrom_unknown hnone]
        exact .unknown hnone (ih tail.length (by simp [← hn]) _ tail rfl)

theorem Munched.eq_lexFrom {offset : Nat} {cs : List Char} {ts : List Token}
    (h : Munched offset cs ts) : ts = lexFrom 0 offset cs := by
  induction h with
  | done => rfl
  | shown hbest hk _ ih => rw [lexFrom_shown hbest (Bool.eq_false_iff.2 hk), ih]
  | passed hbest hk _ ih => rw [lexFrom_passed hbest hk, ih]
  | unknown hnone _ ih => rw [lexFrom_unknown hnone, ih]

/-- The relation has exactly one list of tokens for a text, the one that the lexer gives. -/
theorem munched_iff {offset : Nat} {cs : List Char} {ts : List Token} :
    Munched offset cs ts ↔ ts = lexFrom 0 offset cs :=
  ⟨Munched.eq_lexFrom, fun h => h ▸ munched_lexFrom offset cs⟩

/-! ### Maximal munch -/

/-- **Maximal munch.** The tokens of a text are those, and only those, that taking the best declared
match at each place gives. In particular nothing that fails to close or to continue takes the text
after it along: a lone quote, point or half of an operator is one unknown character; a comment that
nothing closes leaves its slash; a number ends before an exponent that is none; and a block comment
ends at its first closing mark. -/
theorem lex_maximal_munch :
    (∀ (source : String) (ts : List Token), Munched 0 source.toList ts ↔ ts = Token.lex source) ∧
    (∀ (offset : Nat) (c : Char) (rest : List Char), StandsAlone c rest →
      lexFrom 0 offset (c :: rest) =
        ⟨.unknown, String.singleton c, offset⟩ :: lexFrom 0 (offset + 1) rest) ∧
    (∀ (offset : Nat) (rest : List Char), ¬closing <:+: rest →
      lexFrom 0 offset ('/' :: '*' :: rest) =
        ⟨.operator .div, "/", offset⟩ :: lexFrom 0 (offset + 1) ('*' :: rest)) ∧
    (∀ (offset : Nat) (k : Kind) (w rest : List Char), k = .int ∨ k = .float → k.Spells w →
      NumberEnds rest →
      lexFrom 0 offset (w ++ rest) =
        ⟨k, String.ofList w, offset⟩ ::
          lexFrom 0 (offset + (String.ofList w).utf8ByteSize) rest) ∧
    ∀ (offset : Nat) (body rest : List Char), ¬closing <:+: body ++ ['*'] →
      lexFrom 0 offset ('/' :: '*' :: (body ++ closing ++ rest)) =
        lexFrom 0 (offset + (String.ofList body).utf8ByteSize + 4) rest := by
  refine ⟨fun source ts => munched_iff, ?_, ?_, ?_, ?_⟩
  · intro offset c rest h
    have hsize : c.utf8Size = 1 := by
      rcases h with ⟨rfl, -⟩ | ⟨rfl, -⟩ | ⟨rfl, -⟩ | ⟨rfl, -⟩ | ⟨rfl, -⟩ | ⟨rfl, -⟩ <;> rfl
    rw [lexFrom_unknown h.not_spells, hsize]
  · intro offset rest h
    exact lexFrom_shown (best_slash h) rfl offset
  · intro offset k w rest hk hw hrest
    rcases hk with rfl | rfl
    · exact lexFrom_shown (best_int hw hrest) rfl offset
    · exact lexFrom_shown (best_float hw hrest) rfl offset
  · intro offset body rest hbody
    have hw : Kind.blockComment.Spells ('/' :: '*' :: (body ++ closing)) :=
      spells_blockComment_iff.2 ⟨body, rfl, hbody⟩
    have hlex := lexFrom_passed (best_blockComment hw rest) rfl offset
    rw [List.cons_append, List.cons_append] at hlex
    rw [hlex, utf8ByteSize_ofList_cons, utf8ByteSize_ofList_cons, utf8ByteSize_ofList_append]
    congr 1
    have hclosing : (String.ofList closing).utf8ByteSize = 2 := by decide
    rw [hclosing]
    change offset + (1 + (1 + _)) = _
    omega

/-- An exponent without digits, a comment that nothing closes and one that is closed twice. -/
theorem lex_maximal_munch_malformed :
    Munched 0 "1e+x".toList [⟨.int, "1", 0⟩, ⟨.identifier, "e", 1⟩, ⟨.operator .add, "+", 2⟩,
      ⟨.identifier, "x", 3⟩, ⟨.endOfInput, "", 4⟩] ∧
    (StandsAlone '&' ['x'] ∧
      lexFrom 0 0 ['&', 'x'] = ⟨.unknown, "&", 0⟩ :: lexFrom 0 1 ['x']) ∧
    (¬closing <:+: ['x'] ∧
      lexFrom 0 0 ['/', '*', 'x'] = ⟨.operator .div, "/", 0⟩ :: lexFrom 0 1 ['*', 'x']) ∧
    ¬closing <:+: ['x', '*'] ∧
      lexFrom 0 0 ['/', '*', 'x', '*', '/', '*', '/'] = lexFrom 0 5 ['*', '/'] := by
  obtain ⟨hlex, halone, hopen, -, hclosed⟩ := lex_maximal_munch
  have hand : StandsAlone '&' ['x'] := by simp [StandsAlone]
  have hx : ¬closing <:+: ['x'] := by decide
  have hxs : ¬closing <:+: ['x'] ++ ['*'] := by decide
  exact ⟨(hlex _ _).2 (by decide +kernel), ⟨hand, halone 0 '&' ['x'] hand⟩, ⟨hx, hopen 0 _ hx⟩, hxs,
    hclosed 0 ['x'] _ hxs⟩

end Scriptlet
