import Scriptlet.Evaluate
import Scriptlet.Proofs.Grammar.Offsets
import Scriptlet.Proofs.Token.Cut
import Scriptlet.Proofs.Token.Tiling

/-!
# Scriptlet.Proofs.Grammar.Layout

**Layout does not matter.** The lexemes of a text can be written out again with other white space
between them, and are cut into the same tokens. What stands behind a lexeme could only make it
longer, and white space does not: no lexeme that is shown goes on with a space, and a literal ends
at its own quote. The new tokens differ from the old ones in their offsets, and those do not matter
to the grammar.

`SpacedOut ws text` says that `text` is the words `ws` in their order, with white space between each
two of them.
-/

namespace Scriptlet

/-! ### Lexemes before white space -/

/-- What comes next is white space, if anything comes. -/
def Spaced (rest : List Char) : Prop :=
  ∀ c ∈ rest.head?, isSpace c

theorem eq_of_isSpace {c : Char} (h : isSpace c) :
    c = ' ' ∨ c = '\t' ∨ c = '\r' ∨ c = '\n' ∨ c = '\x0c' := by
  simpa [isSpace, or_assoc] using h

theorem Spaced.separated {rest : List Char} (h : Spaced rest) : Separated rest := by
  intro c hc
  obtain rfl | rfl | rfl | rfl | rfl := eq_of_isSpace (h c hc) <;> decide

/-- Behind a mark or an operator white space starts no literal and no comment. -/
theorem sortOf_symbol_space {k : Kind} {s : String} (hs : k.spelling? = some s)
    (hk : k.isReserved = false) {c : Char} (hc : isSpace c) (u : List Char) :
    sortOf (s.toList ++ c :: u) = .unknown := by
  cases k with
  | mark m =>
    cases hs
    cases m <;> rfl
  | step st =>
    cases hs
    cases st <;> rfl
  | operator op =>
    cases hs
    cases op with
    | div => obtain rfl | rfl | rfl | rfl | rfl := eq_of_isSpace hc <;> rfl
    | _ => rfl
  | keyword => cases hk
  | type => cases hk
  | _ => cases hs

/-- A mark or an operator ends before white space. -/
theorem best_symbol {k : Kind} {s : String} (hs : k.spelling? = some s)
    (hk : k.isReserved = false) {rest : List Char} (hrest : Spaced rest) :
    Best k s.toList (s.toList ++ rest) := by
  refine .of_bound ((Kind.spells_fixed hs).2 rfl) (fun k' w h hw => ?_) (by rintro rfl; cases hs)
  by_contra hlt
  -- a longer lexeme would have the white space in it
  obtain ⟨v, rfl⟩ : s.toList <+: w :=
    List.prefix_of_prefix_length_le (List.prefix_append _ _) hw (Nat.le_of_not_le hlt)
  cases v with
  | nil => simp at hlt
  | cons c u =>
    obtain ⟨tail, rfl⟩ := (List.prefix_append_right_inj _).1 hw
    have hc : isSpace c := hrest c rfl
    cases hk' : k'.spelling? with
    | some s' =>
      have hfixed : ∀ k ∈ Kind.fixed, ∀ s ∈ k.spelling?, s.toList.all fun c => !isSpace c := by
        decide
      have hnone := List.all_eq_true.1 (hfixed k' (mem_fixed hk') s' hk') c
        (by rw [← (Kind.spells_fixed hk').1 h]; simp)
      simp [hc] at hnone
    | none =>
      obtain rfl : .unknown = k' := (sortOf_symbol_space hs hk hc u).symm.trans (sortOf_eq hk' h)
      exact absurd h (Kind.not_spells_unknown _)

/-- The token is a lexeme that some text has been cut into. -/
def Token.IsLexeme (t : Token) : Prop :=
  t.kind.isSkipped = false ∧ ∃ rest, Best t.kind t.lexeme.toList (t.lexeme.toList ++ rest)

theorem Munched.isLexeme {offset : Nat} {cs : List Char} {ts : List Token}
    (h : Munched offset cs ts) :
    ∀ t ∈ ts, t.kind ≠ .unknown → t.kind ≠ .endOfInput → t.IsLexeme := by
  induction h with
  | done => simp
  | @shown offset k w rest ts hbest hk _ ih =>
    refine List.forall_mem_cons.2 ⟨fun _ _ => ⟨Bool.eq_false_iff.2 hk, rest, ?_⟩, ih⟩
    rwa [String.toList_ofList]
  | passed _ _ _ ih => exact ih
  | unknown _ _ ih => exact List.forall_mem_cons.2 ⟨fun h => absurd rfl h, ih⟩

/-- A lexeme before white space is cut off there. -/
theorem Token.IsLexeme.cutsInto {t : Token} (h : t.IsLexeme) {rest : List Char}
    (hrest : Spaced rest) : CutsInto t.lexeme rest (OneToken t.kind t.lexeme) := by
  obtain ⟨k, s, offset⟩ := t
  obtain ⟨hk, _, hbest⟩ := h
  have hsymbol {s' : String} (hs' : k.spelling? = some s') (hres : k.isReserved = false) :
      CutsInto s rest (OneToken k s) := by
    obtain rfl : s = s' := String.toList_injective ((Kind.spells_fixed hs').1 hbest.spells)
    exact .token (best_symbol hs' hres hrest) hk
  cases k with
  | int => exact .token (best_int hbest.spells hrest.separated.numberEnds) rfl
  | float => exact .token (best_float hbest.spells hrest.separated.numberEnds) rfl
  | str => exact .token (best_str hbest.spells rest) rfl
  | char => exact .token (best_char hbest.spells rest) rfl
  | keyword k => exact .token (best_reserved rfl hbest.spells hrest.separated.no_name) rfl
  | type t => exact .token (best_reserved rfl hbest.spells hrest.separated.no_name) rfl
  | identifier =>
    refine .token (best_identifier hbest.spells (fun k hk hspells => ?_) hrest.separated.no_name)
      rfl
    -- a reserved word would have been preferred
    obtain rfl | ⟨hid, -⟩ := hbest.preferred k hspells
    · cases hk
    · cases hid
  | mark m => exact hsymbol rfl rfl
  | step st => exact hsymbol rfl rfl
  | operator op => exact hsymbol rfl rfl
  | unknown => exact absurd hbest.spells (Kind.not_spells_unknown _)
  | endOfInput => exact absurd hbest.spells (Kind.not_spells_endOfInput _)
  | _ => cases hk

/-! ### Texts with other white space -/

/-- The text is the words in their order, with white space between each two of them, and white space
or nothing behind the last. -/
inductive SpacedOut : List String → String → Prop
  | nil : SpacedOut [] ""
  | last (w : String) : SpacedOut [w] w
  | next {ws : List String} {text : String} (w : String) {gap : String} (hne : gap ≠ "")
      (hgap : gap.toList.all isSpace) (hrest : SpacedOut ws text) :
      SpacedOut (w :: ws) (w ++ gap ++ text)

/-- Lexemes with white space between them are cut into tokens like those that they come from. -/
theorem SpacedOut.cutsInto {ts : List Token} {text : String}
    (h : SpacedOut (ts.map Token.lexeme) text) (hts : ∀ t ∈ ts, t.IsLexeme) :
    CutsInto text [] fun us => List.Forall₂ Token.Alike ts us := by
  generalize hws : ts.map Token.lexeme = ws at h
  induction h generalizing ts with
  | nil =>
    rw [List.map_eq_nil_iff] at hws
    rw [hws]
    refine (CutsInto.space rfl []).mono fun us hus => ?_
    rw [hus]
    exact .nil
  | last w =>
    obtain ⟨t, us, rfl, rfl, hus⟩ := List.map_eq_cons_iff.1 hws
    rw [List.map_eq_nil_iff] at hus
    subst hus
    have hend : Spaced [] := nofun
    refine ((hts t (by simp)).cutsInto hend).mono fun us hus => ?_
    obtain ⟨t', rfl, hkind, hlexeme⟩ := hus
    exact .cons ⟨hkind, hlexeme⟩ .nil
  | @next ws text w gap hne hgap _ ih =>
    obtain ⟨t, us, rfl, rfl, hus⟩ := List.map_eq_cons_iff.1 hws
    obtain ⟨ht, hrest⟩ := List.forall_mem_cons.1 hts
    have hspaced : Spaced (gap.toList ++ (text.toList ++ [])) := by
      obtain ⟨d, tail, hd⟩ := List.exists_cons_of_ne_nil (mt String.toList_eq_nil_iff.1 hne)
      rw [hd] at hgap ⊢
      intro c hc
      cases hc
      exact List.all_eq_true.1 hgap d (List.mem_cons_self ..)
    have htoken := (ht.cutsInto hspaced).before_space hgap
    refine (htoken.append (ih hrest hus)).mono fun vs hvs => ?_
    obtain ⟨_, us', rfl, ⟨t', rfl, hkind, hlexeme⟩, hus'⟩ := hvs
    exact .cons ⟨hkind, hlexeme⟩ hus'

/-- The tokens of a text are those of any text with the same lexemes, spaced out. -/
theorem lex_spacedOut {source lead text : String}
    (hsource : ∀ t ∈ Token.lex source, t.kind ≠ .unknown) (hlead : lead.toList.all isSpace)
    (htext : SpacedOut ((Token.lex source).dropLast.map Token.lexeme) text) :
    List.Forall₂ Token.Alike (Token.lex source) (Token.lex (lead ++ text)) := by
  obtain ⟨body, hbody, hend⟩ := (tiled_lex source).exists_body
  have hlexeme : ∀ t ∈ body, t.IsLexeme := by
    intro t ht
    have hmem : t ∈ Token.lex source := by
      rw [hbody]
      exact List.mem_append_left _ ht
    exact (munched_lexFrom 0 source.toList).isLexeme t hmem (hsource t hmem) (hend t ht).1
  rw [hbody, List.dropLast_concat] at htext
  obtain ⟨us, hus, hlex⟩ := CutsInto.after_space hlead (htext.cutsInto hlexeme) 0
  rw [List.append_nil] at hlex
  rw [hbody, Token.lex, hlex]
  exact List.rel_append hus (.cons ⟨rfl, rfl⟩ .nil)

/-- **Layout does not matter.** Lists of tokens that differ in their offsets only are read as the
same program, or with the same error at the same token. And a text without unknown characters has
the same tokens, but for offsets, as every text that has its lexemes in their order with white space
between them, so that it is read alike and, if it is a program, evaluated with the same result. -/
theorem layout_irrelevant :
    (∀ ts ts' : List Token, List.Forall₂ Token.Alike ts ts' →
      Grammar.SameReading ts ts' (Grammar.readProgram.result ts)
        (Grammar.readProgram.result ts')) ∧
    ∀ source lead text : String, (∀ t ∈ Token.lex source, t.kind ≠ .unknown) →
      lead.toList.all isSpace →
      SpacedOut ((Token.lex source).dropLast.map Token.lexeme) text →
        List.Forall₂ Token.Alike (Token.lex source) (Token.lex (lead ++ text)) ∧
        Grammar.SameReading (Token.lex source) (Token.lex (lead ++ text)) (Program.parse source)
          (Program.parse (lead ++ text)) ∧
        ∀ fuel options,
          evaluate fuel options (lead ++ text) = evaluate fuel options source ∨
          ∃ e e', e'.unplaced = e.unplaced ∧ evaluate fuel options source = .malformed e ∧
            evaluate fuel options (lead ++ text) = .malformed e' := by
  refine ⟨fun ts ts' => Grammar.readProgram_sameReading, fun source lead text hsource hlead htext =>
    ?_⟩
  have hlex := lex_spacedOut hsource hlead htext
  have hread : Grammar.SameReading (Token.lex source) (Token.lex (lead ++ text))
      (Program.parse source) (Program.parse (lead ++ text)) := Grammar.readProgram_sameReading hlex
  refine ⟨hlex, hread, fun fuel options => ?_⟩
  rw [evaluate, evaluate]
  generalize Program.parse source = reading at hread ⊢
  generalize Program.parse (lead ++ text) = reading' at hread ⊢
  cases hread with
  | ok p => exact .inl rfl
  | error i hsame => exact .inr ⟨_, _, hsame, rfl, rfl⟩

/-- A program with a comment in it, and a text with the same lexemes on three lines. The blanks in
the literal are not layout. -/
theorem layout_irrelevant_return :
    ∃ (source text : String) (e : Evaluation),
      source = "string main()\x7breturn/* 1 / 2 */\"a  b\";\x7d" ∧
      text = " string main ( )\n\x7b return\n\"a  b\"\t\r; \x7d" ∧
      (Token.lex source).map Token.lexeme =
        ["string", "main", "(", ")", "\x7b", "return", "\"a  b\"", ";", "\x7d", ""] ∧
      List.Forall₂ Token.Alike (Token.lex source) (Token.lex text) ∧
      evaluate 2 {} source = .finished e ∧ e.value = .str "a  b" ∧
      evaluate 2 {} text = .finished e := by
  let source := "string main()\x7breturn/* 1 / 2 */\"a  b\";\x7d"
  have hlex : Token.lex source = [⟨.type .string, "string", 0⟩, ⟨.identifier, "main", 7⟩,
      ⟨.mark .openParen, "(", 11⟩, ⟨.mark .closeParen, ")", 12⟩, ⟨.mark .openBrace, "\x7b", 13⟩,
      ⟨.keyword .return, "return", 14⟩, ⟨.str, "\"a  b\"", 31⟩, ⟨.mark .semicolon, ";", 37⟩,
      ⟨.mark .closeBrace, "\x7d", 38⟩, ⟨.endOfInput, "", 39⟩] := by decide +kernel
  have hparse : Program.parse source = .ok [⟨.string, "main", [], [.ret (.str "a  b")]⟩] := by
    rw [Program.parse, hlex]
    rfl
  obtain ⟨e, hrun, hvalue⟩ : ∃ e, evaluate 2 {} source = .finished e ∧ e.value = .str "a  b" := by
    rw [evaluate, hparse]
    exact ⟨_, rfl, rfl⟩
  have htext : SpacedOut ["string", "main", "(", ")", "\x7b", "return", "\"a  b\"", ";", "\x7d"]
      ("string" ++ " " ++ ("main" ++ " " ++ ("(" ++ " " ++ (")" ++ "\n" ++ ("\x7b" ++ " " ++
        ("return" ++ "\n" ++ ("\"a  b\"" ++ "\t\r" ++ (";" ++ " " ++ "\x7d")))))))) :=
    .next _ (by decide) rfl <| .next _ (by decide) rfl <| .next _ (by decide) rfl <|
      .next _ (by decide) rfl <| .next _ (by decide) rfl <| .next _ (by decide) rfl <|
      .next _ (by decide) rfl <| .next _ (by decide) rfl (.last _)
  obtain ⟨halike, -, heval⟩ := layout_irrelevant.2 source " " _
    (by rw [hlex]; decide) rfl (by rw [hlex]; exact htext)
  obtain hsame | ⟨_, _, -, hmalformed, -⟩ := heval 2 {}
  · exact ⟨source, _, e, rfl, by decide, by rw [hlex]; rfl, halike, hrun, hvalue,
      hsame.trans hrun⟩
  · cases hrun.symm.trans hmalformed

end Scriptlet
