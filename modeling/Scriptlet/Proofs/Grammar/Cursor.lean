import Scriptlet.Proofs.Grammar.FirstError
import Scriptlet.Proofs.Token.Boundary

/-!
# Scriptlet.Proofs.Grammar.Cursor

**Errors sit at the cursor.** A rule that fails stands before the token that its error is about, or
behind the last token if its error is that there are no more. This holds of every public rule and of
every list of tokens, whether or not the list has a token for the end of its text.

Such a token is never taken, except by the rule for programs as the last of its tokens. So on the
tokens of a text, or on what any rules have left over of them, no rule runs out of tokens, and each
error has the offset of a place where the text goes on with the lexeme that the error shows.

All rules but that for programs are treated at once: what they read are phrases in which the end of
the text does not occur (`ReadsPart.exists_phrases`).
-/

namespace Scriptlet

/-! ### What an error is about -/

namespace SyntaxError

/-- The lexeme that an error shows. -/
def found? : SyntaxError → Option String
  | unexpectedToken _ found _ => some found
  | expressionExpected found _ => some found
  | literalTooLarge literal _ => some literal
  | unexpectedEnd _ => none

/-- The error shows the token and its offset. -/
def IsAbout (e : SyntaxError) (t : Token) : Prop :=
  (∃ expected, e = .unexpectedToken expected t.lexeme t.offset) ∨
    e = .expressionExpected t.lexeme t.offset ∨ e = .literalTooLarge t.lexeme t.offset

theorem pointsAt_cons {e : SyntaxError} {t : Token} {ts : List Token} :
    e.PointsAt (t :: ts) ↔ e.IsAbout t := Iff.rfl

theorem IsAbout.ne_unexpectedEnd {e : SyntaxError} {t : Token} (h : e.IsAbout t)
    (expected : Expected) : e ≠ .unexpectedEnd expected := by
  obtain ⟨_, rfl⟩ | rfl | rfl := h <;> simp

theorem IsAbout.fields {e : SyntaxError} {t : Token} (h : e.IsAbout t) :
    e.offset? = some t.offset ∧ e.found? = some t.lexeme := by
  obtain ⟨_, rfl⟩ | rfl | rfl := h <;> exact ⟨rfl, rfl⟩

end SyntaxError

/-- A token is written in the text where its offset says. -/
theorem Tiled.exists_around {source before : String} {ts : List Token}
    (h : Tiled source before ts) :
    ∀ t ∈ ts, ∃ u w, source = u ++ (t.lexeme ++ w) ∧ t.offset = u.utf8ByteSize := by
  induction h with
  | last =>
    refine List.forall_mem_singleton.2 ⟨source, "", ?_, rfl⟩
    rw [String.append_empty, String.append_empty]
  | @next before gap after t ts hsource _ hoffset _ _ _ ih =>
    refine List.forall_mem_cons.2 ⟨⟨before ++ gap, after, ?_, hoffset⟩, ih⟩
    rwa [← String.append_assoc]

namespace Grammar

open Rule

variable {α : Type}

/-- Where the rule fails after a number of tokens, its error is about the token with that index, or
it has taken all tokens and there are none left. -/
def FailsAtCursor (r : Rule α) : Prop :=
  ∀ ts e rest, r ts = .error e rest → ∃ k, rest = ts.drop k ∧
    ((∃ t, ts[k]? = some t ∧ e.IsAbout t) ∨
      k = ts.length ∧ ∃ expected, e = .unexpectedEnd expected)

/-- What is left over of the tokens starts at the end of the text or before it. -/
def LeavesEnd (ts rest : List Token) : Prop :=
  ∃ taken, ts = taken ++ rest ∧ NoEnd taken

/-- If the rule fails on the tokens, there are some left, the end of the text among them. -/
def FailsBeforeEnd (r : Rule α) (ts : List Token) : Prop :=
  ∀ e rest, r ts = .error e rest →
    LeavesEnd ts rest ∧ ∀ expected, e ≠ .unexpectedEnd expected

/-- The public rules that read a part of a program. -/
inductive ReadsPart : {α : Type} → Rule α → Prop
  | expression : ReadsPart readExpression
  | atom : ReadsPart readAtom
  | statement : ReadsPart readStatement
  | block : ReadsPart readBlock
  | definition : ReadsPart readDefinition

/-! ### Public rules -/

/-- A rule may choose its bound by the list that it is given. -/
theorem reads_of_bound {D : List Token → α → Prop} {r : Nat → Rule α} (h : ∀ n, Reads (r n) D) :
    Reads (fun ts => r (ts.length + 1) ts) D :=
  fun ts => h (ts.length + 1) ts

theorem viable_of_bound {D : List Token → α → Prop} {r : Nat → Rule α} (h : ∀ n, Viable (r n) D) :
    Viable (fun ts => r (ts.length + 1) ts) D :=
  ⟨(h 0).inhabited, fun ts => (h (ts.length + 1)).on ts⟩

theorem boundedAtom_reads (n : Nat) : Reads (atom n (expression n)) DerivesAtom :=
  atom_reads (expression_reads n)

theorem boundedAtom_viable (n : Nat) : Viable (atom n (expression n)) DerivesAtom :=
  atom_viable (expression_reads n) (expression_viable n)

theorem block_reads (n : Nat) : Reads (block n) DerivesBlock :=
  blockOf_reads (statement_reads n) n

theorem block_viable (n : Nat) : Viable (block n) DerivesBlock :=
  blockOf_viable (statement_reads n) (statement_viable n) n

/-- The parts of a program are phrases without the end of the text. -/
theorem ReadsPart.exists_phrases {r : Rule α} (h : ReadsPart r) :
    ∃ D : List Token → α → Prop, Reads r D ∧ Viable r D ∧ ∀ us a, D us a → NoEnd us := by
  cases h with
  | expression =>
    exact ⟨DerivesExpr, reads_of_bound expression_reads, viable_of_bound expression_viable,
      fun _ _ => DerivesExpr.noEnd⟩
  | atom =>
    exact ⟨DerivesAtom, reads_of_bound boundedAtom_reads, viable_of_bound boundedAtom_viable,
      fun _ _ => DerivesAtom.noEnd⟩
  | statement =>
    exact ⟨DerivesStmt, reads_of_bound statement_reads, viable_of_bound statement_viable,
      fun _ _ => DerivesStmt.noEnd⟩
  | block =>
    exact ⟨DerivesBlock, reads_of_bound block_reads, viable_of_bound block_viable,
      fun _ _ => DerivesBlock.noEnd⟩
  | definition =>
    exact ⟨DerivesDefinition, reads_of_bound definition_reads, viable_of_bound definition_viable,
      fun _ _ => DerivesDefinition.noEnd⟩

theorem readProgram_reads : Reads readProgram DerivesProgram :=
  reads_of_bound fun n => definitions_reads n n

theorem readProgram_viable : Viable readProgram DerivesProgram :=
  viable_of_bound fun n => definitions_viable n n

/-! ### The cursor -/

/-- A rule that begins a phrase and cannot end it fails where it stands. -/
theorem Viable.failsAtCursor {D : List Token → α → Prop} {r : Rule α} (h : Viable r D) :
    FailsAtCursor r := by
  intro ts e rest hfail
  obtain ⟨hpoints, taken, rfl, -⟩ := h.on ts e rest hfail
  refine ⟨taken.length, List.drop_left.symm, ?_⟩
  cases rest with
  | nil => exact .inr ⟨by rw [List.append_nil], hpoints⟩
  | cons t rest => exact .inl ⟨t, by simp, SyntaxError.pointsAt_cons.1 hpoints⟩

/-! ### The end of the text -/

/-- Of a list that ends once, the part behind any of its tokens ends once, and the part in front of
it does not end. -/
theorem EndsOnce.split {us vs : List Token} (h : EndsOnce (us ++ vs)) (hvs : vs ≠ []) :
    NoEnd us ∧ EndsOnce vs := by
  obtain ⟨body, last, heq, hlast, hbody⟩ := h
  obtain rfl | ⟨vs, v, rfl⟩ := List.eq_nil_or_concat vs
  · exact absurd rfl hvs
  · rw [List.concat_eq_append, ← List.append_assoc] at heq
    obtain ⟨rfl, hv⟩ := List.append_inj' heq rfl
    obtain rfl := List.singleton_inj.1 hv
    obtain ⟨hus, hvs⟩ := noEnd_append.1 hbody
    exact ⟨hus, vs, v, List.concat_eq_append, hlast, hvs⟩

/-- What is left over of tokens that end is not empty. -/
theorem LeavesEnd.exists_cons {ts rest : List Token} (h : LeavesEnd ts rest) (hts : EndsOnce ts) :
    ∃ t after, rest = t :: after := by
  obtain ⟨taken, rfl, htaken⟩ := h
  obtain ⟨body, last, heq, hlast, -⟩ := hts
  cases rest with
  | cons t after => exact ⟨t, after, rfl⟩
  | nil =>
    rw [List.append_nil] at heq
    rw [heq, noEnd_append, noEnd_cons] at htaken
    exact absurd hlast htaken.2.1

theorem failsBeforeEnd_of_leavesEnd {D : List Token → α → Prop} {r : Rule α} (h : Viable r D)
    {ts : List Token} (hts : EndsOnce ts)
    (hleaves : ∀ e rest, r ts = .error e rest → LeavesEnd ts rest) : FailsBeforeEnd r ts := by
  intro e rest hfail
  refine ⟨hleaves e rest hfail, ?_⟩
  obtain ⟨hpoints, -⟩ := h.on ts e rest hfail
  obtain ⟨t, after, rfl⟩ := (hleaves e rest hfail).exists_cons hts
  exact (SyntaxError.pointsAt_cons.1 hpoints).ne_unexpectedEnd

theorem ReadsPart.leavesEnd_of_ok {r : Rule α} (h : ReadsPart r) {ts rest : List Token} {a : α}
    (hrun : r ts = .ok a rest) : LeavesEnd ts rest := by
  obtain ⟨D, hread, -, hend⟩ := h.exists_phrases
  obtain ⟨taken, hts, hD⟩ := hread ts a rest hrun
  exact ⟨taken, hts, hend taken a hD⟩

theorem ReadsPart.leavesEnd_of_error {r : Rule α} (h : ReadsPart r) {ts rest : List Token}
    {e : SyntaxError} (hrun : r ts = .error e rest) : LeavesEnd ts rest := by
  obtain ⟨D, -, hviable, hend⟩ := h.exists_phrases
  obtain ⟨-, taken, hts, more, a, hD⟩ := hviable.on ts e rest hrun
  exact ⟨taken, hts, (noEnd_append.1 (hend _ a hD)).1⟩

/-- A program whose end has been taken is a program. -/
theorem readProgram_leavesEnd {ts rest : List Token} {e : SyntaxError}
    (hrun : readProgram ts = .error e rest) : LeavesEnd ts rest := by
  obtain ⟨-, taken, rfl, more, p, hp⟩ := readProgram_viable.on ts e rest hrun
  refine ⟨taken, rfl, ?_⟩
  cases more with
  | nil =>
    rw [List.append_nil] at hp
    rw [hp.readProgram_eq rest] at hrun
    cases hrun
  | cons t more => exact (hp.endsOnce.split (List.cons_ne_nil t more)).1

/-- A program takes all tokens up to the end. -/
theorem readProgram_takes_all {ts rest : List Token} {p : Program} (hts : EndsOnce ts)
    (hrun : readProgram ts = .ok p rest) : rest = [] := by
  obtain ⟨taken, rfl, hp⟩ := readProgram_reads ts p rest hrun
  obtain ⟨body, last, rfl, hlast⟩ := hp.exists_end
  exact hts.eq_nil hlast

/-! ### Errors in a text -/

theorem lex_endsOnce (source : String) : EndsOnce (Token.lex source) := by
  obtain ⟨body, hbody, hend⟩ := (tiled_lex source).exists_body
  exact ⟨body, _, hbody, rfl, fun t ht => (hend t ht).1⟩

/-- The lists that any rules can leave over of the tokens of a text, unless they take the end. -/
theorem endsOnce_of_suffix {source : String} {ts : List Token} (hts : ts <:+ Token.lex source)
    (hne : ts ≠ []) : EndsOnce ts := by
  obtain ⟨taken, htaken⟩ := hts
  have hends := lex_endsOnce source
  rw [← htaken] at hends
  exact (hends.split hne).2

/-- The error has the offset of a place between two characters of the text, and there the text goes
on with the lexeme that the error shows. -/
def PointsInto (source : String) (e : SyntaxError) : Prop :=
  ∃ offset found, e.offset? = some offset ∧ e.found? = some found ∧
    offset ≤ source.utf8ByteSize ∧ String.Pos.Raw.IsValid source ⟨offset⟩ ∧
    ∃ after, textFrom source offset = found ++ after

theorem result_eq_error_iff {r : Rule α} {ts : List Token} {e : SyntaxError} :
    r.result ts = .error e ↔ ∃ rest, r ts = .error e rest := by
  unfold Rule.result
  cases r ts with
  | ok a rest => simp
  | error e' rest => simp

theorem parse_error_pointsInto {source : String} {e : SyntaxError}
    (h : Program.parse source = .error e) : PointsInto source e := by
  obtain ⟨rest, hfail⟩ := result_eq_error_iff.1 h
  obtain ⟨hpoints, -⟩ := readProgram_viable.on _ e rest hfail
  have hleaves := readProgram_leavesEnd hfail
  obtain ⟨t, after, rfl⟩ := hleaves.exists_cons (lex_endsOnce source)
  obtain ⟨taken, hlex, -⟩ := hleaves
  have ht : t ∈ Token.lex source := by
    rw [hlex]
    exact List.mem_append_right taken (List.mem_cons_self ..)
  obtain ⟨u, w, rfl, hoffset⟩ := (tiled_lex source).exists_around t ht
  obtain ⟨hoffset', hfound⟩ := (SyntaxError.pointsAt_cons.1 hpoints).fields
  rw [hoffset] at hoffset'
  refine ⟨_, _, hoffset', hfound, ?_, isValid_append u _, w, textFrom_append u _⟩
  rw [String.utf8ByteSize_append]
  exact Nat.le_add_right _ _

/-- **Errors sit at the cursor and point into the text.** Wherever a public rule fails, on whatever
tokens, its error is about the token that it stands before, or about there being none. On the tokens
of a text, and on the tokens that are left over of them, no rule runs out of tokens, and only a
program that is read to its end takes the token for it. The error of a text that is no program has
an offset in that text, where the lexeme stands that it shows. -/
theorem errors_at_cursor :
    ((∀ {α : Type} {r : Rule α}, ReadsPart r → FailsAtCursor r) ∧ FailsAtCursor readProgram) ∧
    (∀ (source : String) (ts : List Token), ts <:+ Token.lex source → ts ≠ [] →
      (∀ {α : Type} {r : Rule α}, ReadsPart r →
        FailsBeforeEnd r ts ∧ ∀ a rest, r ts = .ok a rest → LeavesEnd ts rest) ∧
      FailsBeforeEnd readProgram ts ∧ ∀ p rest, readProgram ts = .ok p rest → rest = []) ∧
    ∀ (source : String) (e : SyntaxError), Program.parse source = .error e →
      PointsInto source e := by
  refine ⟨⟨fun hr => ?_, readProgram_viable.failsAtCursor⟩, fun source ts hts hne => ?_,
    fun _ _ => parse_error_pointsInto⟩
  · obtain ⟨D, -, hviable, -⟩ := hr.exists_phrases
    exact hviable.failsAtCursor
  · have hends := endsOnce_of_suffix hts hne
    refine ⟨fun hr => ⟨?_, fun _ _ => hr.leavesEnd_of_ok⟩, ?_,
      fun _ _ => readProgram_takes_all hends⟩
    · obtain ⟨D, -, hviable, -⟩ := hr.exists_phrases
      exact failsBeforeEnd_of_leavesEnd hviable hends fun _ _ => hr.leavesEnd_of_error
    · exact failsBeforeEnd_of_leavesEnd readProgram_viable hends fun _ _ => readProgram_leavesEnd

/-- A parameter that starts with an unknown character of two bytes, and a name before the end of the
text. -/
theorem errors_at_cursor_parameter :
    (∃ (source : String) (ts : List Token) (e : SyntaxError),
      source = "int f(é" ∧ e = .unexpectedToken .type "é" 6 ∧
      ReadsPart readDefinition ∧ FailsAtCursor readDefinition ∧
      ts <:+ Token.lex source ∧ ts ≠ [] ∧ FailsBeforeEnd readDefinition ts ∧
      Program.parse source = .error e ∧ PointsInto source e) ∧
    ∃ rest, ReadsPart readExpression ∧ readExpression (Token.lex "x") = .ok (.var "x") rest ∧
      LeavesEnd (Token.lex "x") rest := by
  have hlex : Token.lex "int f(é" = [⟨.type .int, "int", 0⟩, ⟨.identifier, "f", 4⟩,
      ⟨.mark .openParen, "(", 5⟩, ⟨.unknown, "é", 6⟩, ⟨.endOfInput, "", 8⟩] := by decide +kernel
  have hne : Token.lex "int f(é" ≠ [] := by
    rw [hlex]
    exact List.cons_ne_nil _ _
  have hparse : Program.parse "int f(é" = .error (.unexpectedToken .type "é" 6) := by
    rw [Program.parse, hlex]
    rfl
  have hname : Token.lex "x" = [⟨.identifier, "x", 0⟩, ⟨.endOfInput, "", 1⟩] := by decide +kernel
  have hname_ne : Token.lex "x" ≠ [] := by
    rw [hname]
    exact List.cons_ne_nil _ _
  have hread : readExpression (Token.lex "x") = .ok (.var "x") [⟨.endOfInput, "", 1⟩] := by
    rw [hname]
    rfl
  obtain ⟨⟨hcursor, -⟩, hend, hpoints⟩ := errors_at_cursor
  have hsuffix := fun source => List.suffix_refl (Token.lex source)
  exact ⟨⟨_, _, _, rfl, rfl, .definition, hcursor .definition, hsuffix _, hne,
      ((hend _ _ (hsuffix _) hne).1 .definition).1, hparse, hpoints _ _ hparse⟩,
    _, .expression, hread, ((hend _ _ (hsuffix _) hname_ne).1 .expression).2 _ _ hread⟩

end Grammar

end Scriptlet
