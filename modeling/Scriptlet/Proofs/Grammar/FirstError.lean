import Scriptlet.Proofs.Grammar.Bound
import Scriptlet.Proofs.Grammar.Viable

/-!
# Scriptlet.Proofs.Grammar.FirstError

**Errors are found at the first token that is wrong.** Where the rule for programs fails, the tokens
before the one that the error points at are the front of a program, and no program goes on with that
token.

The first half is what viable rules promise. For the second half, one token of lookahead says that
the same error comes up whatever stands behind the token, and bounds do not matter, so this holds
for lists of any length.
-/

namespace Scriptlet.Grammar

open Rule

/-! ### The end of the text -/

/-- None of the tokens is the end of the text. -/
def NoEnd (ts : List Token) : Prop :=
  ∀ t ∈ ts, t.kind ≠ .endOfInput

@[simp] theorem noEnd_nil : NoEnd [] :=
  nofun

@[simp] theorem noEnd_cons {t : Token} {ts : List Token} :
    NoEnd (t :: ts) ↔ t.kind ≠ .endOfInput ∧ NoEnd ts :=
  List.forall_mem_cons

@[simp] theorem noEnd_append {ts us : List Token} : NoEnd (ts ++ us) ↔ NoEnd ts ∧ NoEnd us :=
  List.forall_mem_append

mutual

theorem DerivesExpr.noEnd {us : List Token} {e : Expr} (h : DerivesExpr us e) : NoEnd us := by
  match h with
  | .before ht ha => simpa [ht] using ha.noEnd
  | .after ha ht => simpa [ht] using ha.noEnd
  | .chain ha ht he => simpa [ht] using ⟨ha.noEnd, he.noEnd⟩
  | .atom ha => exact ha.noEnd

theorem DerivesAtom.noEnd {us : List Token} {a : Expr} (h : DerivesAtom us a) : NoEnd us := by
  match h with
  | .int ht _ | .float ht _ | .str ht | .true ht | .false ht | .var ht => simp [ht]
  | .callNone hf hl hr => simp [hf, hl, hr]
  | .call hf hl hargs hr => simpa [hf, hl, hr] using hargs.noEnd
  | .group hl he hr => simpa [hl, hr] using he.noEnd

theorem DerivesArgs.noEnd {us : List Token} {args : List Expr} (h : DerivesArgs us args) :
    NoEnd us := by
  match h with
  | .one he => exact he.noEnd
  | .more he hc hes => simpa [hc] using ⟨he.noEnd, hes.noEnd⟩

end

mutual

theorem DerivesStmt.noEnd {us : List Token} {s : Stmt} (h : DerivesStmt us s) : NoEnd us := by
  match h with
  | .init ht hx hq he hz => simpa [ht, hx, hq, hz] using he.noEnd
  | .declare ht hx hz => simp [ht, hx, hz]
  | .assign hx hq he hz => simpa [hx, hq, hz] using he.noEnd
  | .eval he hz => simpa [hz] using he.noEnd
  | .branch hi hl hc hr hyes =>
    simpa [hi, hl, hr] using ⟨hc.noEnd, hyes.noEnd⟩
  | .branchElse hi hl hc hr hyes ho hno =>
    simpa [hi, hl, hr, ho] using ⟨hc.noEnd, hyes.noEnd, hno.noEnd⟩
  | .loop hi hl hc hr hbody =>
    simpa [hi, hl, hr] using ⟨hc.noEnd, hbody.noEnd⟩
  | .ret hi he hz => simpa [hi, hz] using he.noEnd

theorem DerivesBlock.noEnd {us : List Token} {ss : List Stmt} (h : DerivesBlock us ss) :
    NoEnd us := by
  match h with
  | .block hl hss hr => simpa [hl, hr] using hss.noEnd

theorem DerivesStmts.noEnd {us : List Token} {ss : List Stmt} (h : DerivesStmts us ss) :
    NoEnd us := by
  match h with
  | .nil => exact noEnd_nil
  | .cons hs hss => exact noEnd_append.2 ⟨hs.noEnd, hss.noEnd⟩

end

theorem DerivesParams.noEnd {us : List Token} {ps : List Param} (h : DerivesParams us ps) :
    NoEnd us := by
  induction h with
  | one ht hx => simp [ht, hx]
  | more ht hx hc _ ih => simpa [ht, hx, hc] using ih

theorem DerivesDefinition.noEnd {us : List Token} {f : Function} (h : DerivesDefinition us f) :
    NoEnd us := by
  cases h with
  | noParams ht hf hl hr hbody => simpa [ht, hf, hl, hr] using hbody.noEnd
  | params ht hf hl hps hr hbody =>
    simpa [ht, hf, hl, hr] using ⟨hps.noEnd, hbody.noEnd⟩

/-- A program ends once. -/
theorem DerivesProgram.endsOnce {us : List Token} {p : Program} (h : DerivesProgram us p) :
    EndsOnce us := by
  induction h with
  | @done t ht => exact ⟨[], t, rfl, ht, nofun⟩
  | @more ts us f p hf _ ih =>
    obtain ⟨body, last, rfl, hlast, hbody⟩ := ih
    exact ⟨ts ++ body, last, (List.append_assoc ..).symm, hlast,
      noEnd_append.2 ⟨hf.noEnd, hbody⟩⟩

/-! ### Errors -/

/-- An error does not depend on what comes after the token that it points at. -/
theorem readProgram_error_of_head {taken after : List Token} {t : Token} {e : SyntaxError}
    (h : readProgram (taken ++ t :: after) = .error e (t :: after)) (w : List Token) :
    readProgram (taken ++ t :: w) = .error e (t :: w) := by
  -- a bound that is enough for both lists
  let n := (taken ++ t :: after).length + (taken ++ t :: w).length + 1
  have hlong : ∀ ts : List Token, ts.length < n → readProgram ts = definitions n n ts := by
    intro ts hts
    have hsame : SameBelow (ts.length + 1) (definitions (ts.length + 1) (ts.length + 1))
        (definitions n n) :=
      definitions_sameBelow (Nat.le_refl _) hts (Nat.le_refl _) hts
    exact hsame ts (Nat.lt_succ_self _)
  rw [hlong _ (by omega)] at h ⊢
  exact (oneAhead_definitions n n).same taken (t :: after) (t :: w) (.error e) rfl h

/-- **The first wrong token.** If a list that ends once cannot be read as a program, the error
points at one of its tokens. Those before it can be continued to a program, but not with this one:
whatever comes after it, the same error is reported. -/
theorem readProgram_first_error {ts rest : List Token} {e : SyntaxError} (hts : EndsOnce ts)
    (h : readProgram ts = .error e rest) :
    ∃ taken t after, ts = taken ++ t :: after ∧ rest = t :: after ∧ e.PointsAt rest ∧
      (∃ u p, readProgram.result (taken ++ u) = .ok p) ∧
      ∀ w, readProgram.result (taken ++ t :: w) = .error e := by
  obtain ⟨hpoints, taken, rfl, vs, p, hp⟩ := (definitions_viable _ _).on ts e rest h
  have hread := hp.readProgram_eq []
  cases rest with
  | nil =>
    -- all tokens would be taken, but then they are a program already
    rw [List.append_nil] at hts h hread
    obtain ⟨body, last, rfl, hlast, -⟩ := hts
    rw [hp.endsOnce.eq_nil hlast, List.append_nil, h] at hread
    cases hread
  | cons t after =>
    rw [List.append_nil] at hread
    refine ⟨taken, t, after, rfl, rfl, hpoints, ⟨vs, p, result_eq_ok_iff.2 ⟨[], hread⟩⟩, ?_⟩
    intro w
    rw [Rule.result, readProgram_error_of_head h w]

/-- The first wrong token of `int f() { int x ) ; }` is the parenthesis. -/
theorem readProgram_first_error_declaration :
    ∃ ts rest e,
      ts = [⟨.type .int, "int", 0⟩, ⟨.identifier, "f", 4⟩, ⟨.mark .openParen, "(", 5⟩,
        ⟨.mark .closeParen, ")", 6⟩, ⟨.mark .openBrace, "\x7b", 8⟩, ⟨.type .int, "int", 10⟩,
        ⟨.identifier, "x", 14⟩, ⟨.mark .closeParen, ")", 16⟩, ⟨.mark .semicolon, ";", 18⟩,
        ⟨.mark .closeBrace, "\x7d", 20⟩] ++ [⟨.endOfInput, "", 21⟩] ∧
      EndsOnce ts ∧ readProgram ts = .error e rest ∧
      ∃ taken t after, ts = taken ++ t :: after ∧ rest = t :: after ∧ e.PointsAt rest ∧
        (∃ u p, readProgram.result (taken ++ u) = .ok p) ∧
        ∀ w, readProgram.result (taken ++ t :: w) = .error e := by
  refine ⟨_, _, _, rfl, ?ends, rfl, readProgram_first_error ?ends rfl⟩
  case ends => exact ⟨_, _, rfl, rfl, by decide⟩

end Scriptlet.Grammar
