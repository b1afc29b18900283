import Mathlib.Data.List.Forall2
import Scriptlet.Proofs.Grammar.Viable

/-!
# Scriptlet.Proofs.Grammar.Offsets

**Offsets do not matter.** No rule decides anything by the offset of a token; offsets only go into
errors. A rule that is `Blind` gives, on tokens whose offsets are all set to zero, the answer that
it gives on the tokens themselves, with the offsets in it set to zero.

Which offset an error has follows from what viable rules promise: an error points at the first of
the tokens that are left over. So two lists that differ in their offsets only are read as the same
program, or they have the same error at the same place.
-/

namespace Scriptlet

/-! ### Without offsets -/

namespace Token

/-- The token with its offset set to zero. -/
def unplaced (t : Token) : Token :=
  { t with offset := 0 }

/-- The tokens have the same kind and the same lexeme. -/
def Alike (t t' : Token) : Prop :=
  t'.kind = t.kind ∧ t'.lexeme = t.lexeme

theorem alike_iff {t t' : Token} : Alike t t' ↔ t.unplaced = t'.unplaced := by
  simp [Alike, unplaced, eq_comm]

theorem forall_alike_iff {ts ts' : List Token} :
    List.Forall₂ Alike ts ts' ↔ ts.map unplaced = ts'.map unplaced := by
  rw [← List.forall₂_eq_eq_eq, List.forall₂_map_left_iff, List.forall₂_map_right_iff]
  exact ⟨.imp fun _ _ => alike_iff.1, .imp fun _ _ => alike_iff.2⟩

end Token

namespace SyntaxError

/-- The error with its offset set to zero. -/
def unplaced : SyntaxError → SyntaxError
  | unexpectedToken expected found _ => .unexpectedToken expected found 0
  | expressionExpected found _ => .expressionExpected found 0
  | literalTooLarge literal _ => .literalTooLarge literal 0
  | unexpectedEnd expected => .unexpectedEnd expected

/-- An error that points at a list has the offset of its first token. -/
theorem PointsAt.offset?_eq {e : SyntaxError} {ts : List Token} (h : e.PointsAt ts) :
    e.offset? = ts.head?.map Token.offset := by
  cases ts with
  | nil =>
    obtain ⟨expected, rfl⟩ := h
    rfl
  | cons t ts =>
    obtain ⟨expected, rfl⟩ | rfl | rfl := h <;> rfl

end SyntaxError

namespace Rule

variable {α β : Type}

/-- The answer of a rule with all offsets set to zero. -/
def unplaced :
    EStateM.Result SyntaxError (List Token) α → EStateM.Result SyntaxError (List Token) α
  | .ok a rest => .ok a (rest.map Token.unplaced)
  | .error e rest => .error e.unplaced (rest.map Token.unplaced)

/-- The rule does not look at offsets. -/
def Blind (r : Rule α) : Prop :=
  ∀ ts, r (ts.map Token.unplaced) = unplaced (r ts)

@[simp] theorem kindAt_unplaced (ts : List Token) (n : Nat) :
    kindAt (ts.map Token.unplaced) n = kindAt ts n := by
  rw [kindAt, kindAt, List.getElem?_map]
  cases ts[n]? <;> rfl

/-! ### Building rules -/

theorem blind_pure (a : α) : Blind (pure a) :=
  fun _ => rfl

theorem blind_peek : Blind peek := by
  intro ts
  rw [peek, kindAt_unplaced]
  rfl

theorem blind_advance : Blind advance := by
  intro ts
  rw [advance, ← List.map_tail]
  rfl

theorem blind_fail (expected : Expected) : Blind (fail expected : Rule α) := by
  intro ts
  cases ts <;> rfl

theorem blind_exhausted : Blind (exhausted : Rule α) :=
  blind_fail .expression

theorem Blind.bind {x : Rule α} {f : α → Rule β} (hx : Blind x) (hf : ∀ a, Blind (f a)) :
    Blind (x >>= f) := by
  intro ts
  change EStateM.bind x f _ = unplaced (EStateM.bind x f ts)
  rw [EStateM.bind, EStateM.bind, hx]
  cases x ts with
  | ok a rest => exact hf a rest
  | error e rest => rfl

theorem Blind.map {x : Rule α} (hx : Blind x) (g : α → β) : Blind (g <$> x) := by
  rw [map_eq_pure_bind]
  exact hx.bind fun a => blind_pure (g a)

/-- A token that has been read may be used in what follows, but not its offset. -/
theorem blind_expectAs_bind {expected : Expected} {k : Kind} {f : Token → Rule β}
    (hf : ∀ t, Blind (f t)) (hunplaced : ∀ t, f t.unplaced = f t) :
    Blind (expectAs expected k >>= f) := by
  intro ts
  cases ts with
  | nil => rfl
  | cons t rest =>
    change EStateM.bind (expectAs expected k) f (t.unplaced :: rest.map Token.unplaced) =
      unplaced (EStateM.bind (expectAs expected k) f (t :: rest))
    rw [EStateM.bind, EStateM.bind, expectAs, expectAs]
    by_cases hk : t.kind = k
    · rw [if_pos hk, if_pos (show t.unplaced.kind = k from hk)]
      dsimp only
      rw [hunplaced]
      exact hf t rest
    · rw [if_neg hk, if_neg (show ¬t.unplaced.kind = k from hk)]
      rfl

theorem blind_expect_bind {k : Kind} {r : Rule β} (hr : Blind r) :
    Blind (expect k >>= fun _ => r) :=
  blind_expectAs_bind (fun _ => hr) fun _ => rfl

theorem blind_name : Blind name :=
  blind_expectAs_bind (fun t => blind_pure t.lexeme) fun _ => rfl

theorem blind_type : Blind type := by
  refine blind_peek.bind fun k => ?_
  split
  · exact blind_advance.bind fun _ => blind_pure _
  · exact blind_fail _

theorem Blind.items {item : Rule α} (hitem : Blind item) (closing : Kind) (n : Nat) :
    Blind (items item closing n) := by
  induction n with
  | zero => exact blind_exhausted
  | succ n ih =>
    refine hitem.bind fun a ts => ?_
    cases ts with
    | nil => rfl
    | cons t rest =>
      have hkind : t.unplaced.kind = t.kind := rfl
      simp only [List.map_cons, hkind]
      split
      · exact ih.map (a :: ·) rest
      · split <;> rfl

theorem Blind.listOf {item : Rule α} (hitem : Blind item) (closing : Kind) (bound : Nat) :
    Blind (listOf bound item closing) := by
  refine blind_peek.bind fun k => ?_
  split
  · exact blind_advance.bind fun _ => blind_pure []
  · exact hitem.items closing bound

end Rule

namespace Grammar

open Rule

/-! ### Expressions -/

theorem blind_atom {expression : Rule Expr} (hexpr : Blind expression) (bound : Nat) :
    Blind (atom bound expression) := by
  intro ts
  cases ts with
  | nil => rfl
  | cons t rest =>
    have hkind : t.unplaced.kind = t.kind := rfl
    have hlexeme : t.unplaced.lexeme = t.lexeme := rfl
    simp only [List.map_cons, atom, hkind, hlexeme]
    split
    case h_1 => cases Decimal.readInt64? t.lexeme <;> rfl
    case h_2 => cases Decimal.readFloat? t.lexeme <;> rfl
    case h_6 =>
      rw [kindAt_unplaced]
      split
      · rw [← List.map_tail]
        exact (hexpr.listOf _ bound).map _ rest.tail
      · rfl
    case h_7 => exact hexpr.bind (fun e => blind_expect_bind (blind_pure e)) rest
    all_goals rfl

theorem blind_chainOnto {atom : Rule Expr} (hatom : Blind atom) (n : Nat)
    (pending : List (Expr × BinOp)) : Blind (chainOnto atom n pending) := by
  induction n generalizing pending with
  | zero => exact blind_exhausted
  | succ n ih =>
    refine blind_peek.bind fun k => ?_
    split
    · exact blind_advance.bind fun _ => hatom.bind fun _ => blind_pure _
    · refine hatom.bind fun e => blind_peek.bind fun k => ?_
      split
      · exact blind_advance.bind fun _ => blind_pure _
      · exact blind_advance.bind fun _ => ih _
      · exact blind_pure _

theorem blind_expression (n : Nat) : Blind (expression n) := by
  induction n with
  | zero => exact blind_exhausted
  | succ n ih => exact blind_chainOnto (blind_atom ih n) (n + 1) []

/-! ### Statements -/

theorem blind_ended (s : Stmt) : Blind (ended s) :=
  blind_expect_bind (blind_pure s)

section Statements

variable {expression : Rule Expr} (hexpr : Blind expression)

include hexpr

theorem blind_endedExpression (f : Expr → Stmt) : Blind (expression >>= fun e => ended (f e)) :=
  hexpr.bind fun e => blind_ended (f e)

theorem blind_condition : Blind (condition expression) :=
  blind_expect_bind (hexpr.bind fun e => blind_expect_bind (blind_pure e))

theorem blind_declaration : Blind (declaration expression) := by
  refine blind_type.bind fun t => blind_name.bind fun x => blind_peek.bind fun k => ?_
  split
  · exact blind_advance.bind fun _ => blind_endedExpression hexpr _
  · exact blind_ended _
  · exact blind_fail _

theorem blind_simple : Blind (simple expression) := by
  intro ts
  simp only [simple, kindAt_unplaced]
  split
  · exact (blind_name.bind fun x => blind_advance.bind fun _ =>
      blind_endedExpression hexpr (.assign x)) ts
  · exact blind_endedExpression hexpr .eval ts

end Statements

theorem blind_alternative {block : Rule (List Stmt)} (hblock : Blind block) :
    Blind (alternative block) := by
  refine blind_peek.bind fun k => ?_
  split
  · exact blind_advance.bind fun _ => hblock
  · exact blind_pure []

theorem blind_statementOf {expression : Rule Expr} {block : Rule (List Stmt)}
    (hexpr : Blind expression) (hblock : Blind block) : Blind (statementOf expression block) := by
  refine blind_peek.bind fun k => ?_
  split
  · exact blind_advance.bind fun _ => blind_endedExpression hexpr _
  · exact blind_advance.bind fun _ => (blind_condition hexpr).bind fun _ => hblock.bind fun _ =>
      (blind_alternative hblock).bind fun _ => blind_pure _
  · exact blind_advance.bind fun _ => (blind_condition hexpr).bind fun _ => hblock.bind fun _ =>
      blind_pure _
  · exact blind_declaration hexpr
  · exact blind_simple hexpr

theorem blind_statements {statement : Rule Stmt} (hstmt : Blind statement) (n : Nat) :
    Blind (statements statement n) := by
  induction n with
  | zero => exact blind_exhausted
  | succ n ih =>
    refine blind_peek.bind fun k => ?_
    split
    · exact blind_advance.bind fun _ => blind_pure []
    · exact blind_fail _
    · exact hstmt.bind fun s => ih.bind fun ss => blind_pure (s :: ss)

theorem blind_blockOf {statement : Rule Stmt} (hstmt : Blind statement) (bound : Nat) :
    Blind (blockOf bound statement) :=
  blind_expect_bind (blind_statements hstmt bound)

theorem blind_statement (n : Nat) : Blind (statement n) := by
  induction n with
  | zero => exact blind_exhausted
  | succ n ih => exact blind_statementOf (blind_expression (n + 1)) (blind_blockOf ih n)

/-! ### Programs -/

theorem blind_param : Blind param :=
  blind_type.bind fun _ => blind_name.bind fun _ => blind_pure _

theorem blind_definition (bound : Nat) : Blind (definition bound) :=
  blind_type.bind fun _ => blind_name.bind fun _ => blind_expect_bind <|
    (blind_param.listOf _ bound).bind fun _ => (blind_blockOf (blind_statement bound) bound).bind
      fun _ => blind_pure _

theorem blind_definitions (bound n : Nat) : Blind (definitions bound n) := by
  induction n with
  | zero => exact blind_exhausted
  | succ n ih =>
    refine blind_peek.bind fun k => ?_
    split
    · exact (blind_definition bound).bind fun f => ih.bind fun p => blind_pure (f :: p)
    · exact blind_expectAs_bind (fun _ => blind_pure []) fun _ => rfl

theorem blind_readProgram : Blind readProgram := by
  intro ts
  rw [readProgram, List.length_map]
  exact blind_definitions _ _ ts

/-- Readings of two lists of tokens that are alike: the same program, or the same error, with the
offsets that the tokens at one index have in their lists. -/
inductive SameReading (ts ts' : List Token) :
    Except SyntaxError Program → Except SyntaxError Program → Prop
  | ok (p : Program) : SameReading ts ts' (.ok p) (.ok p)
  | error {e e' : SyntaxError} (i : Nat) (hsame : e'.unplaced = e.unplaced)
      (hoffset : e.offset? = ts[i]?.map Token.offset)
      (hoffset' : e'.offset? = ts'[i]?.map Token.offset) :
      SameReading ts ts' (.error e) (.error e')

/-- Tokens that are alike are read alike. -/
theorem readProgram_sameReading {ts ts' : List Token} (h : List.Forall₂ Token.Alike ts ts') :
    SameReading ts ts' (readProgram.result ts) (readProgram.result ts') := by
  have hlength := h.length_eq
  have hblind : unplaced (readProgram ts) = unplaced (readProgram ts') := by
    rw [← blind_readProgram, ← blind_readProgram, Token.forall_alike_iff.1 h]
  rw [Rule.result, Rule.result]
  cases hrun : readProgram ts with
  | ok p rest =>
    cases hrun' : readProgram ts' with
    | ok p' rest' =>
      rw [hrun, hrun'] at hblind
      obtain ⟨rfl, -⟩ : p = p' ∧ rest.map Token.unplaced = rest'.map Token.unplaced := by
        simpa [unplaced] using hblind
      exact .ok p
    | error e' rest' =>
      rw [hrun, hrun'] at hblind
      cases hblind
  | error e rest =>
    cases hrun' : readProgram ts' with
    | ok p' rest' =>
      rw [hrun, hrun'] at hblind
      cases hblind
    | error e' rest' =>
      rw [hrun, hrun'] at hblind
      obtain ⟨hsame, hrest⟩ : e.unplaced = e'.unplaced ∧
          rest.map Token.unplaced = rest'.map Token.unplaced := by simpa [unplaced] using hblind
      obtain ⟨hpoints, us, rfl, -⟩ := (definitions_viable _ _).on ts e rest hrun
      obtain ⟨hpoints', us', rfl, -⟩ := (definitions_viable _ _).on ts' e' rest' hrun'
      have hindex : us'.length = us.length := by
        have hlen := congrArg List.length hrest
        rw [List.length_map, List.length_map] at hlen
        rw [List.length_append, List.length_append] at hlength
        omega
      refine .error us.length hsame.symm ?_ ?_
      · rw [hpoints.offset?_eq, List.getElem?_append_right (Nat.le_refl _), Nat.sub_self,
          List.head?_eq_getElem?]
      · rw [hpoints'.offset?_eq, ← hindex, List.getElem?_append_right (Nat.le_refl _), Nat.sub_self,
          List.head?_eq_getElem?]

end Grammar

end Scriptlet
