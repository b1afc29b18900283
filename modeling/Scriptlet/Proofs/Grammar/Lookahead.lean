import Scriptlet.Proofs.Grammar.Rule
import Scriptlet.Grammar.Source

/-!
# Scriptlet.Proofs.Grammar.Lookahead

**One token ahead.** What a rule answers depends on the tokens that it takes and on the one after
them, and on nothing behind that. `OneAhead` says so of a value as well as of an error.

The rules of the grammar choose by the next kind, so the property is handed on by the ways to build
rules. The one rule that looks two tokens ahead, for assignments, does so only where it takes the
first of them.
-/

namespace Scriptlet

namespace Rule

variable {α β : Type}

/-- What a rule answers: a value or an error, and the tokens left over. -/
def answer (o : Except SyntaxError α) (rest : List Token) :
    EStateM.Result SyntaxError (List Token) α :=
  match o with
  | .ok a => .ok a rest
  | .error e => .error e rest

theorem exists_answer (x : EStateM.Result SyntaxError (List Token) α) :
    ∃ o rest, x = answer o rest := by
  cases x with
  | ok a rest => exact ⟨.ok a, rest, rfl⟩
  | error e rest => exact ⟨.error e, rest, rfl⟩

theorem answer_inj {o o' : Except SyntaxError α} {rest rest' : List Token} :
    answer o rest = answer o' rest' ↔ o = o' ∧ rest = rest' := by
  cases o <;> cases o' <;> simp [answer]

/-- A rule leaves over a part of its tokens, and it gives the same answer where the tokens left over
are replaced by others that start with the same one. -/
structure OneAhead (r : Rule α) : Prop where
  suffix : ∀ ts o rest, r ts = answer o rest → rest <:+ ts
  same : ∀ us ts ts' o, ts.head? = ts'.head? → r (us ++ ts) = answer o ts →
    r (us ++ ts') = answer o ts'

/-! ### Building rules -/

theorem eq_or_cons_of_head? {ts ts' : List Token} (h : ts.head? = ts'.head?) :
    ts = ts' ∨ ∃ t vs vs', ts = t :: vs ∧ ts' = t :: vs' := by
  cases ts with
  | nil => exact .inl (List.head?_eq_none_iff.1 h.symm).symm
  | cons t vs =>
    obtain ⟨vs', rfl⟩ := List.head?_eq_some_iff.1 h.symm
    exact .inr ⟨t, vs, vs', rfl, rfl⟩

theorem head?_append_congr {us ts ts' : List Token} (h : ts.head? = ts'.head?) :
    (us ++ ts).head? = (us ++ ts').head? := by
  rw [List.head?_append, List.head?_append, h]

/-- Where `t` comes first, the rule takes it and goes on with one that looks a token ahead. -/
def Takes (r : Rule α) (t : Token) : Prop :=
  ∃ q : Rule α, OneAhead q ∧ ∀ ts, r (t :: ts) = q ts

/-- A rule that is described by its first token: it takes it, or it does what another rule does. -/
theorem oneAhead_of_head {r : Rule α} {o : Except SyntaxError α} (hnil : r [] = answer o [])
    (hcons : ∀ t, Takes r t ∨ ∃ q : Rule α, OneAhead q ∧ ∀ ts, r (t :: ts) = q (t :: ts)) :
    OneAhead r where
  suffix ts o' rest h := by
    cases ts with
    | nil =>
      rw [hnil, answer_inj] at h
      obtain ⟨-, rfl⟩ := h
      exact List.suffix_refl []
    | cons t ts =>
      rcases hcons t with ⟨q, hq, hr⟩ | ⟨q, hq, hr⟩
      · exact (hq.suffix ts o' rest (hr ts ▸ h)).trans (List.suffix_cons t ts)
      · exact hq.suffix (t :: ts) o' rest (hr ts ▸ h)
  same us ts ts' o' hhead h := by
    cases us with
    | cons t us =>
      rw [List.cons_append] at h ⊢
      rcases hcons t with ⟨q, hq, hr⟩ | ⟨q, hq, hr⟩
      · rw [hr] at h ⊢
        exact hq.same us ts ts' o' hhead h
      · rw [hr] at h ⊢
        exact hq.same (t :: us) ts ts' o' hhead h
    | nil =>
      rcases eq_or_cons_of_head? hhead with rfl | ⟨t, vs, vs', rfl, rfl⟩
      · exact h
      · rw [List.nil_append] at h ⊢
        rcases hcons t with ⟨q, hq, hr⟩ | ⟨q, hq, hr⟩
        · -- the first token is taken, so it cannot be left over
          have hle := (hq.suffix vs o' (t :: vs) (hr vs ▸ h)).length_le
          rw [List.length_cons] at hle
          omega
        · rw [hr] at h ⊢
          exact hq.same [] (t :: vs) (t :: vs') o' rfl h

/-- A rule that takes nothing and looks at the first token only. -/
theorem oneAhead_of_untaken {r : Rule α} {g : Option Token → Except SyntaxError α}
    (hr : ∀ ts, r ts = answer (g ts.head?) ts) : OneAhead r where
  suffix ts o rest h := by
    rw [hr, answer_inj] at h
    obtain ⟨-, rfl⟩ := h
    exact List.suffix_refl ts
  same us ts ts' o hhead h := by
    rw [hr, answer_inj, List.append_left_eq_self] at h
    obtain ⟨rfl, rfl⟩ := h
    rw [List.nil_append, List.nil_append, hr, hhead]

theorem oneAhead_pure (a : α) : OneAhead (pure a) :=
  @oneAhead_of_untaken _ _ (fun _ => .ok a) fun _ => rfl

theorem oneAhead_peek : OneAhead peek := by
  refine @oneAhead_of_untaken _ _ (fun t => .ok (t.elim .endOfInput Token.kind)) fun ts => ?_
  cases ts <;> rfl

theorem oneAhead_fail (expected : Expected) : OneAhead (fail expected : Rule α) := by
  refine @oneAhead_of_untaken _ _ (fun
    | none => .error (.unexpectedEnd expected)
    | some t => .error (.unexpectedToken expected t.lexeme t.offset)) fun ts => ?_
  cases ts <;> rfl

theorem oneAhead_error (e : SyntaxError) : OneAhead (EStateM.Result.error e : Rule α) :=
  @oneAhead_of_untaken _ _ (fun _ => .error e) fun _ => rfl

theorem oneAhead_exhausted : OneAhead (exhausted : Rule α) :=
  oneAhead_fail .expression

theorem oneAhead_advance : OneAhead advance :=
  oneAhead_of_head (o := .ok ()) rfl fun _ => .inl ⟨pure (), oneAhead_pure (), fun _ => rfl⟩

theorem OneAhead.bind {x : Rule α} {f : α → Rule β} (hx : OneAhead x) (hf : ∀ a, OneAhead (f a)) :
    OneAhead (x >>= f) where
  suffix ts o rest h := by
    change EStateM.bind x f ts = answer o rest at h
    rw [EStateM.bind] at h
    cases hrun : x ts with
    | error e us =>
      rw [hrun] at h
      change answer (.error e) us = answer o rest at h
      obtain ⟨-, rfl⟩ := answer_inj.1 h
      exact hx.suffix ts (.error e) us hrun
    | ok a us =>
      rw [hrun] at h
      exact ((hf a).suffix us o rest h).trans (hx.suffix ts (.ok a) us hrun)
  same us ts ts' o hhead h := by
    change EStateM.bind x f _ = _ at h
    change EStateM.bind x f _ = _
    rw [EStateM.bind] at h ⊢
    cases hrun : x (us ++ ts) with
    | error e rest =>
      rw [hrun] at h
      change answer (.error e) rest = answer o ts at h
      obtain ⟨rfl, rfl⟩ := answer_inj.1 h
      rw [hx.same us rest ts' (.error e) hhead hrun]
      rfl
    | ok a rest =>
      rw [hrun] at h
      -- the second rule starts somewhere in `us`, or right behind it
      obtain ⟨vs, rfl⟩ := (hf a).suffix rest o ts h
      obtain ⟨ws, hws⟩ := hx.suffix _ (.ok a) _ hrun
      rw [← List.append_assoc, List.append_left_inj] at hws
      subst hws
      rw [List.append_assoc] at hrun
      rw [List.append_assoc,
        hx.same ws (vs ++ ts) (vs ++ ts') (.ok a) (head?_append_congr hhead) hrun]
      exact (hf a).same vs ts ts' o hhead h

theorem OneAhead.map {x : Rule α} (hx : OneAhead x) (g : α → β) : OneAhead (g <$> x) := by
  rw [map_eq_pure_bind]
  exact hx.bind fun a => oneAhead_pure (g a)

theorem Takes.peek {f : Kind → Rule α} {t : Token} (h : Takes (f t.kind) t) :
    Takes (peek >>= f) t :=
  h

theorem Takes.bind {x : Rule α} {f : α → Rule β} {t : Token} (hx : Takes x t)
    (hf : ∀ a, OneAhead (f a)) : Takes (x >>= f) t := by
  obtain ⟨q, hq, hr⟩ := hx
  refine ⟨q >>= f, hq.bind hf, fun ts => ?_⟩
  change EStateM.bind x f (t :: ts) = EStateM.bind q f ts
  rw [EStateM.bind, EStateM.bind, hr]

/-! ### Tokens and lists -/

theorem oneAhead_expectAs (expected : Expected) (k : Kind) : OneAhead (expectAs expected k) := by
  refine oneAhead_of_head (o := .error (.unexpectedEnd expected)) rfl fun t => ?_
  by_cases hk : t.kind = k
  · exact .inl ⟨pure t, oneAhead_pure t, fun _ => if_pos hk⟩
  · exact .inr ⟨fail expected, oneAhead_fail expected, fun _ => if_neg hk⟩

theorem oneAhead_expect (k : Kind) : OneAhead (expect k) :=
  oneAhead_expectAs _ k

theorem oneAhead_name : OneAhead name :=
  (oneAhead_expect _).bind fun t => oneAhead_pure t.lexeme

theorem oneAhead_type : OneAhead type := by
  refine oneAhead_peek.bind fun k => ?_
  split
  · exact oneAhead_advance.bind fun _ => oneAhead_pure _
  · exact oneAhead_fail _

theorem OneAhead.items {item : Rule α} (hitem : OneAhead item) (closing : Kind) (n : Nat) :
    OneAhead (items item closing n) := by
  induction n with
  | zero => exact oneAhead_exhausted
  | succ n ih =>
    refine hitem.bind fun a => ?_
    refine oneAhead_of_head (o := .error (.unexpectedEnd (.kind closing))) rfl fun t => ?_
    by_cases hcomma : t.kind = .mark .comma
    · exact .inl ⟨_, ih.map (a :: ·), fun _ => if_pos hcomma⟩
    · by_cases hclosing : t.kind = closing
      · exact .inl ⟨_, oneAhead_pure [a], fun _ => (if_neg hcomma).trans (if_pos hclosing)⟩
      · exact .inr ⟨_, oneAhead_fail (.commaOr closing),
          fun _ => (if_neg hcomma).trans (if_neg hclosing)⟩

theorem OneAhead.listOf {item : Rule α} (hitem : OneAhead item) (closing : Kind) (bound : Nat) :
    OneAhead (listOf bound item closing) := by
  refine oneAhead_peek.bind fun k => ?_
  split
  · exact oneAhead_advance.bind fun _ => oneAhead_pure []
  · exact hitem.items closing bound

end Rule

namespace Grammar

open Rule

/-! ### Expressions -/

/-- An atom that starts with a name takes it, also where it turns out to be a call. -/
theorem takes_atom {bound : Nat} {expression : Rule Expr} (hexpr : OneAhead expression)
    {t : Token} (ht : t.kind = .identifier) : Takes (atom bound expression) t := by
  refine ⟨peek >>= fun k =>
    if k = .mark .openParen then
      advance >>= fun _ => Expr.call t.lexeme <$> listOf bound expression (.mark .closeParen)
    else pure (.var t.lexeme), oneAhead_peek.bind fun k => ?_, fun ts => ?_⟩
  · split
    · exact oneAhead_advance.bind fun _ => (hexpr.listOf _ bound).map _
    · exact oneAhead_pure _
  · rw [atom, peek_bind]
    simp only [ht]
    split
    · rfl
    · rfl

theorem oneAhead_atom {expression : Rule Expr} (hexpr : OneAhead expression) (bound : Nat) :
    OneAhead (atom bound expression) := by
  refine oneAhead_of_head (o := .error (.unexpectedEnd .expression)) rfl fun t => ?_
  have herror := @oneAhead_error Expr (.expressionExpected t.lexeme t.offset)
  cases hk : t.kind with
  | int =>
    cases hn : Decimal.readInt64? t.lexeme with
    | some n => exact .inl ⟨_, oneAhead_pure (.int n), fun _ => by simp only [atom, hk, hn]; rfl⟩
    | none =>
      exact .inr ⟨_, oneAhead_error (.literalTooLarge t.lexeme t.offset),
        fun _ => by simp only [atom, hk, hn]⟩
  | float =>
    cases hx : Decimal.readFloat? t.lexeme with
    | some x => exact .inl ⟨_, oneAhead_pure (.float x), fun _ => by simp only [atom, hk, hx]; rfl⟩
    | none =>
      exact .inr ⟨_, oneAhead_error (.literalTooLarge t.lexeme t.offset),
        fun _ => by simp only [atom, hk, hx]⟩
  | str => exact .inl ⟨_, oneAhead_pure _, fun _ => by simp only [atom, hk]; rfl⟩
  | keyword k =>
    cases k with
    | true => exact .inl ⟨_, oneAhead_pure _, fun _ => by simp only [atom, hk]; rfl⟩
    | false => exact .inl ⟨_, oneAhead_pure _, fun _ => by simp only [atom, hk]; rfl⟩
    | _ => exact .inr ⟨_, herror, fun _ => by simp only [atom, hk]⟩
  | identifier => exact .inl (takes_atom hexpr hk)
  | mark m =>
    cases m with
    | openParen =>
      refine .inl ⟨_, ?_, fun _ => by simp only [atom, hk]; rfl⟩
      exact hexpr.bind fun e => (oneAhead_expect _).bind fun _ => oneAhead_pure e
    | _ => exact .inr ⟨_, herror, fun _ => by simp only [atom, hk]⟩
  | _ => exact .inr ⟨_, herror, fun _ => by simp only [atom, hk]⟩

theorem oneAhead_chainOnto {atom : Rule Expr} (hatom : OneAhead atom) (n : Nat)
    (pending : List (Expr × BinOp)) : OneAhead (chainOnto atom n pending) := by
  induction n generalizing pending with
  | zero => exact oneAhead_exhausted
  | succ n ih =>
    refine oneAhead_peek.bind fun k => ?_
    split
    · exact oneAhead_advance.bind fun _ => hatom.bind fun _ => oneAhead_pure _
    · refine hatom.bind fun e => oneAhead_peek.bind fun k => ?_
      split
      · exact oneAhead_advance.bind fun _ => oneAhead_pure _
      · exact oneAhead_advance.bind fun _ => ih _
      · exact oneAhead_pure _

theorem oneAhead_expression (n : Nat) : OneAhead (expression n) := by
  induction n with
  | zero => exact oneAhead_exhausted
  | succ n ih => exact oneAhead_chainOnto (oneAhead_atom ih n) (n + 1) []

theorem takes_expression (n : Nat) {t : Token} (ht : t.kind = .identifier) :
    Takes (expression (n + 1)) t := by
  refine .peek ?_
  rw [ht]
  refine (takes_atom (oneAhead_expression n) ht).bind fun e => oneAhead_peek.bind fun k => ?_
  split
  · exact oneAhead_advance.bind fun _ => oneAhead_pure _
  · exact oneAhead_advance.bind fun _ =>
      oneAhead_chainOnto (oneAhead_atom (oneAhead_expression n) n) n _
  · exact oneAhead_pure _

/-! ### Statements -/

theorem oneAhead_ended (s : Stmt) : OneAhead (ended s) :=
  (oneAhead_expect _).bind fun _ => oneAhead_pure s

theorem oneAhead_endedExpression {expression : Rule Expr} (hexpr : OneAhead expression)
    (f : Expr → Stmt) : OneAhead (expression >>= fun e => ended (f e)) :=
  hexpr.bind fun e => oneAhead_ended (f e)

theorem oneAhead_condition {expression : Rule Expr} (hexpr : OneAhead expression) :
    OneAhead (condition expression) :=
  (oneAhead_expect _).bind fun _ => hexpr.bind fun e => (oneAhead_expect _).bind fun _ =>
    oneAhead_pure e

theorem oneAhead_alternative {block : Rule (List Stmt)} (hblock : OneAhead block) :
    OneAhead (alternative block) := by
  refine oneAhead_peek.bind fun k => ?_
  split
  · exact oneAhead_advance.bind fun _ => hblock
  · exact oneAhead_pure []

theorem oneAhead_declaration {expression : Rule Expr} (hexpr : OneAhead expression) :
    OneAhead (declaration expression) := by
  refine oneAhead_type.bind fun t => oneAhead_name.bind fun x => oneAhead_peek.bind fun k => ?_
  split
  · exact oneAhead_advance.bind fun _ => oneAhead_endedExpression hexpr _
  · exact oneAhead_ended _
  · exact oneAhead_fail _

/-- The second token is looked at only behind a name, and the name is taken in any case. -/
theorem oneAhead_simple {expression : Rule Expr} (hexpr : OneAhead expression)
    (hname : ∀ {t : Token}, t.kind = .identifier → Takes expression t) :
    OneAhead (simple expression) := by
  have heval := oneAhead_endedExpression hexpr .eval
  obtain ⟨o, rest, hnil⟩ := exists_answer (simple expression [])
  obtain rfl : rest = [] := List.suffix_nil.1 (heval.suffix [] o rest hnil)
  refine oneAhead_of_head hnil fun t => ?_
  by_cases ht : t.kind = .identifier
  · obtain ⟨q, hq, hr⟩ := (hname ht).bind fun e => oneAhead_ended (.eval e)
    refine .inl ⟨peek >>= fun k =>
      if k = .mark .assign then
        advance >>= fun _ => expression >>= fun e => ended (.assign t.lexeme e)
      else q, oneAhead_peek.bind fun k => ?_, fun ts => ?_⟩
    · split
      · exact oneAhead_advance.bind fun _ => oneAhead_endedExpression hexpr _
      · exact hq
    · rw [simple, peek_bind]
      by_cases hassign : kindAt ts 0 = .mark .assign
      · rw [if_pos ⟨ht, hassign⟩, if_pos hassign, bind_of_ok (name_eq_ok_iff.2 ⟨t, rfl, ht, rfl⟩)]
      · rw [if_neg fun h => hassign h.2, if_neg hassign]
        exact hr ts
  · exact .inr ⟨_, heval, fun ts => if_neg fun h => ht h.1⟩

theorem oneAhead_statementOf {expression : Rule Expr} {block : Rule (List Stmt)}
    (hexpr : OneAhead expression) (hsimple : OneAhead (simple expression))
    (hblock : OneAhead block) : OneAhead (statementOf expression block) := by
  refine oneAhead_peek.bind fun k => ?_
  split
  · exact oneAhead_advance.bind fun _ => oneAhead_endedExpression hexpr _
  · refine oneAhead_advance.bind fun _ => (oneAhead_condition hexpr).bind fun c => ?_
    exact hblock.bind fun yes => (oneAhead_alternative hblock).bind fun no => oneAhead_pure _
  · refine oneAhead_advance.bind fun _ => (oneAhead_condition hexpr).bind fun c => ?_
    exact hblock.bind fun body => oneAhead_pure _
  · exact oneAhead_declaration hexpr
  · exact hsimple

theorem oneAhead_statements {statement : Rule Stmt} (hstmt : OneAhead statement) (n : Nat) :
    OneAhead (statements statement n) := by
  induction n with
  | zero => exact oneAhead_exhausted
  | succ n ih =>
    refine oneAhead_peek.bind fun k => ?_
    split
    · exact oneAhead_advance.bind fun _ => oneAhead_pure []
    · exact oneAhead_fail _
    · exact hstmt.bind fun s => ih.bind fun rest => oneAhead_pure (s :: rest)

theorem oneAhead_blockOf {statement : Rule Stmt} (hstmt : OneAhead statement) (bound : Nat) :
    OneAhead (blockOf bound statement) :=
  (oneAhead_expect _).bind fun _ => oneAhead_statements hstmt bound

theorem oneAhead_statement (n : Nat) : OneAhead (statement n) := by
  induction n with
  | zero => exact oneAhead_exhausted
  | succ n ih =>
    have hexpr := oneAhead_expression (n + 1)
    exact oneAhead_statementOf hexpr (oneAhead_simple hexpr (takes_expression n))
      (oneAhead_blockOf ih n)

/-! ### Programs -/

theorem oneAhead_param : OneAhead param :=
  oneAhead_type.bind fun t => oneAhead_name.bind fun x => oneAhead_pure (Param.mk t x)

theorem oneAhead_definition (bound : Nat) : OneAhead (definition bound) := by
  refine oneAhead_type.bind fun t => oneAhead_name.bind fun f => ?_
  refine (oneAhead_expect _).bind fun _ => (oneAhead_param.listOf _ bound).bind fun ps => ?_
  exact (oneAhead_blockOf (oneAhead_statement bound) bound).bind fun body => oneAhead_pure _

/-- **Programs are read with one token of lookahead.** -/
theorem oneAhead_definitions (bound n : Nat) : OneAhead (definitions bound n) := by
  induction n with
  | zero => exact oneAhead_exhausted
  | succ n ih =>
    refine oneAhead_peek.bind fun k => ?_
    split
    · exact (oneAhead_definition bound).bind fun f => ih.bind fun rest => oneAhead_pure (f :: rest)
    · exact (oneAhead_expectAs _ _).bind fun _ => oneAhead_pure []

end Grammar

end Scriptlet
