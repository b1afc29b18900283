import Scriptlet.Grammar.Source
import Scriptlet.Proofs.Grammar.Derivation
import Scriptlet.Proofs.Grammar.Rule

/-!
# Scriptlet.Proofs.Grammar.Sound

**What a rule reads is derived.** If a rule succeeds, the tokens it has taken derive the tree that
it gives. `Reads r D` says this of a rule `r` and a relation `D`; each rule gets its instance from
those of the rules it calls. Bounds do not matter here: a rule that runs out of its bound fails.
-/

namespace Scriptlet.Grammar

open Rule

/-- A rule takes tokens that are related to what it gives. -/
def Reads {α : Type} (r : Rule α) (D : List Token → α → Prop) : Prop :=
  ∀ ts a rest, r ts = .ok a rest → ∃ us, ts = us ++ rest ∧ D us a

theorem reads_exhausted {α : Type} (D : List Token → α → Prop) : Reads exhausted D :=
  fun _ _ _ h => absurd h exhausted_ne_ok

/-! ### Lists of items -/

/-- Items up to a closing token, given how items are put before a list of items. -/
theorem items_reads {α : Type} {item : Rule α} {closing : Kind} {D : List Token → α → Prop}
    {Ds : List Token → List α → Prop} (hitem : Reads item D)
    (hone : ∀ {us a}, D us a → Ds us [a])
    (hmore : ∀ {us vs a as} {c : Token}, D us a → c.kind = .mark .comma → Ds vs as →
      Ds (us ++ c :: vs) (a :: as))
    (n : Nat) :
    Reads (items item closing n) fun us as =>
      ∃ vs r, us = vs ++ [r] ∧ r.kind = closing ∧ Ds vs as := by
  induction n with
  | zero => exact reads_exhausted _
  | succ n ih =>
    intro ts as rest h
    rw [items] at h
    replace h := bind_eq_ok_iff.1 h
    obtain ⟨a, us, ha, h⟩ := h
    obtain ⟨ws, rfl, hda⟩ := hitem _ _ _ ha
    cases us with
    | nil => cases h
    | cons t us =>
      -- after an item comes a comma and more items, or the closing token
      change ite _ _ _ = _ at h
      split at h
      · rename_i ht
        rw [map_eq_ok_iff] at h
        obtain ⟨as, h, rfl⟩ := h
        obtain ⟨_, rfl, vs, r, rfl, hr, hds⟩ := ih _ _ _ h
        exact ⟨ws ++ t :: (vs ++ [r]), by simp, ws ++ t :: vs, r, by simp, hr, hmore hda ht hds⟩
      · split at h
        · rename_i ht
          cases h
          exact ⟨ws ++ [t], by simp, ws, t, rfl, ht, hone hda⟩
        · exact nomatch h

/-- A list is its closing token alone, or items and the closing token. -/
theorem listOf_reads {α : Type} {bound : Nat} {item : Rule α} {closing : Kind}
    {Ds : List Token → List α → Prop} (hclosing : closing ≠ .endOfInput)
    (hitems : Reads (items item closing bound) fun us as =>
      ∃ vs r, us = vs ++ [r] ∧ r.kind = closing ∧ Ds vs as) :
    Reads (listOf bound item closing) fun us as =>
      ∃ vs r, us = vs ++ [r] ∧ r.kind = closing ∧ (vs = [] ∧ as = [] ∨ Ds vs as) := by
  intro ts as rest h
  rw [listOf, peek_bind] at h
  split at h
  · rename_i hk
    obtain ⟨t, us, rfl, ht⟩ := exists_of_kindAt hk hclosing
    obtain ⟨rfl, rfl⟩ := pure_eq_ok_iff.1 h
    exact ⟨[t], rfl, [], t, rfl, ht, .inl ⟨rfl, rfl⟩⟩
  · obtain ⟨_, rfl, vs, r, rfl, hr, hds⟩ := hitems _ _ _ h
    exact ⟨_, rfl, vs, r, rfl, hr, .inr hds⟩

/-! ### Expressions -/

theorem joinChain_cons (a : Expr) (op : BinOp) (pending : List (Expr × BinOp)) (e : Expr) :
    joinChain ((a, op) :: pending) e = joinChain pending (.binary a op e) := rfl

/-- A chain read after some operands joins them to an expression. -/
theorem chainOnto_reads {atom : Rule Expr} (hatom : Reads atom DerivesAtom) (n : Nat)
    (pending : List (Expr × BinOp)) :
    Reads (chainOnto atom n pending) fun us e =>
      ∃ e', DerivesExpr us e' ∧ e = joinChain pending e' := by
  induction n generalizing pending with
  | zero => exact reads_exhausted _
  | succ n ih =>
    intro ts e rest h
    rw [chainOnto, peek_bind] at h
    generalize hk : kindAt ts 0 = k at h
    split at h
    · -- a step in front of an atom ends the chain
      obtain ⟨t, us, rfl, ht⟩ := exists_of_kindAt hk (by simp)
      rw [advance_bind] at h
      rw [bind_eq_ok_iff] at h
      obtain ⟨a, vs, ha, h⟩ := h
      obtain ⟨rfl, rfl⟩ := pure_eq_ok_iff.1 h
      obtain ⟨ws, hws, hda⟩ := hatom _ _ _ ha
      exact ⟨t :: ws, congrArg (t :: ·) hws, _, .before ht hda, rfl⟩
    · rw [bind_eq_ok_iff] at h
      obtain ⟨a, vs, ha, h⟩ := h
      obtain ⟨ws, rfl, hda⟩ := hatom _ _ _ ha
      rw [peek_bind] at h
      generalize hk : kindAt vs 0 = k at h
      split at h
      · obtain ⟨t, us, rfl, ht⟩ := exists_of_kindAt hk (by simp)
        obtain ⟨rfl, rfl⟩ := pure_eq_ok_iff.1 h
        exact ⟨ws ++ [t], by simp, _, .after hda ht, rfl⟩
      · -- an operator: the operand waits until the rest of the chain is read
        obtain ⟨t, us, rfl, ht⟩ := exists_of_kindAt hk (by simp)
        rw [advance_bind] at h
        obtain ⟨xs, hxs, e', he', rfl⟩ := ih _ _ _ _ h
        obtain rfl : us = xs ++ rest := hxs
        exact ⟨ws ++ t :: xs, by simp, _, .chain hda ht he', joinChain_cons ..⟩
      · obtain ⟨rfl, rfl⟩ := pure_eq_ok_iff.1 h
        exact ⟨ws, rfl, a, .atom hda, rfl⟩

/-- The arguments of a call, closing parenthesis included. -/
theorem args_reads {bound : Nat} {expression : Rule Expr} (h : Reads expression DerivesExpr) :
    Reads (listOf bound expression (.mark .closeParen)) fun us args =>
      ∃ vs r, us = vs ++ [r] ∧ r.kind = .mark .closeParen ∧
        (vs = [] ∧ args = [] ∨ DerivesArgs vs args) :=
  listOf_reads (by simp) (items_reads h .one .more bound)

theorem atom_reads {bound : Nat} {expression : Rule Expr} (hexpr : Reads expression DerivesExpr) :
    Reads (atom bound expression) DerivesAtom := by
  intro ts a rest h
  cases ts with
  | nil => exact nomatch h
  | cons t ts =>
    rw [atom] at h
    split at h
    · rename_i ht
      split at h
      · rename_i hn
        cases h
        exact ⟨[t], rfl, .int ht hn⟩
      · exact nomatch h
    · rename_i ht
      split at h
      · rename_i hx
        cases h
        exact ⟨[t], rfl, .float ht hx⟩
      · exact nomatch h
    · rename_i ht
      cases h
      exact ⟨[t], rfl, .str ht⟩
    · rename_i ht
      cases h
      exact ⟨[t], rfl, .true ht⟩
    · rename_i ht
      cases h
      exact ⟨[t], rfl, .false ht⟩
    · rename_i ht
      -- a name is a call exactly if a parenthesis follows
      split at h
      · rename_i hk
        obtain ⟨l, us, rfl, hl⟩ := exists_of_kindAt hk (by simp)
        rw [map_eq_ok_iff] at h
        obtain ⟨args, h, rfl⟩ := h
        obtain ⟨_, hus, vs, r, rfl, hr, hargs⟩ := args_reads hexpr _ _ _ h
        obtain rfl : us = vs ++ [r] ++ rest := hus
        rcases hargs with ⟨rfl, rfl⟩ | hargs
        · exact ⟨[t, l, r], rfl, .callNone ht hl hr⟩
        · exact ⟨t :: l :: (vs ++ [r]), rfl, .call ht hl hargs hr⟩
      · cases h
        exact ⟨[t], rfl, .var ht⟩
    · rename_i ht
      rw [bind_eq_ok_iff] at h
      obtain ⟨e, us, he, h⟩ := h
      obtain ⟨ws, rfl, hde⟩ := hexpr _ _ _ he
      rw [bind_eq_ok_iff] at h
      obtain ⟨r, vs, hexp, h⟩ := h
      obtain ⟨rfl, hr⟩ := expect_eq_ok_iff.1 hexp
      obtain ⟨rfl, rfl⟩ := pure_eq_ok_iff.1 h
      exact ⟨t :: (ws ++ [r]), by simp, .group ht hde hr⟩
    · exact nomatch h

theorem expression_reads (n : Nat) : Reads (expression n) DerivesExpr := by
  induction n with
  | zero => exact reads_exhausted _
  | succ n ih =>
    intro ts e rest h
    obtain ⟨us, hus, e', he, rfl⟩ := chainOnto_reads (atom_reads ih) (n + 1) [] ts e rest h
    exact ⟨us, hus, he⟩

/-! ### Statements -/

theorem ended_eq_ok_iff {s s' : Stmt} {ts rest : List Token} :
    ended s ts = .ok s' rest ↔ s = s' ∧ ∃ z, ts = z :: rest ∧ z.kind = .mark .semicolon := by
  rw [ended, bind_eq_ok_iff]
  constructor
  · intro h
    obtain ⟨z, us, hexp, h⟩ := h
    obtain ⟨rfl, hz⟩ := expect_eq_ok_iff.1 hexp
    obtain ⟨rfl, rfl⟩ := pure_eq_ok_iff.1 h
    exact ⟨rfl, z, rfl, hz⟩
  · intro h
    obtain ⟨rfl, z, rfl, hz⟩ := h
    exact ⟨z, rest, expect_eq_ok_iff.2 ⟨rfl, hz⟩, rfl⟩

/-- An expression and the semicolon after it. -/
theorem endedExpression_reads {expression : Rule Expr} (hexpr : Reads expression DerivesExpr)
    (f : Expr → Stmt) :
    Reads (expression >>= fun e => ended (f e)) fun us s =>
      ∃ ts z e, us = ts ++ [z] ∧ DerivesExpr ts e ∧ z.kind = .mark .semicolon ∧ s = f e := by
  intro ts s rest h
  rw [bind_eq_ok_iff] at h
  obtain ⟨e, us, he, h⟩ := h
  obtain ⟨ws, rfl, hde⟩ := hexpr _ _ _ he
  obtain ⟨rfl, z, rfl, hz⟩ := ended_eq_ok_iff.1 h
  exact ⟨ws ++ [z], by simp, ws, z, e, rfl, hde, hz, rfl⟩

theorem condition_reads {expression : Rule Expr} (hexpr : Reads expression DerivesExpr) :
    Reads (condition expression) fun us c =>
      ∃ l ts r, us = l :: (ts ++ [r]) ∧ l.kind = .mark .openParen ∧ DerivesExpr ts c ∧
        r.kind = .mark .closeParen := by
  intro ts c rest h
  rw [condition, bind_eq_ok_iff] at h
  obtain ⟨l, us, hexp, h⟩ := h
  obtain ⟨rfl, hl⟩ := expect_eq_ok_iff.1 hexp
  rw [bind_eq_ok_iff] at h
  obtain ⟨e, vs, he, h⟩ := h
  obtain ⟨ws, rfl, hde⟩ := hexpr _ _ _ he
  rw [bind_eq_ok_iff] at h
  obtain ⟨r, xs, hexp, h⟩ := h
  obtain ⟨rfl, hr⟩ := expect_eq_ok_iff.1 hexp
  obtain ⟨rfl, rfl⟩ := pure_eq_ok_iff.1 h
  exact ⟨l :: (ws ++ [r]), by simp, l, ws, r, rfl, hl, hde, hr⟩

theorem alternative_reads {block : Rule (List Stmt)} (hblock : Reads block DerivesBlock) :
    Reads (alternative block) fun us no =>
      us = [] ∧ no = [] ∨ ∃ o vs, us = o :: vs ∧ o.kind = .keyword .else ∧ DerivesBlock vs no := by
  intro ts no rest h
  rw [alternative, peek_bind] at h
  generalize hk : kindAt ts 0 = k at h
  split at h
  · obtain ⟨o, us, rfl, ho⟩ := exists_of_kindAt hk (by simp)
    obtain ⟨vs, hvs, hno⟩ := hblock _ _ _ h
    exact ⟨o :: vs, congrArg (o :: ·) hvs, .inr ⟨o, vs, rfl, ho, hno⟩⟩
  · obtain ⟨rfl, rfl⟩ := pure_eq_ok_iff.1 h
    exact ⟨[], rfl, .inl ⟨rfl, rfl⟩⟩

theorem declaration_reads {expression : Rule Expr} (hexpr : Reads expression DerivesExpr) :
    Reads (declaration expression) DerivesStmt := by
  intro ts s rest h
  rw [declaration, bind_eq_ok_iff] at h
  obtain ⟨ty, us, hty, h⟩ := h
  obtain ⟨t, rfl, ht⟩ := type_eq_ok_iff.1 hty
  rw [bind_eq_ok_iff] at h
  obtain ⟨_, vs, hname, h⟩ := h
  obtain ⟨x, rfl, hx, rfl⟩ := name_eq_ok_iff.1 hname
  rw [peek_bind] at h
  generalize hk : kindAt vs 0 = k at h
  split at h
  · obtain ⟨q, us, rfl, hq⟩ := exists_of_kindAt hk (by simp)
    rw [advance_bind] at h
    obtain ⟨_, hus, ws, z, e, rfl, he, hz, rfl⟩ := endedExpression_reads hexpr _ _ _ _ h
    obtain rfl : us = ws ++ [z] ++ rest := hus
    exact ⟨t :: x :: q :: (ws ++ [z]), rfl, .init ht hx hq he hz⟩
  · obtain ⟨rfl, z, rfl, hz⟩ := ended_eq_ok_iff.1 h
    exact ⟨[t, x, z], rfl, .declare ht hx hz⟩
  · exact absurd h fail_ne_ok

theorem simple_reads {expression : Rule Expr} (hexpr : Reads expression DerivesExpr) :
    Reads (simple expression) DerivesStmt := by
  intro ts s rest h
  rw [simple] at h
  split at h
  · rename_i hk
    rw [bind_eq_ok_iff] at h
    obtain ⟨_, us, hname, h⟩ := h
    obtain ⟨x, rfl, hx, rfl⟩ := name_eq_ok_iff.1 hname
    obtain ⟨q, us, rfl, hq⟩ := exists_of_kindAt hk.2 (by simp)
    rw [advance_bind] at h
    obtain ⟨_, hus, ws, z, e, rfl, he, hz, rfl⟩ := endedExpression_reads hexpr _ _ _ _ h
    obtain rfl : us = ws ++ [z] ++ rest := hus
    exact ⟨x :: q :: (ws ++ [z]), rfl, .assign hx hq he hz⟩
  · obtain ⟨_, rfl, ws, z, e, rfl, he, hz, rfl⟩ := endedExpression_reads hexpr _ _ _ _ h
    exact ⟨ws ++ [z], rfl, .eval he hz⟩

theorem statementOf_reads {expression : Rule Expr} {block : Rule (List Stmt)}
    (hexpr : Reads expression DerivesExpr) (hblock : Reads block DerivesBlock) :
    Reads (statementOf expression block) DerivesStmt := by
  intro ts s rest h
  rw [statementOf, peek_bind] at h
  generalize hk : kindAt ts 0 = k at h
  -- the first token decides: `return`, `if`, `while`, a type, or anything else
  split at h
  · obtain ⟨i, us, rfl, hi⟩ := exists_of_kindAt hk (by simp)
    rw [advance_bind] at h
    obtain ⟨_, hus, ws, z, e, rfl, he, hz, rfl⟩ := endedExpression_reads hexpr _ _ _ _ h
    obtain rfl : us = ws ++ [z] ++ rest := hus
    exact ⟨i :: (ws ++ [z]), rfl, .ret hi he hz⟩
  · obtain ⟨i, us, rfl, hi⟩ := exists_of_kindAt hk (by simp)
    rw [advance_bind, bind_eq_ok_iff] at h
    obtain ⟨c, vs, hcond, h⟩ := h
    obtain ⟨_, hus, l, ws, r, rfl, hl, hc, hr⟩ := condition_reads hexpr _ _ _ hcond
    obtain rfl : us = l :: (ws ++ [r]) ++ vs := hus
    rw [bind_eq_ok_iff] at h
    obtain ⟨yes, xs, hb, h⟩ := h
    obtain ⟨bs, rfl, hyes⟩ := hblock _ _ _ hb
    rw [bind_eq_ok_iff] at h
    obtain ⟨no, ys, ha, h⟩ := h
    obtain ⟨as, rfl, hno⟩ := alternative_reads hblock _ _ _ ha
    obtain ⟨rfl, rfl⟩ := pure_eq_ok_iff.1 h
    rcases hno with ⟨rfl, rfl⟩ | ⟨o, vs, rfl, ho, hno⟩
    · exact ⟨i :: l :: (ws ++ r :: bs), by simp, .branch hi hl hc hr hyes⟩
    · exact ⟨i :: l :: (ws ++ r :: (bs ++ o :: vs)), by simp,
        .branchElse hi hl hc hr hyes ho hno⟩
  · obtain ⟨i, us, rfl, hi⟩ := exists_of_kindAt hk (by simp)
    rw [advance_bind, bind_eq_ok_iff] at h
    obtain ⟨c, vs, hcond, h⟩ := h
    obtain ⟨_, hus, l, ws, r, rfl, hl, hc, hr⟩ := condition_reads hexpr _ _ _ hcond
    obtain rfl : us = l :: (ws ++ [r]) ++ vs := hus
    rw [bind_eq_ok_iff] at h
    obtain ⟨body, xs, hb, h⟩ := h
    obtain ⟨bs, rfl, hbody⟩ := hblock _ _ _ hb
    obtain ⟨rfl, rfl⟩ := pure_eq_ok_iff.1 h
    exact ⟨i :: l :: (ws ++ r :: bs), by simp, .loop hi hl hc hr hbody⟩
  · exact declaration_reads hexpr _ _ _ h
  · exact simple_reads hexpr _ _ _ h

/-- Statements up to the closing brace of their block. -/
theorem statements_reads {statement : Rule Stmt} (hstmt : Reads statement DerivesStmt) (n : Nat) :
    Reads (statements statement n) fun us ss =>
      ∃ vs r, us = vs ++ [r] ∧ r.kind = .mark .closeBrace ∧ DerivesStmts vs ss := by
  induction n with
  | zero => exact reads_exhausted _
  | succ n ih =>
    intro ts ss rest h
    rw [statements, peek_bind] at h
    generalize hk : kindAt ts 0 = k at h
    split at h
    · obtain ⟨r, us, rfl, hr⟩ := exists_of_kindAt hk (by simp)
      obtain ⟨rfl, rfl⟩ := pure_eq_ok_iff.1 h
      exact ⟨[r], rfl, [], r, rfl, hr, .nil⟩
    · -- the end of the text inside a block
      exact absurd h fail_ne_ok
    · rw [bind_eq_ok_iff] at h
      obtain ⟨s, us, hs, h⟩ := h
      obtain ⟨ws, rfl, hds⟩ := hstmt _ _ _ hs
      rw [bind_eq_ok_iff] at h
      obtain ⟨ss, xs, hss, h⟩ := h
      obtain ⟨_, rfl, vs, r, rfl, hr, hdss⟩ := ih _ _ _ hss
      obtain ⟨rfl, rfl⟩ := pure_eq_ok_iff.1 h
      exact ⟨ws ++ (vs ++ [r]), by simp, ws ++ vs, r, by simp, hr, .cons hds hdss⟩

theorem blockOf_reads {statement : Rule Stmt} (hstmt : Reads statement DerivesStmt) (n : Nat) :
    Reads (blockOf n statement) DerivesBlock := by
  intro ts ss rest h
  rw [blockOf, bind_eq_ok_iff] at h
  obtain ⟨l, us, hexp, h⟩ := h
  obtain ⟨rfl, hl⟩ := expect_eq_ok_iff.1 hexp
  obtain ⟨_, rfl, vs, r, rfl, hr, hss⟩ := statements_reads hstmt n _ _ _ h
  exact ⟨l :: (vs ++ [r]), rfl, .block hl hss hr⟩

theorem statement_reads (n : Nat) : Reads (statement n) DerivesStmt := by
  induction n with
  | zero => exact reads_exhausted _
  | succ n ih => exact statementOf_reads (expression_reads (n + 1)) (blockOf_reads ih n)

/-! ### Programs -/

theorem param_reads :
    Reads param fun us p =>
      ∃ t x ty, us = [t, x] ∧ t.kind = .type ty ∧ x.kind = .identifier ∧ p = ⟨ty, x.lexeme⟩ := by
  intro ts p rest h
  rw [param, bind_eq_ok_iff] at h
  obtain ⟨ty, us, hty, h⟩ := h
  obtain ⟨t, rfl, ht⟩ := type_eq_ok_iff.1 hty
  rw [bind_eq_ok_iff] at h
  obtain ⟨_, vs, hname, h⟩ := h
  obtain ⟨x, rfl, hx, rfl⟩ := name_eq_ok_iff.1 hname
  obtain ⟨rfl, rfl⟩ := pure_eq_ok_iff.1 h
  exact ⟨[t, x], rfl, t, x, ty, rfl, ht, hx, rfl⟩

/-- The parameters of a definition, closing parenthesis included. -/
theorem params_reads (bound : Nat) :
    Reads (listOf bound param (.mark .closeParen)) fun us ps =>
      ∃ vs r, us = vs ++ [r] ∧ r.kind = .mark .closeParen ∧
        (vs = [] ∧ ps = [] ∨ DerivesParams vs ps) := by
  refine listOf_reads (by simp) (items_reads param_reads ?_ ?_ bound)
  · intro us p h
    obtain ⟨t, x, ty, rfl, ht, hx, rfl⟩ := h
    exact .one ht hx
  · intro us vs p ps c h hc hps
    obtain ⟨t, x, ty, rfl, ht, hx, rfl⟩ := h
    exact .more ht hx hc hps

theorem definition_reads (bound : Nat) : Reads (definition bound) DerivesDefinition := by
  intro ts f rest h
  rw [definition, bind_eq_ok_iff] at h
  obtain ⟨ty, us, hty, h⟩ := h
  obtain ⟨t, rfl, ht⟩ := type_eq_ok_iff.1 hty
  rw [bind_eq_ok_iff] at h
  obtain ⟨_, vs, hname, h⟩ := h
  obtain ⟨x, rfl, hx, rfl⟩ := name_eq_ok_iff.1 hname
  rw [bind_eq_ok_iff] at h
  obtain ⟨l, us, hexp, h⟩ := h
  obtain ⟨rfl, hl⟩ := expect_eq_ok_iff.1 hexp
  rw [bind_eq_ok_iff] at h
  obtain ⟨ps, ws, hlist, h⟩ := h
  obtain ⟨_, rfl, vs, r, rfl, hr, hps⟩ := params_reads bound _ _ _ hlist
  rw [bind_eq_ok_iff] at h
  obtain ⟨body, xs, hblock, h⟩ := h
  obtain ⟨bs, rfl, hbody⟩ := blockOf_reads (statement_reads bound) bound _ _ _ hblock
  obtain ⟨rfl, rfl⟩ := pure_eq_ok_iff.1 h
  rcases hps with ⟨rfl, rfl⟩ | hps
  · exact ⟨t :: x :: l :: r :: bs, rfl, .noParams ht hx hl hr hbody⟩
  · exact ⟨t :: x :: l :: (vs ++ r :: bs), by simp, .params ht hx hl hps hr hbody⟩

theorem definitions_reads (bound n : Nat) : Reads (definitions bound n) DerivesProgram := by
  induction n with
  | zero => exact reads_exhausted _
  | succ n ih =>
    intro ts p rest h
    rw [definitions, peek_bind] at h
    generalize hk : kindAt ts 0 = k at h
    split at h
    · rw [bind_eq_ok_iff] at h
      obtain ⟨f, us, hf, h⟩ := h
      obtain ⟨ws, rfl, hdf⟩ := definition_reads bound _ _ _ hf
      rw [bind_eq_ok_iff] at h
      obtain ⟨p, xs, hp, h⟩ := h
      obtain ⟨vs, rfl, hdp⟩ := ih _ _ _ hp
      obtain ⟨rfl, rfl⟩ := pure_eq_ok_iff.1 h
      exact ⟨ws ++ vs, by simp, .more hdf hdp⟩
    · rw [bind_eq_ok_iff] at h
      obtain ⟨t, us, hexp, h⟩ := h
      obtain ⟨rfl, ht⟩ := expectAs_eq_ok_iff.1 hexp
      obtain ⟨rfl, rfl⟩ := pure_eq_ok_iff.1 h
      exact ⟨[t], rfl, .done ht⟩

end Scriptlet.Grammar
