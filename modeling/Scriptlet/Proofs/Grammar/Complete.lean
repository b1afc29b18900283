import Scriptlet.Proofs.Grammar.Sound

/-!
# Scriptlet.Proofs.Grammar.Complete

**What is derived is read.** A rule that meets the tokens of a derivation takes exactly them and
gives the derived tree, whatever comes after, as long as what comes after cannot continue the
phrase: a step, an operator or an opening parenthesis continues an expression, and `else` continues
a statement. The choices of the rules are then forced, one token ahead for most of them and two for
an assignment.

The bounds of the rules are counted in tokens. A phrase has at least one token for each level of
nesting and each member of a list, so a bound of its number of tokens is enough.
-/

namespace Scriptlet

/-- Kinds with which an atom starts. -/
def Kind.opensAtom : Kind → Bool
  | .int | .float | .str | .keyword .true | .keyword .false | .identifier => true
  | .mark .openParen => true
  | _ => false

/-- Kinds with which an expression starts. -/
def Kind.opensExpr : Kind → Bool
  | .step _ => true
  | k => k.opensAtom

/-- Kinds with which a statement starts. -/
def Kind.opensStmt : Kind → Bool
  | .type _ | .keyword .if | .keyword .while | .keyword .return => true
  | k => k.opensExpr

/-- Kinds that go on with an expression that could end before them. -/
def Kind.extendsExpr : Kind → Bool
  | .step _ | .operator _ | .mark .openParen => true
  | _ => false

theorem Kind.opensExpr_of_opensAtom {k : Kind} (h : k.opensAtom) : k.opensExpr := by
  cases k <;> first | rfl | exact h

theorem Kind.opensStmt_of_opensExpr {k : Kind} (h : k.opensExpr) : k.opensStmt := by
  unfold Kind.opensStmt
  split <;> first | rfl | exact h

namespace Grammar

open Rule

/-! ### First tokens -/

theorem DerivesAtom.opens {us : List Token} {a : Expr} (h : DerivesAtom us a) :
    ∃ t vs, us = t :: vs ∧ t.kind.opensAtom := by
  cases h with
  | int ht _ | float ht _ | str ht | true ht | false ht | var ht =>
    exact ⟨_, _, rfl, by rw [ht]; rfl⟩
  | callNone hf _ _ | call hf _ _ _ => exact ⟨_, _, rfl, by rw [hf]; rfl⟩
  | group hl _ _ => exact ⟨_, _, rfl, by rw [hl]; rfl⟩

theorem DerivesAtom.kindAt_opens {us : List Token} {a : Expr} (h : DerivesAtom us a)
    (rest : List Token) : (kindAt (us ++ rest) 0).opensAtom := by
  obtain ⟨t, vs, rfl, ht⟩ := h.opens
  exact ht

theorem DerivesExpr.opens {us : List Token} {e : Expr} (h : DerivesExpr us e) :
    ∃ t vs, us = t :: vs ∧ t.kind.opensExpr := by
  cases h with
  | before ht ha => exact ⟨_, _, rfl, by rw [ht]; rfl⟩
  | after ha ht | chain ha ht he =>
    obtain ⟨t, vs, rfl, h⟩ := ha.opens
    exact ⟨t, _, rfl, Kind.opensExpr_of_opensAtom h⟩
  | atom ha =>
    obtain ⟨t, vs, rfl, h⟩ := ha.opens
    exact ⟨t, vs, rfl, Kind.opensExpr_of_opensAtom h⟩

theorem DerivesExpr.kindAt_opens {us : List Token} {e : Expr} (h : DerivesExpr us e)
    (rest : List Token) : (kindAt (us ++ rest) 0).opensExpr := by
  obtain ⟨t, vs, rfl, ht⟩ := h.opens
  exact ht

theorem DerivesExpr.length_pos {us : List Token} {e : Expr} (h : DerivesExpr us e) :
    0 < us.length := by
  obtain ⟨t, vs, rfl, -⟩ := h.opens
  exact Nat.succ_pos _

theorem DerivesArgs.kindAt_opens {us : List Token} {args : List Expr} (h : DerivesArgs us args)
    (rest : List Token) : (kindAt (us ++ rest) 0).opensExpr := by
  cases h with
  | one he => exact he.kindAt_opens rest
  | more he _ _ =>
    rw [List.append_assoc]
    exact he.kindAt_opens _

theorem DerivesStmt.opens {us : List Token} {s : Stmt} (h : DerivesStmt us s) :
    ∃ t vs, us = t :: vs ∧ t.kind.opensStmt := by
  cases h with
  | init ht _ _ _ _ | declare ht _ _ => exact ⟨_, _, rfl, by rw [ht]; rfl⟩
  | assign hx _ _ _ => exact ⟨_, _, rfl, by rw [hx]; rfl⟩
  | eval he hz =>
    obtain ⟨t, vs, rfl, h⟩ := he.opens
    exact ⟨t, _, rfl, Kind.opensStmt_of_opensExpr h⟩
  | branch hi _ _ _ _ | branchElse hi _ _ _ _ _ _ | loop hi _ _ _ _ | ret hi _ _ =>
    exact ⟨_, _, rfl, by rw [hi]; rfl⟩

theorem DerivesStmt.kindAt_opens {us : List Token} {s : Stmt} (h : DerivesStmt us s)
    (rest : List Token) : (kindAt (us ++ rest) 0).opensStmt := by
  obtain ⟨t, vs, rfl, ht⟩ := h.opens
  exact ht

theorem DerivesStmt.length_pos {us : List Token} {s : Stmt} (h : DerivesStmt us s) :
    0 < us.length := by
  obtain ⟨t, vs, rfl, -⟩ := h.opens
  exact Nat.succ_pos _

/-- An expression that starts with a name does not go on with an assignment sign. -/
theorem DerivesAtom.second_ne_assign {us rest : List Token} {a : Expr} (h : DerivesAtom us a)
    (hrest : kindAt rest 0 ≠ .mark .assign) :
    ¬(kindAt (us ++ rest) 0 = .identifier ∧ kindAt (us ++ rest) 1 = .mark .assign) := by
  intro h
  obtain ⟨h0, h1⟩ := h
  cases h with
  | int ht _ | float ht _ | str ht | true ht | false ht => simp [ht] at h0
  | var _ => exact hrest h1
  | callNone _ hl _ | call _ hl _ _ => simp [hl] at h1
  | group hl _ _ => simp [hl] at h0

theorem DerivesExpr.second_ne_assign {us rest : List Token} {e : Expr} (h : DerivesExpr us e)
    (hrest : kindAt rest 0 ≠ .mark .assign) :
    ¬(kindAt (us ++ rest) 0 = .identifier ∧ kindAt (us ++ rest) 1 = .mark .assign) := by
  cases h with
  | before ht _ => simp [ht]
  | after ha ht =>
    rw [List.append_assoc]
    exact ha.second_ne_assign (by simp [ht])
  | chain ha ht _ =>
    rw [List.append_assoc]
    exact ha.second_ne_assign (by simp [ht])
  | atom ha => exact ha.second_ne_assign hrest

/-! ### Lists of items -/

theorem items_last {α : Type} {item : Rule α} {closing : Kind} {ts rest : List Token} {a : α}
    {r : Token} (ha : item ts = .ok a (r :: rest)) (hr : r.kind = closing)
    (hc : closing ≠ .mark .comma) (n : Nat) : items item closing (n + 1) ts = .ok [a] rest := by
  rw [items]
  refine bind_eq_ok_iff.2 ⟨a, r :: rest, ha, ?_⟩
  simp only [hr, if_neg hc, if_true]

theorem items_more {α : Type} {item : Rule α} {closing : Kind} {ts us rest : List Token} {a : α}
    {as : List α} {c : Token} {n : Nat} (ha : item ts = .ok a (c :: us))
    (hc : c.kind = .mark .comma) (has : items item closing n us = .ok as rest) :
    items item closing (n + 1) ts = .ok (a :: as) rest := by
  rw [items]
  refine bind_eq_ok_iff.2 ⟨a, c :: us, ha, ?_⟩
  simp only [hc, if_true]
  exact map_eq_ok_iff.2 ⟨as, has, rfl⟩

theorem listOf_nil {α : Type} {item : Rule α} {closing : Kind} {r : Token} (hr : r.kind = closing)
    (bound : Nat) (rest : List Token) : listOf bound item closing (r :: rest) = .ok [] rest := by
  rw [listOf, peek_bind]
  simp only [kindAt_cons, hr, if_true]
  rfl

theorem listOf_items {α : Type} {item : Rule α} {closing : Kind} {ts : List Token}
    (hk : kindAt ts 0 ≠ closing) (bound : Nat) :
    listOf bound item closing ts = items item closing bound ts := by
  rw [listOf, peek_bind]
  simp only [if_neg hk]

/-! ### Expressions -/

theorem chainOnto_before {atom : Rule Expr} {ts us : List Token} {t : Token} {s : Step} {a : Expr}
    (ht : t.kind = .step s) (ha : atom ts = .ok a us) (n : Nat) (pending : List (Expr × BinOp)) :
    chainOnto atom (n + 1) pending (t :: ts) = .ok (joinChain pending (.step s .before a)) us := by
  rw [chainOnto, peek_bind, kindAt_cons, ht]
  simp only
  rw [advance_bind, List.tail_cons, bind_of_ok ha]
  rfl

/-- After an atom the next kind decides how a chain goes on. -/
theorem chainOnto_atom {atom : Rule Expr} {ts us : List Token} {a : Expr}
    (hts : (kindAt ts 0).opensAtom) (ha : atom ts = .ok a us) (n : Nat)
    (pending : List (Expr × BinOp)) :
    chainOnto atom (n + 1) pending ts =
      match kindAt us 0 with
      | .step s => .ok (joinChain pending (.step s .after a)) us.tail
      | .operator op => chainOnto atom n ((a, op) :: pending) us.tail
      | _ => .ok (joinChain pending a) us := by
  rw [chainOnto, peek_bind]
  generalize kindAt ts 0 = k at hts
  split
  · cases hts
  · rw [bind_of_ok ha, peek_bind]
    cases kindAt us 0 <;> rfl

/-- An expression is a chain with nothing before it; one level of depth goes to the chain. -/
theorem expression_of_chain {us rest : List Token} {e : Expr} {n : Nat} (hn : us.length < n)
    (h : ∀ k, us.length ≤ k →
      chainOnto (atom k (expression k)) (k + 1) [] (us ++ rest) = .ok e rest) :
    expression n (us ++ rest) = .ok e rest := by
  obtain ⟨k, rfl⟩ := Nat.exists_eq_add_one_of_ne_zero (Nat.ne_zero_of_lt hn)
  exact h k (Nat.le_of_lt_succ hn)

mutual

/-- A chain read after some operands takes the tokens of an expression. -/
theorem DerivesExpr.read_chain {us : List Token} {e : Expr} (h : DerivesExpr us e) {n m : Nat}
    (hn : us.length ≤ n) (hm : us.length ≤ m) (pending : List (Expr × BinOp)) {rest : List Token}
    (hrest : (kindAt rest 0).extendsExpr = Bool.false) :
    chainOnto (atom n (expression n)) m pending (us ++ rest) = .ok (joinChain pending e) rest := by
  have hpos := h.length_pos
  obtain ⟨m, rfl⟩ : ∃ k, m = k + 1 := Nat.exists_eq_add_one_of_ne_zero (by omega)
  -- what follows does not turn a last name into a call
  have hopen : kindAt rest 0 ≠ .mark .openParen := by
    intro hk
    rw [hk] at hrest
    cases hrest
  match h with
  | .before ht ha =>
    rw [List.length_cons] at hn
    exact chainOnto_before ht (ha.read (Nat.le_of_succ_le hn) hopen) m pending
  | @DerivesExpr.after t ts s a ha ht =>
    rw [List.length_append] at hn
    have hatom : atom n (expression n) (ts ++ t :: rest) = .ok a (t :: rest) :=
      ha.read (Nat.le_of_add_right_le hn) (by simp [ht])
    rw [List.append_assoc]
    refine (chainOnto_atom (ha.kindAt_opens _) hatom m pending).trans ?_
    rw [kindAt_cons, ht]
    rfl
  | @DerivesExpr.chain t ts vs op a e ha ht he =>
    rw [List.length_append, List.length_cons] at hn hm
    have hatom : atom n (expression n) (ts ++ t :: (vs ++ rest)) = .ok a (t :: (vs ++ rest)) :=
      ha.read (Nat.le_of_add_right_le hn) (by simp [ht])
    rw [List.append_assoc]
    refine (chainOnto_atom (ha.kindAt_opens _) hatom m pending).trans ?_
    -- the operand waits, and the rest of the chain is the same expression read after it
    rw [kindAt_cons, ht]
    exact he.read_chain (by omega) (by omega) _ hrest
  | .atom ha =>
    refine (chainOnto_atom (ha.kindAt_opens _) (ha.read hn hopen) m pending).trans ?_
    generalize kindAt rest 0 = k at hrest
    split
    · cases hrest
    · cases hrest
    · rfl

theorem DerivesAtom.read {us : List Token} {a : Expr} (h : DerivesAtom us a) {n : Nat}
    (hn : us.length ≤ n) {rest : List Token} (hrest : kindAt rest 0 ≠ .mark .openParen) :
    atom n (expression n) (us ++ rest) = .ok a rest := by
  match h with
  | .int ht hx => simp [atom, ht, hx]
  | .float ht hx => simp [atom, ht, hx]
  | .str ht => simp [atom, ht]
  | .true ht => simp [atom, ht]
  | .false ht => simp [atom, ht]
  | .var ht => simp [atom, ht, hrest]
  | .callNone hf hl hr =>
    simp only [List.cons_append, List.nil_append, atom, hf, kindAt_cons, hl, if_true]
    exact map_eq_ok_iff.2 ⟨_, listOf_nil hr _ _, rfl⟩
  | @DerivesAtom.call f l r ts args hf hl hargs hr =>
    simp only [List.length_append, List.length_cons, List.length_nil] at hn
    have hk : kindAt (ts ++ r :: rest) 0 ≠ .mark .closeParen := by
      intro hk
      have hopens := hargs.kindAt_opens (r :: rest)
      rw [hk] at hopens
      cases hopens
    simp only [List.cons_append, List.append_assoc, List.nil_append, atom, hf, kindAt_cons, hl,
      if_true]
    refine map_eq_ok_iff.2 ⟨args, ?_, rfl⟩
    rw [List.tail_cons, listOf_items hk]
    exact hargs.read (by omega) (by omega) hr rest
  | @DerivesAtom.group l r ts e hl he hr =>
    simp only [List.length_append, List.length_cons, List.length_nil] at hn
    have hexpr : expression n (ts ++ r :: rest) = .ok e (r :: rest) :=
      expression_of_chain (by omega) fun k hk =>
        he.read_chain hk (Nat.le_succ_of_le hk) [] (by simp [hr, Kind.extendsExpr])
    simp only [List.cons_append, List.append_assoc, List.nil_append, atom, hl]
    rw [bind_of_ok hexpr, bind_of_ok (expect_cons hr rest)]
    rfl

theorem DerivesArgs.read {us : List Token} {args : List Expr} (h : DerivesArgs us args)
    {n m : Nat} (hn : us.length < n) (hm : us.length ≤ m) {r : Token}
    (hr : r.kind = .mark .closeParen) (rest : List Token) :
    items (expression n) (.mark .closeParen) m (us ++ r :: rest) = .ok args rest := by
  match h with
  | @DerivesArgs.one ts e he =>
    have hpos := he.length_pos
    obtain ⟨m, rfl⟩ : ∃ k, m = k + 1 := Nat.exists_eq_add_one_of_ne_zero (by omega)
    have hexpr : expression n (ts ++ r :: rest) = .ok e (r :: rest) :=
      expression_of_chain hn fun k hk =>
        he.read_chain hk (Nat.le_succ_of_le hk) [] (by simp [hr, Kind.extendsExpr])
    exact items_last hexpr hr (by simp) m
  | @DerivesArgs.more c ts us e es he hc hes =>
    simp only [List.length_append, List.length_cons] at hn hm
    obtain ⟨m, rfl⟩ : ∃ k, m = k + 1 := Nat.exists_eq_add_one_of_ne_zero (by omega)
    have hexpr : expression n (ts ++ c :: (us ++ r :: rest)) = .ok e (c :: (us ++ r :: rest)) :=
      expression_of_chain (by omega) fun k hk =>
        he.read_chain hk (Nat.le_succ_of_le hk) [] (by simp [hc, Kind.extendsExpr])
    rw [List.append_assoc, List.cons_append]
    exact items_more hexpr hc (hes.read (by omega) (by omega) hr rest)

end

/-- A rule for expressions with room for them takes the tokens of an expression. -/
theorem DerivesExpr.read {us : List Token} {e : Expr} (h : DerivesExpr us e) {n : Nat}
    (hn : us.length < n) {rest : List Token}
    (hrest : (kindAt rest 0).extendsExpr = Bool.false) :
    expression n (us ++ rest) = .ok e rest :=
  expression_of_chain hn fun _ hk => h.read_chain hk (Nat.le_succ_of_le hk) [] hrest

/-! ### Statements -/

/-- An expression and the semicolon after it. -/
theorem DerivesExpr.read_ended {us : List Token} {e : Expr} (h : DerivesExpr us e) {n : Nat}
    (hn : us.length < n) {z : Token} (hz : z.kind = .mark .semicolon) (rest : List Token)
    (f : Expr → Stmt) :
    (expression n >>= fun e => ended (f e) : Rule Stmt) (us ++ z :: rest) = .ok (f e) rest := by
  have hexpr : expression n (us ++ z :: rest) = .ok e (z :: rest) :=
    h.read hn (by simp [hz, Kind.extendsExpr])
  exact bind_eq_ok_iff.2 ⟨e, z :: rest, hexpr, ended_eq_ok_iff.2 ⟨rfl, z, rfl, hz⟩⟩

theorem DerivesExpr.read_condition {us : List Token} {c : Expr} (h : DerivesExpr us c) {n : Nat}
    (hn : us.length < n) {l r : Token} (hl : l.kind = .mark .openParen)
    (hr : r.kind = .mark .closeParen) (rest : List Token) :
    condition (expression n) (l :: (us ++ r :: rest)) = .ok c rest := by
  have hexpr : expression n (us ++ r :: rest) = .ok c (r :: rest) :=
    h.read hn (by simp [hr, Kind.extendsExpr])
  rw [condition, bind_of_ok (expect_cons hl _), bind_of_ok hexpr, bind_of_ok (expect_cons hr rest)]
  rfl

theorem alternative_else {block : Rule (List Stmt)} {o : Token} (ho : o.kind = .keyword .else)
    (ts : List Token) : alternative block (o :: ts) = block ts := by
  rw [alternative, peek_bind, kindAt_cons, ho]
  rfl

theorem alternative_none {block : Rule (List Stmt)} {ts : List Token}
    (hts : kindAt ts 0 ≠ .keyword .else) : alternative block ts = .ok [] ts := by
  rw [alternative, peek_bind]
  generalize kindAt ts 0 = k at hts
  split
  · exact absurd rfl hts
  · rfl

/-- A statement that starts with a type and a name is a declaration. -/
theorem statementOf_declaration {expression : Rule Expr} {block : Rule (List Stmt)} {t x : Token}
    {ty : Ty} (ht : t.kind = .type ty) (hx : x.kind = .identifier) (ts : List Token) :
    statementOf expression block (t :: x :: ts) =
      (match kindAt ts 0 with
        | .mark .assign => (expression >>= fun e => ended (.init ty x.lexeme e)) ts.tail
        | .mark .semicolon => ended (.declare ty x.lexeme) ts
        | _ => fail .assignOrSemicolon ts) := by
  rw [statementOf, peek_bind, kindAt_cons, ht]
  simp only
  rw [declaration, bind_of_ok (type_eq_ok_iff.2 ⟨t, rfl, ht⟩),
    bind_of_ok (name_eq_ok_iff.2 ⟨x, rfl, hx, rfl⟩), peek_bind]
  cases kindAt ts 0 with
  | mark m => cases m <;> rfl
  | _ => rfl

/-- A statement that starts like an expression is an expression or an assignment. -/
theorem statementOf_simple {expression : Rule Expr} {block : Rule (List Stmt)} {ts : List Token}
    (hts : (kindAt ts 0).opensExpr) : statementOf expression block ts = simple expression ts := by
  rw [statementOf, peek_bind]
  generalize kindAt ts 0 = k at hts
  split
  · cases hts
  · cases hts
  · cases hts
  · cases hts
  · rfl

theorem DerivesStmts.kindAt_ne_else {us : List Token} {ss : List Stmt} (h : DerivesStmts us ss)
    {r : Token} (hr : r.kind = .mark .closeBrace) (rest : List Token) :
    kindAt (us ++ r :: rest) 0 ≠ .keyword .else := by
  intro hk
  cases h with
  | nil => simp [hr] at hk
  | @cons ts us s ss hs hss =>
    have hopens := hs.kindAt_opens (us ++ r :: rest)
    rw [← List.append_assoc, hk] at hopens
    cases hopens

theorem statements_cons {statement : Rule Stmt} {ts us rest : List Token} {s : Stmt}
    {ss : List Stmt} {n : Nat} (hts : (kindAt ts 0).opensStmt) (hs : statement ts = .ok s us)
    (hss : statements statement n us = .ok ss rest) :
    statements statement (n + 1) ts = .ok (s :: ss) rest := by
  rw [statements, peek_bind]
  generalize kindAt ts 0 = k at hts
  split
  · cases hts
  · cases hts
  · rw [bind_of_ok hs, bind_of_ok hss]
    rfl

mutual

/-- A rule for statements with room for them takes the tokens of a statement. -/
theorem DerivesStmt.read {us : List Token} {s : Stmt} (h : DerivesStmt us s) {n : Nat}
    (hn : us.length < n) {rest : List Token} (hrest : kindAt rest 0 ≠ .keyword .else) :
    statement n (us ++ rest) = .ok s rest := by
  obtain ⟨n, rfl⟩ := Nat.exists_eq_add_one_of_ne_zero (Nat.ne_zero_of_lt hn)
  match h with
  | @DerivesStmt.init t x q z ts ty e ht hx hq he hz =>
    simp only [List.length_append, List.length_cons] at hn
    simp only [List.cons_append, List.append_assoc, List.nil_append]
    rw [statement, statementOf_declaration ht hx, kindAt_cons, hq]
    exact he.read_ended (by omega) hz rest (.init ty x.lexeme)
  | @DerivesStmt.declare t x z ty ht hx hz =>
    simp only [List.cons_append, List.nil_append]
    rw [statement, statementOf_declaration ht hx, kindAt_cons, hz]
    exact ended_eq_ok_iff.2 ⟨rfl, z, rfl, hz⟩
  | @DerivesStmt.assign x q z ts e hx hq he hz =>
    simp only [List.length_append, List.length_cons] at hn
    simp only [List.cons_append, List.append_assoc, List.nil_append]
    rw [statement, statementOf_simple (by simp [hx, Kind.opensExpr, Kind.opensAtom]), simple,
      if_pos ⟨hx, hq⟩, bind_of_ok (name_eq_ok_iff.2 ⟨x, rfl, hx, rfl⟩), advance_bind]
    exact he.read_ended (by omega) hz rest (.assign x.lexeme)
  | @DerivesStmt.eval z ts e he hz =>
    -- the second token tells it from an assignment
    simp only [List.length_append, List.length_cons] at hn
    rw [List.append_assoc, statement, statementOf_simple (he.kindAt_opens _), simple,
      if_neg (he.second_ne_assign (by simp [hz]))]
    exact he.read_ended (by omega) hz rest .eval
  | @DerivesStmt.branch i l r ts us c yes hi hl hc hr hyes =>
    -- no alternative was written, and `hrest` keeps the rule from taking one that comes after
    simp only [List.length_append, List.length_cons] at hn
    rw [statement, statementOf, peek_bind]
    simp only [List.cons_append, List.append_assoc, kindAt_cons, hi]
    rw [advance_bind, List.tail_cons, bind_of_ok (hc.read_condition (by omega) hl hr _),
      bind_of_ok (hyes.read (by omega) rest), bind_of_ok (alternative_none hrest)]
    rfl
  | @DerivesStmt.branchElse i l r o ts us vs c yes no hi hl hc hr hyes ho hno =>
    simp only [List.length_append, List.length_cons] at hn
    rw [statement, statementOf, peek_bind]
    simp only [List.cons_append, List.append_assoc, kindAt_cons, hi]
    have halt : alternative (blockOf n (statement n)) (o :: (vs ++ rest)) = .ok no rest :=
      (alternative_else ho _).trans (hno.read (by omega) rest)
    rw [advance_bind, List.tail_cons, bind_of_ok (hc.read_condition (by omega) hl hr _),
      bind_of_ok (hyes.read (by omega) _), bind_of_ok halt]
    rfl
  | @DerivesStmt.loop i l r ts us c body hi hl hc hr hbody =>
    simp only [List.length_append, List.length_cons] at hn
    rw [statement, statementOf, peek_bind]
    simp only [List.cons_append, List.append_assoc, kindAt_cons, hi]
    rw [advance_bind, List.tail_cons, bind_of_ok (hc.read_condition (by omega) hl hr _),
      bind_of_ok (hbody.read (by omega) rest)]
    rfl
  | @DerivesStmt.ret i z ts e hi he hz =>
    simp only [List.length_append, List.length_cons] at hn
    rw [statement, statementOf, peek_bind]
    simp only [List.cons_append, List.append_assoc, List.nil_append, kindAt_cons, hi]
    rw [advance_bind, List.tail_cons]
    exact he.read_ended (by omega) hz rest .ret

theorem DerivesBlock.read {us : List Token} {ss : List Stmt} (h : DerivesBlock us ss) {n : Nat}
    (hn : us.length ≤ n) (rest : List Token) :
    blockOf n (statement n) (us ++ rest) = .ok ss rest := by
  match h with
  | @DerivesBlock.block l r ts ss hl hss hr =>
    simp only [List.length_append, List.length_cons, List.length_nil] at hn
    simp only [List.cons_append, List.append_assoc, List.nil_append]
    rw [blockOf, bind_of_ok (expect_cons hl _)]
    exact hss.read (by omega) (by omega) hr rest

/-- Statements are read up to the brace that closes their block. -/
theorem DerivesStmts.read {us : List Token} {ss : List Stmt} (h : DerivesStmts us ss) {n m : Nat}
    (hn : us.length < n) (hm : us.length < m) {r : Token} (hr : r.kind = .mark .closeBrace)
    (rest : List Token) : statements (statement n) m (us ++ r :: rest) = .ok ss rest := by
  obtain ⟨m, rfl⟩ := Nat.exists_eq_add_one_of_ne_zero (Nat.ne_zero_of_lt hm)
  match h with
  | .nil =>
    rw [statements, peek_bind, List.nil_append, kindAt_cons, hr]
    rfl
  | @DerivesStmts.cons ts us s ss hs hss =>
    have hpos := hs.length_pos
    rw [List.length_append] at hn hm
    have hstmt : statement n (ts ++ (us ++ r :: rest)) = .ok s (us ++ r :: rest) :=
      hs.read (by omega) (hss.kindAt_ne_else hr rest)
    have hrest : statements (statement n) m (us ++ r :: rest) = .ok ss rest :=
      hss.read (by omega) (by omega) hr rest
    rw [List.append_assoc]
    exact statements_cons (hs.kindAt_opens _) hstmt hrest

end

/-! ### Programs -/

theorem param_cons {t x : Token} {ty : Ty} (ht : t.kind = .type ty) (hx : x.kind = .identifier)
    (ts : List Token) : param (t :: x :: ts) = .ok ⟨ty, x.lexeme⟩ ts := by
  rw [param, bind_of_ok (type_eq_ok_iff.2 ⟨t, rfl, ht⟩),
    bind_of_ok (name_eq_ok_iff.2 ⟨x, rfl, hx, rfl⟩)]
  rfl

theorem DerivesParams.read {us : List Token} {ps : List Param} (h : DerivesParams us ps) {m : Nat}
    (hm : us.length ≤ m) {r : Token} (hr : r.kind = .mark .closeParen) (rest : List Token) :
    items param (.mark .closeParen) m (us ++ r :: rest) = .ok ps rest := by
  induction h generalizing m with
  | one ht hx =>
    obtain ⟨m, rfl⟩ := Nat.exists_eq_add_one_of_ne_zero (Nat.ne_zero_of_lt hm)
    exact items_last (param_cons ht hx _) hr (by simp) m
  | more ht hx hc hps ih =>
    obtain ⟨m, rfl⟩ := Nat.exists_eq_add_one_of_ne_zero (Nat.ne_zero_of_lt hm)
    simp only [List.length_cons] at hm
    exact items_more (param_cons ht hx _) hc (ih (by omega))

theorem DerivesParams.read_list {us : List Token} {ps : List Param} (h : DerivesParams us ps)
    {m : Nat} (hm : us.length ≤ m) {r : Token} (hr : r.kind = .mark .closeParen)
    (rest : List Token) :
    listOf m param (.mark .closeParen) (us ++ r :: rest) = .ok ps rest := by
  have hk : kindAt (us ++ r :: rest) 0 ≠ .mark .closeParen := by
    cases h with
    | one ht _ | more ht _ _ _ => simp [ht]
  rw [listOf_items hk]
  exact h.read hm hr rest

theorem DerivesDefinition.read {us : List Token} {f : Function} (h : DerivesDefinition us f)
    {n : Nat} (hn : us.length ≤ n) (rest : List Token) :
    definition n (us ++ rest) = .ok f rest := by
  cases h with
  | noParams ht hf hl hr hbody =>
    simp only [List.length_cons] at hn
    simp only [List.cons_append]
    rw [definition, bind_of_ok (type_eq_ok_iff.2 ⟨_, rfl, ht⟩),
      bind_of_ok (name_eq_ok_iff.2 ⟨_, rfl, hf, rfl⟩), bind_of_ok (expect_cons hl _),
      bind_of_ok (listOf_nil hr n _), block, bind_of_ok (hbody.read (by omega) rest)]
    rfl
  | params ht hf hl hps hr hbody =>
    simp only [List.length_append, List.length_cons] at hn
    simp only [List.cons_append, List.append_assoc]
    rw [definition, bind_of_ok (type_eq_ok_iff.2 ⟨_, rfl, ht⟩),
      bind_of_ok (name_eq_ok_iff.2 ⟨_, rfl, hf, rfl⟩), bind_of_ok (expect_cons hl _),
      bind_of_ok (hps.read_list (by omega) hr _), block, bind_of_ok (hbody.read (by omega) rest)]
    rfl

theorem DerivesDefinition.opens {us : List Token} {f : Function} (h : DerivesDefinition us f) :
    ∃ t vs ty, us = t :: vs ∧ t.kind = .type ty := by
  cases h with
  | noParams ht _ _ _ _ | params ht _ _ _ _ _ => exact ⟨_, _, _, rfl, ht⟩

theorem DerivesProgram.read {us : List Token} {p : Program} (h : DerivesProgram us p) {n m : Nat}
    (hn : us.length ≤ n) (hm : us.length ≤ m) (rest : List Token) :
    definitions n m (us ++ rest) = .ok p rest := by
  induction h generalizing m with
  | @done t ht =>
    obtain ⟨m, rfl⟩ := Nat.exists_eq_add_one_of_ne_zero (Nat.ne_zero_of_lt hm)
    rw [definitions, peek_bind]
    simp only [List.cons_append, List.nil_append, kindAt_cons, ht]
    rw [bind_of_ok (expectAs_eq_ok_iff.2 ⟨rfl, ht⟩)]
    rfl
  | @more ts us f p hf hp ih =>
    obtain ⟨t, vs, ty, rfl, ht⟩ := hf.opens
    simp only [List.length_append, List.length_cons] at hn hm
    obtain ⟨m, rfl⟩ : ∃ k, m = k + 1 := Nat.exists_eq_add_one_of_ne_zero (by omega)
    have hdef : definition n (t :: vs ++ (us ++ rest)) = .ok f (us ++ rest) :=
      hf.read (by rw [List.length_cons]; omega) _
    rw [List.append_assoc, definitions, peek_bind, List.cons_append, kindAt_cons, ht]
    simp only
    rw [← List.cons_append, bind_of_ok hdef, bind_of_ok (ih (by omega) (by omega))]
    rfl

theorem DerivesProgram.readProgram_eq {us : List Token} {p : Program} (h : DerivesProgram us p)
    (rest : List Token) : readProgram (us ++ rest) = .ok p rest :=
  h.read (by simp; omega) (by simp; omega) rest

theorem DerivesProgram.exists_end {us : List Token} {p : Program} (h : DerivesProgram us p) :
    ∃ body t, us = body ++ [t] ∧ t.kind = .endOfInput := by
  induction h with
  | @done t ht => exact ⟨[], t, rfl, ht⟩
  | @more ts us f p hf hp ih =>
    obtain ⟨body, t, rfl, ht⟩ := ih
    exact ⟨ts ++ body, t, (List.append_assoc ..).symm, ht⟩

/-- A list of tokens that ends once has no proper part at its front that ends too. -/
theorem EndsOnce.eq_nil {body rest : List Token} {t : Token} (h : EndsOnce (body ++ [t] ++ rest))
    (ht : t.kind = .endOfInput) : rest = [] := by
  obtain ⟨body', last, heq, hlast, hbody⟩ := h
  rcases List.eq_nil_or_concat rest with rfl | ⟨rest', u, rfl⟩
  · rfl
  · rw [List.concat_eq_append, ← List.append_assoc] at heq
    obtain ⟨rfl, -⟩ := List.append_inj' heq rfl
    exact absurd ht (hbody t (by simp))

theorem result_eq_ok_iff {α : Type} {r : Rule α} {ts : List Token} {a : α} :
    r.result ts = .ok a ↔ ∃ rest, r ts = .ok a rest := by
  unfold Rule.result
  cases r ts with
  | ok b us =>
    constructor
    · rintro ⟨⟩
      exact ⟨us, rfl⟩
    · intro h
      obtain ⟨_, ⟨⟩⟩ := h
      rfl
  | error e us => simp

/-- **Reading a program is exactly deriving it.** On tokens that end once, the rule for programs
succeeds with a program if and only if the tokens derive it; and no tokens at all derive two
programs. -/
theorem readProgram_ok_iff_derives :
    (∀ ts : List Token, EndsOnce ts → ∀ p : Program,
        readProgram.result ts = .ok p ↔ DerivesProgram ts p) ∧
      ∀ (ts : List Token) (p q : Program), DerivesProgram ts p → DerivesProgram ts q → p = q := by
  constructor
  · intro ts hts p
    constructor
    · intro h
      obtain ⟨rest, h⟩ := result_eq_ok_iff.1 h
      obtain ⟨us, rfl, hp⟩ := definitions_reads _ _ ts p rest h
      obtain ⟨body, t, rfl, ht⟩ := hp.exists_end
      rw [hts.eq_nil ht, List.append_nil]
      exact hp
    · intro h
      have hread := h.readProgram_eq []
      rw [List.append_nil] at hread
      exact result_eq_ok_iff.2 ⟨[], hread⟩
  · intro ts p q hp hq
    have hread := hp.readProgram_eq []
    rw [hq.readProgram_eq []] at hread
    cases hread
    rfl

/-- The tokens of `void f() { 2 * a - 1; }`: the first operator takes the whole rest. -/
theorem readProgram_ok_iff_derives_chain :
    EndsOnce
        ([⟨.type .void, "void", 0⟩, ⟨.identifier, "f", 5⟩, ⟨.mark .openParen, "(", 6⟩,
          ⟨.mark .closeParen, ")", 7⟩, ⟨.mark .openBrace, "\x7b", 9⟩, ⟨.int, "2", 11⟩,
          ⟨.operator .mul, "*", 13⟩, ⟨.identifier, "a", 15⟩, ⟨.operator .sub, "-", 17⟩,
          ⟨.int, "1", 19⟩, ⟨.mark .semicolon, ";", 20⟩, ⟨.mark .closeBrace, "\x7d", 22⟩] ++
        [⟨.endOfInput, "", 23⟩]) ∧
      DerivesProgram
        ([⟨.type .void, "void", 0⟩, ⟨.identifier, "f", 5⟩, ⟨.mark .openParen, "(", 6⟩,
          ⟨.mark .closeParen, ")", 7⟩, ⟨.mark .openBrace, "\x7b", 9⟩, ⟨.int, "2", 11⟩,
          ⟨.operator .mul, "*", 13⟩, ⟨.identifier, "a", 15⟩, ⟨.operator .sub, "-", 17⟩,
          ⟨.int, "1", 19⟩, ⟨.mark .semicolon, ";", 20⟩, ⟨.mark .closeBrace, "\x7d", 22⟩] ++
        [⟨.endOfInput, "", 23⟩])
        [⟨.void, "f", [],
          [.eval (.binary (.int 2) .mul (.binary (.var "a") .sub (.int 1)))]⟩] := by
  refine ⟨?_, (readProgram_ok_iff_derives.1 _ ?_ _).1 rfl⟩
  all_goals exact ⟨_, _, rfl, rfl, by decide⟩

end Grammar

end Scriptlet
