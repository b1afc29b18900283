import Scriptlet.Proofs.Grammar.Complete
import Scriptlet.Proofs.Grammar.Lookahead

/-!
# Scriptlet.Proofs.Grammar.Bound

**Bounds do not matter.** Rules take a bound on nesting and on the length of lists. Two bounds that
exceed the number of tokens give the same answer, be it a value or an error, and leave the same
tokens over.

`SameBelow k r r'` says that two rules agree on fewer than `k` tokens. Each nested rule and each
round of a repetition starts behind a token, so it has one token less, as it has one less of its
bound.
-/

namespace Scriptlet.Grammar

open Rule

variable {α β : Type}

/-- The rules answer alike on every list of fewer than `k` tokens. -/
def SameBelow (k : Nat) (r r' : Rule α) : Prop :=
  ∀ ts : List Token, ts.length < k → r ts = r' ts

/-- Induction on a number of tokens, with two bounds that are enough for it. -/
theorem bounds_induction {P : (k n n' : Nat) → k ≤ n → k ≤ n' → Prop}
    (zero : ∀ n n', P 0 n n' (Nat.zero_le n) (Nat.zero_le n'))
    (succ : ∀ k n n' (hn : k ≤ n) (hn' : k ≤ n'), P k n n' hn hn' →
      P (k + 1) (n + 1) (n' + 1) (Nat.succ_le_succ hn) (Nat.succ_le_succ hn'))
    (k n n' : Nat) (hn : k ≤ n) (hn' : k ≤ n') : P k n n' hn hn' := by
  induction k generalizing n n' with
  | zero => exact zero n n'
  | succ k ih =>
    obtain ⟨n, rfl⟩ := Nat.exists_eq_add_one_of_ne_zero (Nat.ne_zero_of_lt hn)
    obtain ⟨n', rfl⟩ := Nat.exists_eq_add_one_of_ne_zero (Nat.ne_zero_of_lt hn')
    exact succ k n n' _ _ (ih n n' (Nat.le_of_succ_le_succ hn) (Nat.le_of_succ_le_succ hn'))

/-! ### Building rules -/

namespace SameBelow

variable {k : Nat}

theorem zero (r r' : Rule α) : SameBelow 0 r r' :=
  fun _ hts => absurd hts (Nat.not_lt_zero _)

theorem refl (r : Rule α) : SameBelow k r r :=
  fun _ _ => rfl

theorem mono {r r' : Rule α} {j : Nat} (h : SameBelow k r r') (hle : j ≤ k) : SameBelow j r r' :=
  fun ts hts => h ts (Nat.lt_of_lt_of_le hts hle)

theorem bind_of_ok {x x' : Rule α} {f f' : α → Rule β} (hx : SameBelow k x x')
    (hf : ∀ ts a rest, ts.length < k → x ts = .ok a rest → f a rest = f' a rest) :
    SameBelow k (x >>= f) (x' >>= f') := by
  intro ts hts
  change EStateM.bind x f ts = EStateM.bind x' f' ts
  rw [EStateM.bind, EStateM.bind, ← hx ts hts]
  cases hrun : x ts with
  | ok a rest => exact hf ts a rest hts hrun
  | error e rest => rfl

/-- The second rule of a sequence has no more tokens than the first. -/
theorem bind {x x' : Rule α} {f f' : α → Rule β} (hx : SameBelow k x x') (hleft : OneAhead x)
    (hf : ∀ a, SameBelow k (f a) (f' a)) : SameBelow k (x >>= f) (x' >>= f') := by
  refine hx.bind_of_ok fun ts a rest hts hrun => hf a rest ?_
  exact Nat.lt_of_le_of_lt (hleft.suffix ts (.ok a) rest hrun).length_le hts

theorem map {x x' : Rule α} (hx : SameBelow k x x') (g : α → β) :
    SameBelow k (g <$> x) (g <$> x') := by
  rw [map_eq_pure_bind, map_eq_pure_bind]
  exact hx.bind_of_ok fun _ _ _ _ _ => rfl

/-- Behind the first token there is one token less. -/
theorem advance {f f' : Unit → Rule α} (h : SameBelow k (f ()) (f' ())) {t : Token}
    {ts : List Token} (hts : (t :: ts).length < k + 1) :
    (Rule.advance >>= f) (t :: ts) = (Rule.advance >>= f') (t :: ts) :=
  h ts (Nat.lt_of_succ_lt_succ hts)

end SameBelow

/-! ### Lists of items -/

theorem items_sameBelow {item item' : Rule α} {closing : Kind} (hleft : OneAhead item)
    {k n n' : Nat} (hitem : SameBelow k item item') (hn : k ≤ n) (hn' : k ≤ n') :
    SameBelow k (items item closing n) (items item' closing n') := by
  induction k, n, n', hn, hn' using bounds_induction with
  | zero => exact .zero _ _
  | succ k n n' hn hn' ih =>
    refine hitem.bind hleft fun a ts hts => ?_
    cases ts with
    | nil => rfl
    | cons t ts =>
      -- more items come only behind a comma
      have hmore := ih (hitem.mono (Nat.le_succ k))
      change ite _ _ _ = ite _ _ _
      rw [hmore.map (a :: ·) ts (Nat.lt_of_succ_lt_succ hts)]

theorem listOf_sameBelow {item item' : Rule α} {closing : Kind} (hleft : OneAhead item)
    {k n n' : Nat} (hitem : SameBelow k item item') (hn : k ≤ n) (hn' : k ≤ n') :
    SameBelow k (listOf n item closing) (listOf n' item' closing) := by
  intro ts hts
  rw [listOf, listOf, peek_bind, peek_bind]
  split
  · rfl
  · exact items_sameBelow hleft hitem hn hn' ts hts

/-! ### Expressions -/

theorem atom_sameBelow {e e' : Rule Expr} (hleft : OneAhead e) {k n n' : Nat}
    (he : SameBelow k e e') (hn : k ≤ n) (hn' : k ≤ n') :
    SameBelow (k + 1) (atom n e) (atom n' e') := by
  intro ts hts
  cases ts with
  | nil => rfl
  | cons t ts =>
    replace hts := Nat.lt_of_succ_lt_succ hts
    rw [atom, atom]
    split
    case h_6 =>
      -- a name, and arguments if it is a call
      split
      · refine (listOf_sameBelow hleft he hn hn').map _ ts.tail ?_
        exact Nat.lt_of_le_of_lt (List.tail_suffix ts).length_le hts
      · rfl
    case h_7 => exact he.bind hleft (fun _ => .refl _) ts hts
    all_goals rfl

theorem chainOnto_sameBelow {a a' : Rule Expr} (hleft : OneAhead a) {k n n' : Nat}
    (ha : SameBelow k a a') (hn : k ≤ n) (hn' : k ≤ n') (pending : List (Expr × BinOp)) :
    SameBelow k (chainOnto a n pending) (chainOnto a' n' pending) := by
  induction k, n, n', hn, hn' using bounds_induction generalizing pending with
  | zero => exact .zero _ _
  | succ k n n' hn hn' ih =>
    refine .bind (.refl _) oneAhead_peek fun kind => ?_
    split
    · exact .bind (.refl _) oneAhead_advance fun _ => ha.bind hleft fun _ => .refl _
    · refine ha.bind hleft fun e us hus => ?_
      rw [peek_bind, peek_bind]
      generalize hk : kindAt us 0 = kind
      split
      · rfl
      · -- the rest of the chain comes behind an operator
        obtain ⟨t, vs, rfl, -⟩ := exists_of_kindAt hk (by simp)
        exact SameBelow.advance (ih (ha.mono (Nat.le_succ k)) _) hus
      · rfl

theorem expression_sameBelow {k n n' : Nat} (hn : k ≤ n) (hn' : k ≤ n') :
    SameBelow k (expression n) (expression n') := by
  induction k, n, n', hn, hn' using bounds_induction with
  | zero => exact .zero _ _
  | succ k n n' hn hn' ih =>
    have hleft := oneAhead_expression n
    exact chainOnto_sameBelow (oneAhead_atom hleft n) (atom_sameBelow hleft ih hn hn')
      (Nat.succ_le_succ hn) (Nat.succ_le_succ hn') []

/-! ### Statements -/

section Statements

variable {e e' : Rule Expr} {k : Nat} (hleft : OneAhead e) (he : SameBelow k e e')

include hleft he

theorem endedExpression_sameBelow (f : Expr → Stmt) :
    SameBelow k (e >>= fun c => ended (f c)) (e' >>= fun c => ended (f c)) :=
  he.bind hleft fun _ => .refl _

theorem condition_sameBelow : SameBelow k (condition e) (condition e') :=
  .bind (.refl _) (oneAhead_expect _) fun _ => he.bind hleft fun _ => .refl _

theorem declaration_sameBelow : SameBelow k (declaration e) (declaration e') := by
  refine .bind (.refl _) oneAhead_type fun t => .bind (.refl _) oneAhead_name fun x => ?_
  refine .bind (.refl _) oneAhead_peek fun kind => ?_
  split
  · exact .bind (.refl _) oneAhead_advance fun _ => endedExpression_sameBelow hleft he _
  · exact .refl _
  · exact .refl _

theorem simple_sameBelow : SameBelow k (simple e) (simple e') := by
  intro ts hts
  rw [simple, simple]
  split
  · refine SameBelow.bind (.refl _) oneAhead_name (fun x => ?_) ts hts
    exact .bind (.refl _) oneAhead_advance fun _ => endedExpression_sameBelow hleft he _
  · exact endedExpression_sameBelow hleft he _ ts hts

end Statements

theorem alternative_sameBelow {b b' : Rule (List Stmt)} {k : Nat} (hb : SameBelow k b b') :
    SameBelow k (alternative b) (alternative b') := by
  refine .bind (.refl _) oneAhead_peek fun kind => ?_
  split
  · exact .bind (.refl _) oneAhead_advance fun _ => hb
  · exact .refl _

/-- Blocks are read behind a keyword. -/
theorem statementOf_sameBelow {e e' : Rule Expr} {b b' : Rule (List Stmt)} {k : Nat}
    (hleft : OneAhead e) (he : SameBelow (k + 1) e e') (hbleft : OneAhead b)
    (hb : SameBelow k b b') : SameBelow (k + 1) (statementOf e b) (statementOf e' b') := by
  intro ts hts
  rw [statementOf, statementOf, peek_bind, peek_bind]
  have hcondition := condition_sameBelow hleft (he.mono (Nat.le_succ k))
  generalize hk : kindAt ts 0 = kind
  split
  · refine SameBelow.bind (.refl Rule.advance) oneAhead_advance (fun _ => ?_) ts hts
    exact endedExpression_sameBelow hleft he _
  · obtain ⟨t, us, rfl, -⟩ := exists_of_kindAt hk (by simp)
    refine SameBelow.advance ?_ hts
    refine hcondition.bind (oneAhead_condition hleft) fun c => hb.bind hbleft fun yes => ?_
    exact (alternative_sameBelow hb).bind (oneAhead_alternative hbleft) fun _ => .refl _
  · obtain ⟨t, us, rfl, -⟩ := exists_of_kindAt hk (by simp)
    refine SameBelow.advance ?_ hts
    exact hcondition.bind (oneAhead_condition hleft) fun c => hb.bind hbleft fun _ => .refl _
  · exact declaration_sameBelow hleft he ts hts
  · exact simple_sameBelow hleft he ts hts

/-- Every statement takes a token. -/
theorem statements_sameBelow {s s' : Rule Stmt} (hread : Reads s DerivesStmt) {k n n' : Nat}
    (hs : SameBelow k s s') (hn : k ≤ n) (hn' : k ≤ n') :
    SameBelow k (statements s n) (statements s' n') := by
  induction k, n, n', hn, hn' using bounds_induction with
  | zero => exact .zero _ _
  | succ k n n' hn hn' ih =>
    refine .bind (.refl _) oneAhead_peek fun kind => ?_
    split
    · exact .refl _
    · exact .refl _
    · refine hs.bind_of_ok fun ts a rest hts hrun => ?_
      obtain ⟨us, rfl, hus⟩ := hread ts a rest hrun
      have hpos := hus.length_pos
      rw [List.length_append] at hts
      exact (ih (hs.mono (Nat.le_succ k))).bind_of_ok (fun _ _ _ _ _ => rfl) rest (by omega)

theorem blockOf_sameBelow {s s' : Rule Stmt} (hread : Reads s DerivesStmt) {k n n' : Nat}
    (hs : SameBelow k s s') (hn : k ≤ n) (hn' : k ≤ n') :
    SameBelow k (blockOf n s) (blockOf n' s') :=
  .bind (.refl _) (oneAhead_expect _) fun _ => statements_sameBelow hread hs hn hn'

theorem statement_sameBelow {k n n' : Nat} (hn : k ≤ n) (hn' : k ≤ n') :
    SameBelow k (statement n) (statement n') := by
  induction k, n, n', hn, hn' using bounds_induction with
  | zero => exact .zero _ _
  | succ k n n' hn hn' ih =>
    exact statementOf_sameBelow (oneAhead_expression (n + 1))
      (expression_sameBelow (Nat.succ_le_succ hn) (Nat.succ_le_succ hn'))
      (oneAhead_blockOf (oneAhead_statement n) n)
      (blockOf_sameBelow (statement_reads n) ih hn hn')

/-! ### Programs -/

theorem definition_sameBelow {k n n' : Nat} (hn : k ≤ n) (hn' : k ≤ n') :
    SameBelow k (definition n) (definition n') := by
  refine .bind (.refl _) oneAhead_type fun t => .bind (.refl _) oneAhead_name fun f => ?_
  refine .bind (.refl _) (oneAhead_expect _) fun _ => ?_
  refine .bind (listOf_sameBelow oneAhead_param (.refl _) hn hn') (oneAhead_param.listOf _ n)
    fun ps => ?_
  exact (blockOf_sameBelow (statement_reads n) (statement_sameBelow hn hn') hn hn').bind_of_ok
    fun _ _ _ _ _ => rfl

/-- **Bounds do not matter** for programs. -/
theorem definitions_sameBelow {k b b' n n' : Nat} (hb : k ≤ b) (hb' : k ≤ b') (hn : k ≤ n)
    (hn' : k ≤ n') : SameBelow k (definitions b n) (definitions b' n') := by
  induction k, n, n', hn, hn' using bounds_induction with
  | zero => exact .zero _ _
  | succ k n n' hn hn' ih =>
    refine .bind (.refl _) oneAhead_peek fun kind => ?_
    split
    · refine (definition_sameBelow hb hb').bind_of_ok fun ts f rest hts hrun => ?_
      obtain ⟨us, rfl, hus⟩ := definition_reads b ts f rest hrun
      obtain ⟨t, vs, _, rfl, -⟩ := hus.opens
      rw [List.length_append, List.length_cons] at hts
      have hrest := ih (Nat.le_of_succ_le hb) (Nat.le_of_succ_le hb')
      exact hrest.bind_of_ok (fun _ _ _ _ _ => rfl) rest (by omega)
    · exact .refl _

end Scriptlet.Grammar
