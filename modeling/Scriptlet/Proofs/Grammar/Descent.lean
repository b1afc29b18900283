import Scriptlet.Proofs.Grammar.Bound

/-!
# Scriptlet.Proofs.Grammar.Descent

**A chain is read as the grammar's recursion reads it.** The rule for expressions goes through a
chain in a loop. The grammar describes the same thing by a recursion: behind an operator comes an
expression. Here the two are shown to be one, for every list of tokens and with every error.

* `descent` is one step of the recursion, given a rule for the expressions in it. The rule for
  expressions is the only one of which it is a step.
* `stackChain` is the loop with two stacks, of operands and of operators, and `Stacks.join` takes
  the tree off them. It is the same rule again, and at its end no stack has too much or too little
  on it.

Both rest on one fact about the loop: the operands that wait are joined to whatever the loop would
have given without them (`chainOnto_eq_map`).
-/

namespace Scriptlet.Grammar

open Rule

/-! ### Recursive descent -/

/-- Reads an expression from left to right: a step and an atom, an atom and a step, an atom and an
operator and the expression behind it, or an atom. -/
def descend (atom expression : Rule Expr) : Rule Expr := do
  match ← peek with
  | .step s =>
    advance
    let e ← atom
    return .step s .before e
  | _ =>
    let e ← atom
    match ← peek with
    | .step s =>
      advance
      return .step s .after e
    | .operator op =>
      advance
      let right ← expression
      return .binary e op right
    | _ => return e

/-- One step of the recursion. The given rule reads the expressions behind operators, in parentheses
and among arguments. -/
def descent (expression : Rule Expr) : Rule Expr := fun ts =>
  descend (atom (ts.length + 1) expression) expression ts

/-- Operands that wait are joined to what the rest of the chain gives. -/
theorem chainOnto_eq_map (atom : Rule Expr) (n : Nat) (pending : List (Expr × BinOp)) :
    chainOnto atom n pending = joinChain pending <$> chainOnto atom n [] := by
  induction n generalizing pending with
  | zero =>
    funext ts
    cases ts <;> rfl
  | succ n ih =>
    rw [chainOnto, chainOnto, map_bind]
    refine bind_congr fun k => ?_
    split
    · simp only [map_bind, map_pure]
      rfl
    · rw [map_bind]
      refine bind_congr fun e => ?_
      rw [map_bind]
      refine bind_congr fun k => ?_
      split
      · simp only [map_bind, map_pure]
        rfl
      · rw [map_bind]
        refine bind_congr fun _ => ?_
        rw [ih, ih [_], Functor.map_map]
        rfl
      · rw [map_pure]
        rfl

/-- The loop does a step of the recursion, in which the loop itself reads what is behind an
operator. -/
theorem chainOnto_succ (atom : Rule Expr) (n : Nat) :
    chainOnto atom (n + 1) [] = descend atom (chainOnto atom n []) := by
  rw [chainOnto, descend]
  refine bind_congr fun k => ?_
  cases k
  case step => rfl
  all_goals
    refine bind_congr fun e => ?_
    refine bind_congr fun k => ?_
    cases k
    case operator op =>
      refine bind_congr fun _ => ?_
      rw [chainOnto_eq_map, map_eq_pure_bind]
      rfl
    all_goals rfl

/-! ### The one solution -/

theorem descend_sameBelow {a a' e e' : Rule Expr} {k : Nat} (hleft : OneAhead a)
    (ha : SameBelow (k + 1) a a') (he : SameBelow k e e') :
    SameBelow (k + 1) (descend a e) (descend a' e') := by
  refine .bind (.refl _) oneAhead_peek fun kind => ?_
  split
  · exact .bind (.refl _) oneAhead_advance fun _ => ha.bind hleft fun _ => .refl _
  · refine ha.bind hleft fun x us hus => ?_
    rw [peek_bind, peek_bind]
    generalize hk : kindAt us 0 = kind
    split
    · rfl
    · -- the expression comes behind an operator
      obtain ⟨t, vs, rfl, -⟩ := exists_of_kindAt hk (by simp)
      exact SameBelow.advance (he.bind_of_ok fun _ _ _ _ _ => rfl) hus
    · rfl

/-- A step of the recursion takes a token before it comes back to itself. -/
theorem descent_sameBelow {e e' : Rule Expr} {k : Nat} (hleft : OneAhead e)
    (he : SameBelow k e e') : SameBelow (k + 1) (descent e) (descent e') := by
  intro ts hts
  have hsame : SameBelow ts.length e e' := he.mono (Nat.le_of_lt_succ hts)
  have hbound : ts.length ≤ ts.length + 1 := Nat.le_succ _
  exact descend_sameBelow (oneAhead_atom hleft _) (atom_sameBelow hleft hsame hbound hbound) hsame
    ts (Nat.lt_succ_self _)

/-- Two rules of which `descent` is a step are the same. -/
theorem eq_of_descent {r r' : Rule Expr} (hleft : OneAhead r) (hr : r = descent r)
    (hr' : r' = descent r') : r = r' := by
  have hsame : ∀ k, SameBelow k r r' := by
    intro k
    induction k with
    | zero => exact .zero r r'
    | succ k ih =>
      have hstep := descent_sameBelow hleft ih
      rwa [← hr, ← hr'] at hstep
  funext ts
  exact hsame (ts.length + 1) ts (Nat.lt_succ_self _)

theorem readExpression_sameBelow (n : Nat) : SameBelow n (expression n) readExpression :=
  fun ts hts =>
    expression_sameBelow (k := ts.length + 1) hts (Nat.le_refl _) ts (Nat.lt_succ_self _)

theorem oneAhead_readExpression : OneAhead readExpression where
  suffix ts := (oneAhead_expression (ts.length + 1)).suffix ts
  same us ts ts' o hhead h := by
    -- a bound that is enough for both lists
    let n := (us ++ ts).length + (us ++ ts').length + 1
    have hsame := readExpression_sameBelow n
    rw [← hsame _ (by omega)] at h ⊢
    exact (oneAhead_expression n).same us ts ts' o hhead h

theorem chain_sameBelow (n : Nat) :
    SameBelow n (chainOnto (atom n (expression n)) n []) (expression n) := by
  cases n with
  | zero => exact .zero _ _
  | succ n =>
    have hexpr : SameBelow n (expression (n + 1)) (expression n) :=
      expression_sameBelow (Nat.le_succ n) (Nat.le_refl n)
    have hatom := atom_sameBelow (oneAhead_expression _) hexpr (Nat.le_succ n) (Nat.le_refl n)
    exact chainOnto_sameBelow (oneAhead_atom (oneAhead_expression _) _) hatom (Nat.le_refl _)
      (Nat.le_refl _) []

/-- The rule for expressions satisfies the recursion. -/
theorem readExpression_eq_descent : readExpression = descent readExpression := by
  funext ts
  have hexpr : SameBelow ts.length (expression ts.length) readExpression :=
    readExpression_sameBelow _
  have hatom := atom_sameBelow (oneAhead_expression _) hexpr (Nat.le_refl _) (Nat.le_succ _)
  have hchain : SameBelow ts.length
      (chainOnto (atom ts.length (expression ts.length)) ts.length []) readExpression :=
    fun us hus => (chain_sameBelow _ us hus).trans (hexpr us hus)
  have hstep := descend_sameBelow (oneAhead_atom (oneAhead_expression _) _) hatom hchain
  rw [readExpression, expression, chainOnto_succ]
  exact hstep ts (Nat.lt_succ_self _)

/-! ### Two stacks -/

/-- The operands and the operators of a chain that have been passed, newest first. -/
structure Stacks where
  operands : List Expr
  operators : List BinOp

/-- The stacks of operands that wait for the rest of a chain, each with its operator. -/
def Stacks.ofPending (pending : List (Expr × BinOp)) : Stacks :=
  ⟨pending.map Prod.fst, pending.map Prod.snd⟩

/-- An operand more. -/
def Stacks.push (s : Stacks) (e : Expr) : Stacks :=
  { s with operands := e :: s.operands }

/-- An operator more. -/
def Stacks.pushOperator (s : Stacks) (op : BinOp) : Stacks :=
  { s with operators := op :: s.operators }

/-- What a round of the loop over a chain ends with: the stacks, with or without a chain to go on
with. -/
inductive Round where
  | last (s : Stacks)
  | more (s : Stacks)

/-- One round of the loop: an operand, and an operator if one follows. -/
def stackRound (atom : Rule Expr) (s : Stacks) : Rule Round := do
  match ← peek with
  | .step st =>
    advance
    let e ← atom
    return .last (s.push (.step st .before e))
  | _ =>
    let e ← atom
    match ← peek with
    | .step st =>
      advance
      return .last (s.push (.step st .after e))
    | .operator op =>
      advance
      return .more ((s.push e).pushOperator op)
    | _ => return .last (s.push e)

/-- Goes through a chain up to its last operand. -/
def stackChain (atom : Rule Expr) : Nat → Stacks → Rule Stacks
  | 0, _ => exhausted
  | n + 1, s => do
    match ← stackRound atom s with
    | .last s' => return s'
    | .more s' => stackChain atom n s'

/-- Takes an operator and an operand off the stacks for as long as there is one of both. What is
then left on either is dropped. -/
def joinStacks : List Expr → List BinOp → Expr → Expr
  | left :: operands, op :: operators, right =>
    joinStacks operands operators (.binary left op right)
  | _, _, right => right

/-- The tree of a chain: the newest operand, joined to those before it. Without an operand there is
none. -/
def Stacks.join (s : Stacks) : Rule Expr :=
  match s.operands with
  | [] => fail .expression
  | last :: operands => pure (joinStacks operands s.operators last)

/-- Reads an expression with two stacks for every chain in it. -/
def stackExpression : Nat → Rule Expr
  | 0 => exhausted
  | n + 1 => do
    let s ← stackChain (atom n (stackExpression n)) (n + 1) ⟨[], []⟩
    s.join

/-- Reads an expression by means of stacks, with bounds from the number of tokens. -/
def readStackExpression : Rule Expr := fun ts => stackExpression (ts.length + 1) ts

theorem joinStacks_ofPending (pending : List (Expr × BinOp)) (last : Expr) :
    joinStacks (pending.map Prod.fst) (pending.map Prod.snd) last = joinChain pending last := by
  induction pending generalizing last with
  | nil => rfl
  | cons p pending ih => exact ih _

/-- With a last operand on them, the stacks are joined like the operands that wait. -/
theorem join_ofPending (pending : List (Expr × BinOp)) (last : Expr) :
    ((Stacks.ofPending pending).push last).join = pure (joinChain pending last) := by
  rw [← joinStacks_ofPending]
  rfl

theorem stackChain_join (atom : Rule Expr) (n : Nat) (pending : List (Expr × BinOp)) :
    (stackChain atom n (.ofPending pending) >>= Stacks.join) = chainOnto atom n pending := by
  induction n generalizing pending with
  | zero =>
    funext ts
    cases ts <;> rfl
  | succ n ih =>
    rw [stackChain, stackRound, chainOnto, bind_assoc, bind_assoc]
    refine bind_congr fun k => ?_
    cases k
    case step => simp only [bind_assoc, pure_bind, join_ofPending]
    all_goals
      rw [bind_assoc]
      refine bind_congr fun e => ?_
      rw [bind_assoc]
      refine bind_congr fun k => ?_
      cases k
      case step => simp only [bind_assoc, pure_bind, join_ofPending]
      case operator op =>
        rw [bind_assoc]
        exact bind_congr fun _ => ih ((e, op) :: pending)
      all_goals rw [pure_bind, pure_bind, join_ofPending]

/-- The loop with two stacks is the rule for expressions. -/
theorem stackExpression_eq (n : Nat) : stackExpression n = expression n := by
  induction n with
  | zero => rfl
  | succ n ih =>
    rw [stackExpression, ih, expression]
    exact stackChain_join _ _ []

/-! ### What is on the stacks -/

/-- The tokens of a chain, its operands and its operators in their order, and its tree. Each operand
and each operator is in the tree once. -/
inductive Chained : List Token → List Expr → List BinOp → Expr → Prop
  | before {t : Token} {ts : List Token} {s : Step} {a : Expr} (ht : t.kind = .step s)
      (ha : DerivesAtom ts a) :
      Chained (t :: ts) [.step s .before a] [] (.step s .before a)
  | after {t : Token} {ts : List Token} {s : Step} {a : Expr} (ha : DerivesAtom ts a)
      (ht : t.kind = .step s) : Chained (ts ++ [t]) [.step s .after a] [] (.step s .after a)
  | atom {ts : List Token} {a : Expr} (ha : DerivesAtom ts a) : Chained ts [a] [] a
  | chain {t : Token} {ts us : List Token} {a e : Expr} {op : BinOp} {operands : List Expr}
      {operators : List BinOp} (ha : DerivesAtom ts a) (ht : t.kind = .operator op)
      (he : Chained us operands operators e) :
      Chained (ts ++ t :: us) (a :: operands) (op :: operators) (.binary a op e)

/-- All that a round can do: it ends the chain with an operand, or it passes an atom and an
operator. -/
theorem stackRound_reads {atom : Rule Expr} (hatom : Reads atom DerivesAtom) (s : Stacks) :
    Reads (stackRound atom s) fun us r =>
      (∃ e, r = .last (s.push e) ∧ Chained us [e] [] e) ∨
      ∃ ws t a op, us = ws ++ [t] ∧ DerivesAtom ws a ∧ t.kind = .operator op ∧
        r = .more ((s.push a).pushOperator op) := by
  intro ts r rest h
  rw [stackRound, peek_bind] at h
  generalize hk : kindAt ts 0 = k at h
  split at h
  · obtain ⟨t, us, rfl, ht⟩ := exists_of_kindAt hk (by simp)
    rw [advance_bind, bind_eq_ok_iff] at h
    obtain ⟨a, vs, ha, h⟩ := h
    obtain ⟨rfl, rfl⟩ := pure_eq_ok_iff.1 h
    obtain ⟨ws, hws, hda⟩ := hatom _ _ _ ha
    exact ⟨t :: ws, congrArg (t :: ·) hws, .inl ⟨_, rfl, .before ht hda⟩⟩
  · rw [bind_eq_ok_iff] at h
    obtain ⟨a, vs, ha, h⟩ := h
    obtain ⟨ws, rfl, hda⟩ := hatom _ _ _ ha
    rw [peek_bind] at h
    generalize hk : kindAt vs 0 = k at h
    split at h
    · obtain ⟨t, us, rfl, ht⟩ := exists_of_kindAt hk (by simp)
      obtain ⟨rfl, rfl⟩ := pure_eq_ok_iff.1 h
      exact ⟨ws ++ [t], by simp, .inl ⟨_, rfl, .after hda ht⟩⟩
    · obtain ⟨t, us, rfl, ht⟩ := exists_of_kindAt hk (by simp)
      obtain ⟨rfl, rfl⟩ := pure_eq_ok_iff.1 h
      exact ⟨ws ++ [t], by simp, .inr ⟨ws, t, a, _, rfl, hda, ht, rfl⟩⟩
    · obtain ⟨rfl, rfl⟩ := pure_eq_ok_iff.1 h
      exact ⟨ws, rfl, .inl ⟨a, rfl, .atom hda⟩⟩

theorem joinChain_concat (pending : List (Expr × BinOp)) (a : Expr) (op : BinOp) (last : Expr) :
    joinChain (pending ++ [(a, op)]) last = .binary a op (joinChain pending last) := by
  rw [joinChain, List.foldl_append]
  rfl

/-- The loop puts the operands and the operators of a chain onto the stacks. -/
theorem stackChain_reads {atom : Rule Expr} (hatom : Reads atom DerivesAtom) (n : Nat)
    (waiting : List (Expr × BinOp)) :
    Reads (stackChain atom n (.ofPending waiting)) fun us s => ∃ pending last,
      s = (Stacks.ofPending (pending ++ waiting)).push last ∧
      Chained us ((pending.map Prod.fst).reverse ++ [last]) (pending.map Prod.snd).reverse
        (joinChain pending last) := by
  induction n generalizing waiting with
  | zero => exact reads_exhausted _
  | succ n ih =>
    intro ts s rest h
    rw [stackChain, bind_eq_ok_iff] at h
    obtain ⟨r, vs, hround, h⟩ := h
    obtain ⟨us, rfl, ⟨e, rfl, hchained⟩ | ⟨ws, t, a, op, rfl, hda, ht, rfl⟩⟩ :=
      stackRound_reads hatom _ _ _ _ hround
    · obtain ⟨rfl, rfl⟩ := pure_eq_ok_iff.1 h
      exact ⟨us, rfl, [], e, rfl, hchained⟩
    · -- the operand and the operator lie under all that comes after them
      obtain ⟨xs, rfl, pending, last, rfl, hchained⟩ := ih ((a, op) :: waiting) _ _ _ h
      refine ⟨ws ++ t :: xs, by simp, pending ++ [(a, op)], last, by simp, ?_⟩
      have hchain := Chained.chain hda ht hchained
      simpa [joinChain_concat] using hchain

namespace Stacks

/-- There are as many operands as operators on the stacks. -/
def Balanced (s : Stacks) : Prop :=
  s.operands.length = s.operators.length

/-- There is one operand more than there are operators on the stacks. -/
def Complete (s : Stacks) : Prop :=
  s.operands.length = s.operators.length + 1

theorem Balanced.push {s : Stacks} (h : s.Balanced) (e : Expr) : (s.push e).Complete :=
  congrArg (· + 1) h

theorem Complete.pushOperator {s : Stacks} (h : s.Complete) (op : BinOp) :
    (s.pushOperator op).Balanced := h

theorem Complete.operands_ne_nil {s : Stacks} (h : s.Complete) : s.operands ≠ [] :=
  List.ne_nil_of_length_eq_add_one h

end Stacks

/-- The stacks are as they have to be at the end of a round. -/
def Round.Fits : Round → Prop
  | last s => s.Complete
  | more s => s.Balanced

/-- The stacks and the tokens with which the loop can begin a round, on a chain of the given
tokens. -/
inductive BeginsRound (atom : Rule Expr) (ts : List Token) : Stacks → List Token → Prop
  | first : BeginsRound atom ts ⟨[], []⟩ ts
  | next {s s' : Stacks} {us vs : List Token} (h : BeginsRound atom ts s us)
      (hround : stackRound atom s us = .ok (.more s') vs) : BeginsRound atom ts s' vs

section Invariant

variable {atom : Rule Expr} {s s' : Stacks} {ts us vs rest : List Token}

/-- A round that begins with balanced stacks either completes them or balances them again. -/
theorem stackRound_fits {r : Round} (hatom : Reads atom DerivesAtom) (hs : s.Balanced)
    (h : stackRound atom s us = .ok r vs) : r.Fits := by
  obtain ⟨-, -, ⟨e, rfl, -⟩ | ⟨-, -, a, op, -, -, -, rfl⟩⟩ := stackRound_reads hatom s _ _ _ h
  · exact hs.push e
  · exact (hs.push a).pushOperator op

theorem BeginsRound.balanced (hatom : Reads atom DerivesAtom) (h : BeginsRound atom ts s us) :
    s.Balanced := by
  induction h with
  | first => exact Eq.refl 0
  | next _ hround ih => exact stackRound_fits hatom ih hround

/-- The loop ends with the last of the rounds that it goes through. -/
theorem exists_last_round {n : Nat} (hs : BeginsRound atom ts s us)
    (h : stackChain atom n s us = .ok s' rest) :
    ∃ r ws, BeginsRound atom ts r ws ∧ stackRound atom r ws = .ok (.last s') rest := by
  induction n generalizing s us with
  | zero => exact absurd h exhausted_ne_ok
  | succ n ih =>
    rw [stackChain, bind_eq_ok_iff] at h
    obtain ⟨r, vs, hround, h⟩ := h
    cases r with
    | last s'' =>
      obtain ⟨rfl, rfl⟩ := pure_eq_ok_iff.1 h
      exact ⟨s, us, hs, hround⟩
    | more s'' => exact ih (hs.next hround) h

end Invariant

/-- **The loop is the recursion.** The rule for expressions is what one step of recursive descent
makes of itself, and no other rule is. Reading with two stacks gives that rule too, on every list of
tokens, for errors as for trees. Every round of the loop begins with as many operands as operators
on the stacks and ends so too if it goes on, and otherwise with one operand more. So the loop always
ends with an operand to begin the tree with, and the tree has all operands and all operators, in the
order of their tokens. -/
theorem readExpression_descends :
    (∀ r : Rule Expr, r = descent r ↔ r = readExpression) ∧
    readStackExpression = readExpression ∧
    ∀ (n : Nat) (ts : List Token),
      (∀ s us, BeginsRound (atom n (stackExpression n)) ts s us → s.Balanced ∧
        ∀ r vs, stackRound (atom n (stackExpression n)) s us = .ok r vs → r.Fits) ∧
      ∀ s rest, stackChain (atom n (stackExpression n)) (n + 1) ⟨[], []⟩ ts = .ok s rest →
        s.Complete ∧ s.operands ≠ [] ∧ ∃ us e, ts = us ++ rest ∧
          Chained us s.operands.reverse s.operators.reverse e ∧ s.join rest = .ok e rest := by
  have hatom (n : Nat) : Reads (atom n (stackExpression n)) DerivesAtom := by
    rw [stackExpression_eq]
    exact atom_reads (expression_reads n)
  refine ⟨fun r => ⟨fun hr => ?_, ?_⟩, ?_, fun n ts => ⟨fun s us hbegins => ?_, fun s rest h => ?_⟩⟩
  · exact (eq_of_descent oneAhead_readExpression readExpression_eq_descent hr).symm
  · rintro rfl
    exact readExpression_eq_descent
  · funext ts
    rw [readStackExpression, stackExpression_eq, readExpression]
  · have hbalanced := hbegins.balanced (hatom n)
    exact ⟨hbalanced, fun r vs hround => stackRound_fits (hatom n) hbalanced hround⟩
  · obtain ⟨s', us, hbegins, hlast⟩ := exists_last_round .first h
    have hcomplete : s.Complete := stackRound_fits (hatom n) (hbegins.balanced (hatom n)) hlast
    refine ⟨hcomplete, hcomplete.operands_ne_nil, ?_⟩
    obtain ⟨us, rfl, pending, last, rfl, hchained⟩ := stackChain_reads (hatom n) _ [] _ _ _ h
    rw [List.append_nil]
    refine ⟨us, joinChain pending last, rfl, ?_, ?_⟩
    · simpa [Stacks.push, Stacks.ofPending] using hchained
    · rw [join_ofPending]
      rfl

/-- The chain `1 - f() * y++`, up to a semicolon: the stacks at its second round and at its end. -/
theorem readExpression_descends_call :
    ∃ (s s' : Stacks) (ts us vs rest : List Token),
      ts = [⟨.int, "1", 0⟩, ⟨.operator .sub, "-", 2⟩] ++ us ∧
      us = [⟨.identifier, "f", 4⟩, ⟨.mark .openParen, "(", 5⟩, ⟨.mark .closeParen, ")", 6⟩,
        ⟨.operator .mul, "*", 8⟩] ++ vs ∧
      vs = [⟨.identifier, "y", 10⟩, ⟨.step .increment, "++", 11⟩] ++ rest ∧
      rest = [⟨.mark .semicolon, ";", 13⟩] ∧
      s = ⟨[.int 1], [.sub]⟩ ∧
      s' = ⟨[.step .increment .after (.var "y"), .call "f" [], .int 1], [.mul, .sub]⟩ ∧
      BeginsRound (atom 9 (stackExpression 9)) ts s us ∧ s.Balanced ∧
      (∃ r, stackRound (atom 9 (stackExpression 9)) s us = .ok r vs ∧ r.Fits) ∧
      stackChain (atom 9 (stackExpression 9)) 10 ⟨[], []⟩ ts = .ok s' rest ∧
      s'.Complete ∧ s'.operands ≠ [] ∧ ∃ ws e, ts = ws ++ rest ∧
        Chained ws s'.operands.reverse s'.operators.reverse e ∧ s'.join rest = .ok e rest := by
  obtain ⟨hround, hend⟩ := readExpression_descends.2.2 9 _
  refine ⟨_, _, _, _, _, _, rfl, rfl, rfl, rfl, rfl, rfl, ?second, (hround _ _ ?second).1,
    ⟨_, rfl, (hround _ _ ?second).2 _ _ rfl⟩, rfl, hend _ _ rfl⟩
  case second => exact .next .first rfl

end Scriptlet.Grammar
