import Scriptlet.Proofs.Grammar.Cursor
import Scriptlet.Proofs.Grammar.Descent

/-!
# Scriptlet.Proofs.Grammar.Termination

**Reading ends.** The rules bound how deep they nest and how often their loops go round, and a bound
that is used up answers with an error like any other. Here it is shown that no bound is ever used
up: the rules are written once more with loops, with anything at all as the answer beyond a bound,
and on fewer tokens than the bound this answer goes unnoticed. So without bounds the same loops and
the same recursion come to an end, with the answer of the rules.

* `loop` is a loop of a rule: its rounds hand a state on until one of them leaves with the result.
  The four loops of the grammar are given by their rounds, `chainTurn`, `itemTurn`, `blockTurn` and
  `programTurn`.
* A rule progresses if it takes a token whenever it succeeds. Every round of every loop does, so a
  loop cannot go round more often than there are tokens (`loop_sameBelow`).
* Each nested rule starts behind a token, so it has one token less, as it has one less of its bound.
-/

namespace Scriptlet.Grammar

open Rule

variable {α β σ : Type}

/-! ### Progress -/

/-- The rule takes a token whenever it succeeds. -/
def Progresses (r : Rule α) : Prop :=
  ∀ ts a rest, r ts = .ok a rest → rest.length < ts.length

/-- The rule takes tokens from the front of the list and no more than there are, and one at least if
it succeeds. -/
def Consumes (r : Rule α) : Prop :=
  ∀ ts, (∀ a rest, r ts = .ok a rest → ∃ t taken, ts = t :: (taken ++ rest)) ∧
    ∀ e rest, r ts = .error e rest → ∃ taken, ts = taken ++ rest

theorem progresses_of_reads {D : List Token → α → Prop} {r : Rule α} (h : Reads r D)
    (hpos : ∀ us a, D us a → 0 < us.length) : Progresses r := by
  intro ts a rest hrun
  obtain ⟨us, rfl, hD⟩ := h ts a rest hrun
  have hus := hpos us a hD
  rw [List.length_append]
  omega

theorem DerivesBlock.length_pos {us : List Token} {ss : List Stmt} (h : DerivesBlock us ss) :
    0 < us.length := by
  cases h
  exact Nat.succ_pos _

theorem DerivesDefinition.length_pos {us : List Token} {f : Function} (h : DerivesDefinition us f) :
    0 < us.length := by
  cases h <;> exact Nat.succ_pos _

theorem DerivesProgram.length_pos {us : List Token} {p : Program} (h : DerivesProgram us p) :
    0 < us.length := by
  cases h with
  | done => exact Nat.succ_pos _
  | more hf =>
    rw [List.length_append]
    exact Nat.lt_of_lt_of_le hf.length_pos (Nat.le_add_right _ _)

theorem progresses_expression (n : Nat) : Progresses (expression n) :=
  progresses_of_reads (expression_reads n) fun _ _ h => h.length_pos

theorem progresses_statement (n : Nat) : Progresses (statement n) :=
  progresses_of_reads (statement_reads n) fun _ _ h => h.length_pos

theorem progresses_definition (n : Nat) : Progresses (definition n) :=
  progresses_of_reads (definition_reads n) fun _ _ h => h.length_pos

theorem progresses_param : Progresses param :=
  progresses_of_reads param_reads fun us _ h => by
    obtain ⟨t, x, ty, rfl, -⟩ := h
    exact Nat.succ_pos _

theorem ReadsPart.progresses {r : Rule α} (h : ReadsPart r) : Progresses r := by
  cases h with
  | expression => exact fun ts => progresses_expression (ts.length + 1) ts
  | atom =>
    exact progresses_of_reads (reads_of_bound boundedAtom_reads) fun _ _ h =>
      DerivesExpr.length_pos (.atom h)
  | statement => exact fun ts => progresses_statement (ts.length + 1) ts
  | block => exact progresses_of_reads (reads_of_bound block_reads) fun _ _ h => h.length_pos
  | definition => exact fun ts => progresses_definition (ts.length + 1) ts

/-- What is left over of tokens, if it is less, is left over behind the first of them. -/
theorem exists_cons_of_length_lt {ts rest : List Token} (h : LeavesEnd ts rest)
    (hlt : rest.length < ts.length) : ∃ t taken, ts = t :: (taken ++ rest) := by
  obtain ⟨taken, rfl, -⟩ := h
  cases taken with
  | nil => exact absurd hlt (Nat.lt_irrefl _)
  | cons t taken => exact ⟨t, taken, rfl⟩

theorem ReadsPart.consumes {r : Rule α} (h : ReadsPart r) : Consumes r := by
  refine fun ts => ⟨fun a rest hrun => ?_, fun e rest hrun => ?_⟩
  · exact exists_cons_of_length_lt (h.leavesEnd_of_ok hrun) (h.progresses ts a rest hrun)
  · obtain ⟨taken, hts, -⟩ := h.leavesEnd_of_error hrun
    exact ⟨taken, hts⟩

theorem consumes_readProgram : Consumes readProgram := by
  refine fun ts => ⟨fun p rest hrun => ?_, fun e rest hrun => ?_⟩
  · obtain ⟨us, rfl, hp⟩ := readProgram_reads ts p rest hrun
    obtain ⟨t, us, rfl⟩ := List.exists_cons_of_length_pos hp.length_pos
    exact ⟨t, us, rfl⟩
  · obtain ⟨taken, hts, -⟩ := readProgram_leavesEnd hrun
    exact ⟨taken, hts⟩

/-! ### Loops -/

/-- How a round of a loop ends: the loop goes round again with a new state, or it is left. -/
inductive Turn (σ α : Type) where
  | again (s : σ)
  | leave (a : α)

/-- Goes round until a round leaves the loop, at most as often as the bound says. Beyond the bound
the answer is that of `cut`. -/
def loop (round : σ → Rule (Turn σ α)) (cut : Rule α) : Nat → σ → Rule α
  | 0, _ => cut
  | n + 1, s => do
    match ← round s with
    | .again s' => loop round cut n s'
    | .leave a => return a

/-- **Loops end.** Where every round takes a token, a bound that exceeds the number of tokens is not
used up, and it does not matter what would be answered beyond it. -/
theorem loop_sameBelow {round round' : σ → Rule (Turn σ α)} {cut cut' : Rule α}
    (hround : ∀ s, Progresses (round s)) {k n n' : Nat}
    (hsame : ∀ s, SameBelow k (round s) (round' s)) (hn : k ≤ n) (hn' : k ≤ n') (s : σ) :
    SameBelow k (loop round cut n s) (loop round' cut' n' s) := by
  induction k, n, n', hn, hn' using bounds_induction generalizing s with
  | zero => exact .zero _ _
  | succ k n n' hn hn' ih =>
    refine (hsame s).bind_of_ok fun ts turn rest hts hrun => ?_
    cases turn with
    | leave a => rfl
    | again s' =>
      have hless := hround s ts _ rest hrun
      exact ih (fun s => (hsame s).mono (Nat.le_succ k)) s' rest (by omega)

/-! ### Rounds -/

/-- How the round of a chain goes on. -/
def Round.turn : Round → Turn Stacks Stacks
  | last s => .leave s
  | more s => .again s

/-- A round of the loop over a chain. -/
def chainTurn (atom : Rule Expr) (s : Stacks) : Rule (Turn Stacks Stacks) :=
  Round.turn <$> stackRound atom s

/-- Reads a comma or the closing token, and says whether it was a comma. -/
def commaOr (closing : Kind) : Rule Bool
  | [] => .error (.unexpectedEnd (.kind closing)) []
  | t :: rest =>
    if t.kind = .mark .comma then .ok true rest
    else if t.kind = closing then .ok false rest
    else .error (.unexpectedToken (.commaOr closing) t.lexeme t.offset) (t :: rest)

/-- A round of the loop over a list: an item, and a comma or the closing token. -/
def itemTurn (item : Rule α) (closing : Kind) (as : List α) : Rule (Turn (List α) (List α)) := do
  let a ← item
  if ← commaOr closing then return .again (as ++ [a])
  else return .leave (as ++ [a])

/-- A round of the loop over a block: its closing brace or a statement. At the end of the text the
brace is asked for, and the loop would go round again if it were there. -/
def blockTurn (statement : Rule Stmt) (ss : List Stmt) : Rule (Turn (List Stmt) (List Stmt)) := do
  match ← peek with
  | .mark .closeBrace =>
    advance
    return .leave ss
  | .endOfInput =>
    let _ ← expect (.mark .closeBrace)
    return .again ss
  | _ =>
    let s ← statement
    return .again (ss ++ [s])

/-- A round of the loop over a program: a definition or the end. -/
def programTurn (definition : Rule Function) (p : Program) : Rule (Turn Program Program) := do
  match ← peek with
  | .type _ =>
    let f ← definition
    return .again (p ++ [f])
  | _ =>
    let _ ← expectAs .definitionOrEnd .endOfInput
    return .leave p

/-! ### Rounds take tokens -/

theorem progresses_chainTurn {atom : Rule Expr} (hatom : Reads atom DerivesAtom) (s : Stacks) :
    Progresses (chainTurn atom s) := by
  intro ts turn rest h
  obtain ⟨r, hround, -⟩ := map_eq_ok_iff.1 h
  have hread := stackRound_reads hatom s
  refine progresses_of_reads hread (fun us r hr => ?_) ts r rest hround
  obtain ⟨e, -, hchained⟩ | ⟨ws, t, a, op, rfl, -⟩ := hr
  · cases hchained with
    | before => exact Nat.succ_pos _
    | after => simp
    | atom ha => exact DerivesExpr.length_pos (.atom ha)
  · simp

theorem progresses_commaOr (closing : Kind) : Progresses (commaOr closing) := by
  intro ts more rest h
  cases ts with
  | nil => cases h
  | cons t ts =>
    rw [commaOr] at h
    split at h
    · cases h
      exact Nat.lt_succ_self _
    · split at h
      · cases h
        exact Nat.lt_succ_self _
      · cases h

theorem progresses_itemTurn {item : Rule α} (hitem : Progresses item) (closing : Kind)
    (as : List α) : Progresses (itemTurn item closing as) := by
  intro ts turn rest h
  obtain ⟨a, us, ha, h⟩ := bind_eq_ok_iff.1 h
  obtain ⟨more, vs, hmore, h⟩ := bind_eq_ok_iff.1 h
  have hrest : vs = rest := by
    cases more with
    | true => exact (pure_eq_ok_iff.1 h).2
    | false => exact (pure_eq_ok_iff.1 h).2
  exact hrest ▸ (progresses_commaOr closing us more vs hmore).trans (hitem ts a us ha)

/-- **The end of the text inside a block** is where the block fails, and it takes nothing. -/
theorem blockTurn_of_end (statement : Rule Stmt) (ss : List Stmt) {ts : List Token}
    (h : kindAt ts 0 = .endOfInput) :
    blockTurn statement ss ts = (fail (.kind (.mark .closeBrace)) : Rule _) ts := by
  rw [blockTurn, peek_bind, h]
  cases ts with
  | nil => rfl
  | cons t ts =>
    have ht : t.kind ≠ .mark .closeBrace := by
      rw [kindAt_cons] at h
      rw [h]
      nofun
    have hexpect : expect (.mark .closeBrace) (t :: ts) =
        .error (.unexpectedToken (.kind (.mark .closeBrace)) t.lexeme t.offset) (t :: ts) :=
      if_neg ht
    change EStateM.bind (expect (.mark .closeBrace)) _ (t :: ts) = _
    rw [EStateM.bind, hexpect]
    rfl

theorem progresses_blockTurn {statement : Rule Stmt} (hstatement : Progresses statement)
    (ss : List Stmt) : Progresses (blockTurn statement ss) := by
  intro ts turn rest h
  by_cases hend : kindAt ts 0 = .endOfInput
  · rw [blockTurn_of_end statement ss hend] at h
    exact absurd h fail_ne_ok
  · rw [blockTurn, peek_bind] at h
    generalize hk : kindAt ts 0 = k at h
    rw [hk] at hend
    split at h
    · obtain ⟨t, us, rfl, -⟩ := exists_of_kindAt hk hend
      obtain ⟨-, rfl⟩ := pure_eq_ok_iff.1 h
      exact Nat.lt_succ_self _
    · exact absurd rfl hend
    · rw [bind_eq_ok_iff] at h
      obtain ⟨s, us, hs, h⟩ := h
      obtain ⟨-, rfl⟩ := pure_eq_ok_iff.1 h
      exact hstatement ts s us hs

theorem progresses_programTurn {definition : Rule Function} (hdefinition : Progresses definition)
    (p : Program) : Progresses (programTurn definition p) := by
  intro ts turn rest h
  rw [programTurn, peek_bind] at h
  generalize kindAt ts 0 = k at h
  split at h
  · rw [bind_eq_ok_iff] at h
    obtain ⟨f, us, hf, h⟩ := h
    obtain ⟨-, rfl⟩ := pure_eq_ok_iff.1 h
    exact hdefinition ts f us hf
  · rw [bind_eq_ok_iff] at h
    obtain ⟨t, us, hexp, h⟩ := h
    obtain ⟨rfl, -⟩ := expectAs_eq_ok_iff.1 hexp
    obtain ⟨-, rfl⟩ := pure_eq_ok_iff.1 h
    exact Nat.lt_succ_self _

/-! ### The loops of the rules -/

theorem loop_chainTurn (atom : Rule Expr) (n : Nat) (s : Stacks) :
    loop (chainTurn atom) exhausted n s = stackChain atom n s := by
  induction n generalizing s with
  | zero => rfl
  | succ n ih =>
    rw [loop, stackChain, chainTurn, map_eq_pure_bind, bind_assoc]
    refine bind_congr fun r => ?_
    rw [pure_bind]
    cases r with
    | last s' => rfl
    | more s' => exact ih s'

/-- Behind an item comes a comma and more items, or the closing token. -/
theorem items_succ (item : Rule α) (closing : Kind) (n : Nat) :
    items item closing (n + 1) = do
      let a ← item
      if ← commaOr closing then (a :: ·) <$> items item closing n else return [a] := by
  refine bind_congr fun a => funext fun ts => ?_
  cases ts with
  | nil => rfl
  | cons t ts =>
    change ite _ _ _ = EStateM.bind (commaOr closing) _ (t :: ts)
    rw [EStateM.bind, commaOr]
    split
    · rfl
    · split <;> rfl

theorem loop_itemTurn (item : Rule α) (closing : Kind) (n : Nat) (as : List α) :
    loop (itemTurn item closing) exhausted n as = (as ++ ·) <$> items item closing n := by
  induction n generalizing as with
  | zero =>
    funext ts
    cases ts <;> rfl
  | succ n ih =>
    rw [loop, items_succ, itemTurn, bind_assoc, map_bind]
    refine bind_congr fun a => ?_
    rw [bind_assoc, map_bind]
    refine bind_congr fun more => ?_
    cases more with
    | true =>
      change loop (itemTurn item closing) exhausted n (as ++ [a]) = _
      rw [ih]
      simp
    | false => rfl

theorem loop_blockTurn (statement : Rule Stmt) (n : Nat) (ss : List Stmt) :
    loop (blockTurn statement) exhausted n ss = (ss ++ ·) <$> statements statement n := by
  induction n generalizing ss with
  | zero =>
    funext ts
    cases ts <;> rfl
  | succ n ih =>
    funext ts
    by_cases hend : kindAt ts 0 = .endOfInput
    · change EStateM.bind (blockTurn statement ss) _ ts = _
      rw [EStateM.bind, blockTurn_of_end statement ss hend, statements, map_bind, peek_bind, hend]
      cases ts <;> rfl
    · have hstatement :
          (statement >>= fun s => loop (blockTurn statement) exhausted n (ss ++ [s])) =
          (ss ++ ·) <$> do
            let s ← statement
            let rest ← statements statement n
            return s :: rest := by
        rw [map_bind]
        refine bind_congr fun s => ?_
        rw [ih]
        simp
      rw [loop, statements, blockTurn, bind_assoc, map_bind, peek_bind, peek_bind]
      generalize kindAt ts 0 = k at hend
      cases k
      case endOfInput => exact absurd rfl hend
      case mark k =>
        cases k
        case closeBrace => simp
        all_goals
          rw [bind_assoc]
          exact congrFun hstatement ts
      all_goals
        rw [bind_assoc]
        exact congrFun hstatement ts

theorem loop_programTurn (bound n : Nat) (p : Program) :
    loop (programTurn (definition bound)) exhausted n p = (p ++ ·) <$> definitions bound n := by
  induction n generalizing p with
  | zero =>
    funext ts
    cases ts <;> rfl
  | succ n ih =>
    rw [loop, definitions, programTurn, bind_assoc, map_bind]
    refine bind_congr fun k => ?_
    cases k
    case type =>
      rw [bind_assoc, map_bind]
      refine bind_congr fun f => ?_
      rw [pure_bind]
      change loop (programTurn (definition bound)) exhausted n (p ++ [f]) = _
      rw [ih]
      simp
    all_goals
      rw [bind_assoc, map_bind]
      refine bind_congr fun _ => ?_
      simp

/-! ### The rules with loops -/

/-- What is answered where a bound is used up. -/
abbrev Cut := (α : Type) → Rule α

/-- Reads an atom, given rules for what stands inside parentheses. -/
def atomWith (arguments : Rule (List Expr)) (expression : Rule Expr) : Rule Expr
  | [] => .error (.unexpectedEnd .expression) []
  | t :: rest =>
    match t.kind with
    | .int =>
      match Decimal.readInt64? t.lexeme with
      | some n => .ok (.int n) rest
      | none => .error (.literalTooLarge t.lexeme t.offset) (t :: rest)
    | .float =>
      match Decimal.readFloat? t.lexeme with
      | some x => .ok (.float x) rest
      | none => .error (.literalTooLarge t.lexeme t.offset) (t :: rest)
    | .str => .ok (.str (Text.unquote t.lexeme)) rest
    | .keyword .true => .ok (.bool true) rest
    | .keyword .false => .ok (.bool false) rest
    | .identifier =>
      if kindAt rest 0 = .mark .openParen then
        (Expr.call t.lexeme <$> arguments) rest.tail
      else .ok (.var t.lexeme) rest
    | .mark .openParen =>
      (do let e ← expression; let _ ← expect (.mark .closeParen); return e : Rule Expr) rest
    | _ => .error (.expressionExpected t.lexeme t.offset) (t :: rest)

section Cut

variable (cut : Cut)

/-- Reads a list of items, which may be empty, and its closing token. -/
def cutList (n : Nat) (item : Rule α) (closing : Kind) : Rule (List α) := do
  if (← peek) = closing then
    advance
    return []
  else loop (itemTurn item closing) (cut (List α)) n []

/-- Reads an expression. -/
def cutExpression : Nat → Rule Expr
  | 0 => cut Expr
  | n + 1 => do
    let e := cutExpression n
    let atom := atomWith (cutList cut n e (.mark .closeParen)) e
    let s ← loop (chainTurn atom) (cut Stacks) (n + 1) ⟨[], []⟩
    s.join

/-- Reads an atom. -/
def cutAtom (n : Nat) : Rule Expr :=
  atomWith (cutList cut n (cutExpression cut n) (.mark .closeParen)) (cutExpression cut n)

/-- Reads a block, given a rule for its statements. -/
def cutBlockOf (n : Nat) (statement : Rule Stmt) : Rule (List Stmt) := do
  let _ ← expect (.mark .openBrace)
  loop (blockTurn statement) (cut (List Stmt)) n []

/-- Reads a statement. -/
def cutStatement : Nat → Rule Stmt
  | 0 => cut Stmt
  | n + 1 => statementOf (cutExpression cut (n + 1)) (cutBlockOf cut n (cutStatement n))

/-- Reads a block. -/
def cutBlock (n : Nat) : Rule (List Stmt) :=
  cutBlockOf cut n (cutStatement cut n)

/-- Reads a function definition. -/
def cutDefinition (n : Nat) : Rule Function := do
  let t ← type
  let f ← name
  let _ ← expect (.mark .openParen)
  let params ← cutList cut n param (.mark .closeParen)
  let body ← cutBlock cut n
  return ⟨t, f, params, body⟩

/-- Reads a program. -/
def cutProgram (n : Nat) : Rule Program :=
  loop (programTurn (cutDefinition cut n)) (cut Program) n []

end Cut

/-! ### Nothing is cut off -/

section SameBelow

variable {cut : Cut} {k n n' : Nat}

theorem itemTurn_sameBelow {item item' : Rule α} (hleft : OneAhead item)
    (hitem : SameBelow k item item') (closing : Kind) (as : List α) :
    SameBelow k (itemTurn item closing as) (itemTurn item' closing as) :=
  hitem.bind hleft fun _ => .refl _

theorem cutList_sameBelow {item item' : Rule α} (hleft : OneAhead item)
    (hprogress : Progresses item) (hitem : SameBelow k item item') (closing : Kind) (hn : k ≤ n)
    (hn' : k ≤ n') : SameBelow k (listOf n item closing) (cutList cut n' item' closing) := by
  have hitems : items item closing n = loop (itemTurn item closing) exhausted n [] := by
    rw [loop_itemTurn]
    exact (id_map _).symm
  refine .bind (.refl _) oneAhead_peek fun kind => ?_
  split
  · exact .refl _
  · rw [hitems]
    exact loop_sameBelow (progresses_itemTurn hprogress closing)
      (itemTurn_sameBelow hleft hitem closing) hn hn' []

theorem atom_eq_atomWith (n : Nat) (e : Rule Expr) :
    atom n e = atomWith (listOf n e (.mark .closeParen)) e := by
  funext ts
  cases ts <;> rfl

/-- Behind a parenthesis there is a token less. -/
theorem atomWith_sameBelow {as as' : Rule (List Expr)} {e e' : Rule Expr} (hleft : OneAhead e)
    (has : SameBelow k as as') (he : SameBelow k e e') :
    SameBelow (k + 1) (atomWith as e) (atomWith as' e') := by
  intro ts hts
  cases ts with
  | nil => rfl
  | cons t ts =>
    replace hts := Nat.lt_of_succ_lt_succ hts
    rw [atomWith, atomWith]
    split
    case h_6 =>
      split
      · refine has.map _ ts.tail ?_
        exact Nat.lt_of_le_of_lt (List.tail_suffix ts).length_le hts
      · rfl
    case h_7 => exact he.bind hleft (fun _ => .refl _) ts hts
    all_goals rfl

theorem cutAtom_sameBelow (he : SameBelow k (expression n) (cutExpression cut n')) (hn : k ≤ n)
    (hn' : k ≤ n') : SameBelow (k + 1) (atom n (expression n)) (cutAtom cut n') := by
  have hleft := oneAhead_expression n
  rw [atom_eq_atomWith]
  exact atomWith_sameBelow hleft
    (cutList_sameBelow hleft (progresses_expression n) he _ hn hn') he

theorem chainTurn_sameBelow {a a' : Rule Expr} (hleft : OneAhead a) (ha : SameBelow k a a')
    (s : Stacks) : SameBelow k (chainTurn a s) (chainTurn a' s) := by
  refine SameBelow.map (.bind (.refl _) oneAhead_peek fun kind => ?_) Round.turn
  split
  · exact .bind (.refl _) oneAhead_advance fun _ => ha.bind hleft fun _ => .refl _
  · exact ha.bind hleft fun _ => .refl _

theorem cutExpression_sameBelow (hn : k ≤ n) (hn' : k ≤ n') :
    SameBelow k (expression n) (cutExpression cut n') := by
  induction k, n, n', hn, hn' using bounds_induction with
  | zero => exact .zero _ _
  | succ k n n' hn hn' ih =>
    have hatom := cutAtom_sameBelow ih hn hn'
    have hleft := oneAhead_atom (oneAhead_expression n) n
    have hround (s : Stacks) : Progresses (chainTurn (atom n (expression n)) s) :=
      progresses_chainTurn (atom_reads (expression_reads n)) s
    rw [← stackExpression_eq, stackExpression, stackExpression_eq, ← loop_chainTurn]
    exact (loop_sameBelow hround (chainTurn_sameBelow hleft hatom) (Nat.succ_le_succ hn)
      (Nat.succ_le_succ hn') ⟨[], []⟩).bind_of_ok fun _ _ _ _ _ => rfl

theorem blockTurn_sameBelow {s s' : Rule Stmt} (hs : SameBelow k s s') (ss : List Stmt) :
    SameBelow k (blockTurn s ss) (blockTurn s' ss) := by
  refine .bind (.refl _) oneAhead_peek fun kind => ?_
  split
  · exact .refl _
  · exact .refl _
  · exact hs.bind_of_ok fun _ _ _ _ _ => rfl

theorem cutBlockOf_sameBelow {s s' : Rule Stmt} (hprogress : Progresses s)
    (hs : SameBelow k s s') (hn : k ≤ n) (hn' : k ≤ n') :
    SameBelow k (blockOf n s) (cutBlockOf cut n' s') := by
  have hstatements : statements s n = loop (blockTurn s) exhausted n [] := by
    rw [loop_blockTurn]
    exact (id_map _).symm
  refine .bind (.refl _) (oneAhead_expect _) fun _ => ?_
  rw [hstatements]
  exact loop_sameBelow (progresses_blockTurn hprogress) (blockTurn_sameBelow hs) hn hn' []

theorem cutStatement_sameBelow (hn : k ≤ n) (hn' : k ≤ n') :
    SameBelow k (statement n) (cutStatement cut n') := by
  induction k, n, n', hn, hn' using bounds_induction with
  | zero => exact .zero _ _
  | succ k n n' hn hn' ih =>
    exact statementOf_sameBelow (oneAhead_expression (n + 1))
      (cutExpression_sameBelow (Nat.succ_le_succ hn) (Nat.succ_le_succ hn'))
      (oneAhead_blockOf (oneAhead_statement n) n)
      (cutBlockOf_sameBelow (progresses_statement n) ih hn hn')

theorem cutBlock_sameBelow (hn : k ≤ n) (hn' : k ≤ n') :
    SameBelow k (block n) (cutBlock cut n') :=
  cutBlockOf_sameBelow (progresses_statement n) (cutStatement_sameBelow hn hn') hn hn'

theorem cutDefinition_sameBelow (hn : k ≤ n) (hn' : k ≤ n') :
    SameBelow k (definition n) (cutDefinition cut n') := by
  refine .bind (.refl _) oneAhead_type fun t => .bind (.refl _) oneAhead_name fun f => ?_
  refine .bind (.refl _) (oneAhead_expect _) fun _ => ?_
  refine .bind (cutList_sameBelow oneAhead_param progresses_param (.refl _) _ hn hn')
    (oneAhead_param.listOf _ n) fun ps => ?_
  exact (cutBlock_sameBelow hn hn').bind_of_ok fun _ _ _ _ _ => rfl

theorem programTurn_sameBelow {d d' : Rule Function} (hd : SameBelow k d d') (p : Program) :
    SameBelow k (programTurn d p) (programTurn d' p) := by
  refine .bind (.refl _) oneAhead_peek fun kind => ?_
  split
  · exact hd.bind_of_ok fun _ _ _ _ _ => rfl
  · exact .refl _

theorem cutProgram_sameBelow (hn : k ≤ n) (hn' : k ≤ n') :
    SameBelow k (definitions n n) (cutProgram cut n') := by
  have hdefinitions : definitions n n = loop (programTurn (definition n)) exhausted n [] := by
    rw [loop_programTurn]
    exact (id_map _).symm
  rw [hdefinitions]
  exact loop_sameBelow (progresses_programTurn (progresses_definition n))
    (programTurn_sameBelow (cutDefinition_sameBelow hn hn')) hn hn' []

end SameBelow

/-- **Reading ends, and takes tokens.** On every list of tokens, in whatever order and wherever it
has tokens for the end of the text, all rules end. The rules are written here with the loops and the
recursion as they are, and with an arbitrary answer where these would go on for more than `n` rounds
or levels. On fewer than `n` tokens this answer is never given. No rule takes more tokens than there
are, and one that succeeds has taken a token at least. So does every round of every loop. At the end
of the text a round of a block takes nothing, but fails. -/
theorem reading_ends :
    (∀ (cut : Cut) (n : Nat) (ts : List Token), ts.length < n →
      cutExpression cut n ts = readExpression ts ∧ cutAtom cut n ts = readAtom ts ∧
      cutStatement cut n ts = readStatement ts ∧ cutBlock cut n ts = readBlock ts ∧
      cutDefinition cut n ts = readDefinition ts ∧ cutProgram cut n ts = readProgram ts) ∧
    ((∀ {α : Type} {r : Rule α}, ReadsPart r → Consumes r) ∧ Consumes readProgram) ∧
    (∀ n : Nat, (∀ s, Progresses (chainTurn (atom n (expression n)) s)) ∧
      (∀ closing es, Progresses (itemTurn (expression n) closing es)) ∧
      (∀ closing ps, Progresses (itemTurn param closing ps)) ∧
      (∀ ss, Progresses (blockTurn (statement n) ss)) ∧
      ∀ p, Progresses (programTurn (definition n) p)) ∧
    ∀ (statement : Rule Stmt) (ss : List Stmt) (ts : List Token), kindAt ts 0 = .endOfInput →
      ∃ e, blockTurn statement ss ts = .error e ts := by
  refine ⟨fun cut n ts hts => ?_, ⟨fun h => h.consumes, consumes_readProgram⟩, fun n => ?_,
    fun statement ss ts hend => ?_⟩
  · have hn : ts.length + 1 ≤ n := hts
    have hself := Nat.lt_succ_self ts.length
    have hbound := Nat.le_refl (ts.length + 1)
    have hexpression {j : Nat} (hj : j ≤ ts.length + 1) :
        SameBelow j (expression (ts.length + 1)) (cutExpression cut n) :=
      cutExpression_sameBelow hj (hj.trans hn)
    exact ⟨(hexpression hbound ts hself).symm,
      (cutAtom_sameBelow (hexpression hbound) hbound hn ts (Nat.lt_succ_of_lt hself)).symm,
      (cutStatement_sameBelow hbound hn ts hself).symm,
      (cutBlock_sameBelow hbound hn ts hself).symm,
      (cutDefinition_sameBelow hbound hn ts hself).symm,
      (cutProgram_sameBelow hbound hn ts hself).symm⟩
  · exact ⟨progresses_chainTurn (atom_reads (expression_reads n)),
      progresses_itemTurn (progresses_expression n), progresses_itemTurn progresses_param,
      progresses_blockTurn (progresses_statement n),
      progresses_programTurn (progresses_definition n)⟩
  · rw [blockTurn_of_end statement ss hend]
    cases ts with
    | nil => exact ⟨_, rfl⟩
    | cons t ts => exact ⟨_, rfl⟩

/-- A block that is cut short by a token for the end of the text, with its closing brace behind
it. -/
theorem reading_ends_open_block :
    ∃ (cut : Cut) (ts rest : List Token) (e : SyntaxError),
      ts = [⟨.mark .openBrace, "\x7b", 0⟩, ⟨.identifier, "x", 1⟩, ⟨.step .increment, "++", 2⟩,
        ⟨.mark .semicolon, ";", 4⟩] ++ rest ∧
      rest = [⟨.endOfInput, "", 5⟩, ⟨.mark .closeBrace, "\x7d", 5⟩] ∧
      ts.length < 7 ∧ ReadsPart readBlock ∧ cutBlock cut 7 ts = .error e rest ∧
      cutBlock cut 7 ts = readBlock ts ∧ Consumes readBlock ∧ kindAt rest 0 = .endOfInput ∧
      ∃ e, blockTurn (statement 7) [.eval (.step .increment .after (.var "x"))] rest =
        .error e rest := by
  have hends := reading_ends
  exact ⟨fun _ => fail .definitionOrEnd, _, _, _, rfl, rfl, by decide, .block, rfl,
    (hends.1 _ 7 _ (by decide)).2.2.2.1, hends.2.1.1 .block, rfl, hends.2.2.2 _ _ _ rfl⟩

end Scriptlet.Grammar
