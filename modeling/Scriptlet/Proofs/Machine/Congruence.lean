import Scriptlet.Machine.Exec

/-!
# Scriptlet.Proofs.Machine.Congruence

**Relations between actions.** Expressions and statements put actions together in a few ways only.
A relation between actions that is kept by these is a congruence: what it relates in the answers to
calls, it relates in whole expressions and statements. `Action.Congruence` lists what expressions
need, `Action.BlockCongruence` what statements need in addition, and the induction over syntax is
made here once for all such relations.

Of the answers to calls only those matter whose names are written in the code, `Expr.calls` and
`Stmt.calls`. Loops are set apart. A statement without loops needs nothing of them, and where there
are loops it has to be shown that they are related if their parts are, under the bounds of the two
sides.
-/

namespace Scriptlet

/-! ### Code without loops -/

namespace Stmt

mutual

/-- Whether there is no loop in a statement. -/
def loopFree : Stmt → Bool
  | branch _ yes no => loopFreeAll yes && loopFreeAll no
  | loop .. => false
  | _ => true

/-- Whether there is no loop in a list of statements. -/
def loopFreeAll : List Stmt → Bool
  | [] => true
  | s :: rest => s.loopFree && loopFreeAll rest

end

theorem loopFree_branch {c : Expr} {yes no : List Stmt} :
    (branch c yes no).loopFree ↔ loopFreeAll yes ∧ loopFreeAll no :=
  Bool.and_eq_true_iff

theorem loopFreeAll_cons {s : Stmt} {rest : List Stmt} :
    loopFreeAll (s :: rest) ↔ s.loopFree ∧ loopFreeAll rest :=
  Bool.and_eq_true_iff

end Stmt

/-! ### Called names -/

namespace Expr

mutual

/-- The names of the functions that an expression calls. -/
def calls : Expr → List String
  | .call f args => f :: callsAll args
  | binary l _ r => l.calls ++ r.calls
  | step _ _ e => e.calls
  | _ => []

/-- The names of the functions that several expressions call. -/
def callsAll : List Expr → List String
  | [] => []
  | e :: rest => e.calls ++ callsAll rest

end

end Expr

namespace Stmt

mutual

/-- The names of the functions that a statement calls. -/
def calls : Stmt → List String
  | init _ _ e | assign _ e | eval e | ret e => e.calls
  | declare _ _ => []
  | branch c yes no => c.calls ++ (callsAll yes ++ callsAll no)
  | loop c body => c.calls ++ callsAll body

/-- The names of the functions that several statements call. -/
def callsAll : List Stmt → List String
  | [] => []
  | s :: rest => s.calls ++ callsAll rest

end

end Stmt

/-! ### Congruences -/

/-- The relation `K` between actions, for each type of value, is kept by all that expressions do. -/
structure Action.Congruence (K : (α : Type) → Action α → Action α → Prop) : Prop where
  pure : ∀ {α : Type} (a : α), K α (Pure.pure a) (Pure.pure a)
  raise : ∀ {α : Type} (cause : Fault), K α (Action.raise cause) (Action.raise cause)
  bind : ∀ {α β : Type} {x x' : Action α} {k k' : α → Action β}, K α x x' →
    (∀ a, K β (k a) (k' a)) → K β (x >>= k) (x' >>= k')
  lookup : ∀ x, K Binding (Action.lookup x) (Action.lookup x)
  assign : ∀ x v, K Unit (Action.assign x v) (Action.assign x v)

/-- The relation `K` between actions is kept by all that statements without loops do. -/
structure Action.BlockCongruence (K : (α : Type) → Action α → Action α → Prop) : Prop
    extends Action.Congruence K where
  declare : ∀ x t v, K Unit (Action.declare x t v) (Action.declare x t v)
  inBlock : ∀ {α : Type} {body body' : Action α}, K α body body' →
    K α (Action.inBlock body) (Action.inBlock body')

variable {K : (α : Type) → Action α → Action α → Prop} {call call' : CallHandler}

namespace Action.Congruence

theorem ofExcept {α : Type} (hK : Congruence K) (x : Except Fault α) :
    K α (Action.ofExcept x) (Action.ofExcept x) := by
  cases x with
  | ok a => exact hK.pure a
  | error cause => exact hK.raise cause

/-! ### Expressions -/

theorem stepVariable (hK : Congruence K) (s : Step) (place : Placement) (e : Expr) :
    K Value (stepVariable s place e) (stepVariable s place e) := by
  cases e with
  | var x =>
    refine hK.bind (hK.lookup x) fun old => ?_
    refine hK.bind (hK.ofExcept (old.value.step s)) fun new => ?_
    refine hK.bind (hK.assign x new) fun _ => ?_
    cases place with
    | before => exact hK.pure new
    | after => exact hK.pure old.value
  | _ => exact hK.raise _

mutual

/-- **Two evaluations of an expression** are related if the answers to its calls are. -/
theorem eval_of_calls (hK : Congruence K) :
    ∀ e : Expr, (∀ name ∈ e.calls, ∀ vs, K Value (call name vs) (call' name vs)) →
      K Value (e.eval call) (e.eval call')
  | .int n, _ => hK.pure (Value.int n)
  | .float x, _ => hK.pure (Value.float x)
  | .str s, _ => hK.pure (Value.str s)
  | .bool b, _ => hK.pure (Value.bool b)
  | .var x, _ => hK.bind (hK.lookup x) fun b => hK.pure b.value
  | .call f args, hcall => by
    obtain ⟨hf, hargs⟩ := List.forall_mem_cons.1 hcall
    exact hK.bind (hK.evalAll_of_calls args hargs) fun vs => hf vs
  | .binary l op r, hcall => by
    obtain ⟨hl, hr⟩ := List.forall_mem_append.1 hcall
    refine hK.bind (hK.eval_of_calls l hl) fun left => ?_
    exact hK.bind (hK.eval_of_calls r hr) fun right => hK.ofExcept (Value.binary op left right)
  | .step s place e, _ => hK.stepVariable s place e

theorem evalAll_of_calls (hK : Congruence K) :
    ∀ es : List Expr, (∀ name ∈ Expr.callsAll es, ∀ vs, K Value (call name vs) (call' name vs)) →
      K (List Value) (Expr.evalAll call es) (Expr.evalAll call' es)
  | [], _ => hK.pure []
  | e :: rest, hcall => by
    obtain ⟨he, hrest⟩ := List.forall_mem_append.1 hcall
    refine hK.bind (hK.eval_of_calls e he) fun v => ?_
    exact hK.bind (hK.evalAll_of_calls rest hrest) fun vs => hK.pure (v :: vs)

end

theorem test_of_calls (hK : Congruence K) (c : Expr)
    (hcall : ∀ name ∈ c.calls, ∀ vs, K Value (call name vs) (call' name vs)) (place : TestPlace) :
    K Bool (c.test call place) (c.test call' place) :=
  hK.bind (hK.eval_of_calls c hcall) fun v => hK.ofExcept (v.toBool place)

/-- Two evaluations of an expression are related if all calls are answered alike. -/
theorem eval (hK : Congruence K) (hcall : ∀ name vs, K Value (call name vs) (call' name vs))
    (e : Expr) : K Value (e.eval call) (e.eval call') :=
  hK.eval_of_calls e fun name _ => hcall name

end Action.Congruence

/-! ### Statements -/

/-- Loops with related parts are related under the bounds. -/
def RelatesLoops (K : (α : Type) → Action α → Action α → Prop) (bound bound' : Nat) : Prop :=
  ∀ (test test' : Action Bool) (body body' : Action Flow), K Bool test test' →
    K Flow body body' → K Flow (iterate test body bound) (iterate test' body' bound')

namespace Action.BlockCongruence

variable {bound bound' : Nat}

mutual

/-- **Two executions of a statement** are related if the answers to its calls are, and loops too if
it has any. -/
theorem exec_of_calls (hK : BlockCongruence K) :
    ∀ s : Stmt, (∀ name ∈ s.calls, ∀ vs, K Value (call name vs) (call' name vs)) →
      s.loopFree ∨ RelatesLoops K bound bound' → K Flow (s.exec call bound) (s.exec call' bound')
  | .init t x e, hcall, _ => by
    refine hK.bind (hK.eval_of_calls e hcall) fun v => ?_
    exact hK.bind (hK.declare x t v) fun _ => hK.pure Flow.next
  | .declare t x, _, _ =>
    hK.bind (hK.ofExcept (Value.initial t)) fun v =>
      hK.bind (hK.declare x t v) fun _ => hK.pure Flow.next
  | .assign x e, hcall, _ => by
    refine hK.bind (hK.lookup x) fun _ => hK.bind (hK.eval_of_calls e hcall) fun v => ?_
    exact hK.bind (hK.assign x v) fun _ => hK.pure Flow.next
  | .eval e, hcall, _ => hK.bind (hK.eval_of_calls e hcall) fun _ => hK.pure Flow.next
  | .branch c yes no, hcall, hloops => by
    obtain ⟨hc, hblocks⟩ := List.forall_mem_append.1 hcall
    obtain ⟨hcallYes, hcallNo⟩ := List.forall_mem_append.1 hblocks
    refine hK.bind (hK.test_of_calls c hc .ifCondition) fun holds => ?_
    cases holds with
    | true =>
      have hyes := hloops.imp_left fun h => (Stmt.loopFree_branch.1 h).1
      exact hK.inBlock (hK.execAll_of_calls yes hcallYes hyes)
    | false =>
      have hno := hloops.imp_left fun h => (Stmt.loopFree_branch.1 h).2
      exact hK.inBlock (hK.execAll_of_calls no hcallNo hno)
  | .loop c body, hcall, hloops => by
    obtain ⟨hc, hcallBody⟩ := List.forall_mem_append.1 hcall
    obtain hfree | hloops := hloops
    · cases hfree
    · have hbody := hK.inBlock (hK.execAll_of_calls body hcallBody (.inr hloops))
      exact hloops _ _ _ _ (hK.test_of_calls c hc .whileCondition) hbody
  | .ret e, hcall, _ => hK.bind (hK.eval_of_calls e hcall) fun v => hK.pure (Flow.returned v)

/-- **Two executions of a list of statements** are related in the same way. -/
theorem execAll_of_calls (hK : BlockCongruence K) :
    ∀ ss : List Stmt, (∀ name ∈ Stmt.callsAll ss, ∀ vs, K Value (call name vs) (call' name vs)) →
      Stmt.loopFreeAll ss ∨ RelatesLoops K bound bound' →
        K Flow (Stmt.execAll call bound ss) (Stmt.execAll call' bound' ss)
  | [], _, _ => hK.pure Flow.next
  | s :: rest, hcall, hloops => by
    obtain ⟨hcallS, hcallRest⟩ := List.forall_mem_append.1 hcall
    have hs := hloops.imp_left fun h => (Stmt.loopFreeAll_cons.1 h).1
    have hrest := hloops.imp_left fun h => (Stmt.loopFreeAll_cons.1 h).2
    refine hK.bind (hK.exec_of_calls s hcallS hs) fun flow => ?_
    cases flow with
    | next => exact hK.execAll_of_calls rest hcallRest hrest
    | returned v => exact hK.pure (Flow.returned v)

end

/-- Two executions of a statement are related if all calls are answered alike. -/
theorem exec (hK : BlockCongruence K) (hcall : ∀ name vs, K Value (call name vs) (call' name vs))
    (s : Stmt) (hloops : s.loopFree ∨ RelatesLoops K bound bound') :
    K Flow (s.exec call bound) (s.exec call' bound') :=
  hK.exec_of_calls s (fun name _ => hcall name) hloops

theorem execAll (hK : BlockCongruence K)
    (hcall : ∀ name vs, K Value (call name vs) (call' name vs)) (ss : List Stmt)
    (hloops : Stmt.loopFreeAll ss ∨ RelatesLoops K bound bound') :
    K Flow (Stmt.execAll call bound ss) (Stmt.execAll call' bound' ss) :=
  hK.execAll_of_calls ss (fun name _ => hcall name) hloops

end Action.BlockCongruence

end Scriptlet
