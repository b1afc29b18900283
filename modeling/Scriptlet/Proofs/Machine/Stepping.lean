import Scriptlet.Proofs.Machine.Simulation
import Scriptlet.Proofs.Machine.Soundness
import Scriptlet.Proofs.Machine.Store

/-!
# Scriptlet.Proofs.Machine.Stepping

**Steps are assignments.** The step `x++` does what the assignment `x = x + 1` does, and `x--` what
`x = x - 1` does, though steps compute and store on their own. On sound machines both succeed and
leave the same machine, or both stop with a fault of the same kind and leave the machine as it was.
The reason is in the values: a step computes what the operator computes with a one
(`Value.step_alike`), and its result has the type of the old value, so it can always be stored.
-/

namespace Scriptlet

/-- The operator that does what a step does, with a one as right operand. -/
def Step.operator : Step → BinOp
  | increment => .add
  | decrement => .sub

/-- The last integer in the direction of a step. -/
def Step.limit : Step → Int64
  | increment => Int64.maxValue
  | decrement => Int64.minValue

/-- How the step of a variable and its spelling with an operator fail, by the value of the variable.
The faults are of the same kind, and only the wording of a mismatch may differ. -/
inductive StepFaults (x : String) (s : Step) : Option Value → Fault → Fault → Prop
  | undefined : StepFaults x s none (.undefinedVariable x) (.undefinedVariable x)
  | overflow : StepFaults x s (some (.int s.limit)) .overflow .overflow
  | mismatch {v : Value} (hv : v.isNumber = false) (why why' : Mismatch) :
    StepFaults x s (some v) (.typeMismatch why) (.typeMismatch why')

/-! ### Values -/

namespace Value

theorem promote_one : promote 1 = 1.0 := rfl

/-- A value of the declared type is stored as it is. -/
theorem conform_of_type {v : Value} {t : Ty} (slot : Slot) (h : v.type = t) :
    v.conform slot t = .ok v := by
  subst h
  cases v <;> rfl

theorem ofExact_eq (n : Int) :
    (∃ k, ofExact n = .ok (int k)) ∨
      ofExact n = .error .overflow ∧ (n < -9223372036854775808 ∨ 9223372036854775807 < n) := by
  rw [ofExact, Decimal.int64?]
  by_cases hrange : -9223372036854775808 ≤ n ∧ n ≤ 9223372036854775807
  · rw [if_pos hrange]
    exact .inl ⟨_, rfl⟩
  · rw [if_neg hrange]
    exact .inr ⟨rfl, by omega⟩

/-- An integer can be stepped unless it is the last one. -/
theorem step_int (s : Step) (n : Int64) :
    (∃ k, (int n).step s = .ok (int k)) ∨ (int n).step s = .error .overflow ∧ n = s.limit := by
  have hlt := n.toInt_lt
  have hle := n.le_toInt
  cases s with
  | increment =>
    refine (ofExact_eq (n.toInt + 1)).imp_right fun ⟨h, hrange⟩ => ⟨h, Int64.toInt_inj.1 ?_⟩
    change n.toInt = 9223372036854775807
    omega
  | decrement =>
    refine (ofExact_eq (n.toInt - 1)).imp_right fun ⟨h, hrange⟩ => ⟨h, Int64.toInt_inj.1 ?_⟩
    change n.toInt = -9223372036854775808
    omega

/-- **A step computes what the operator does with a one**, and keeps the type of the value. -/
theorem step_alike (x : String) (s : Step) (v : Value) :
    (∃ w, v.step s = .ok w ∧ Value.binary s.operator v (.int 1) = .ok w ∧ w.type = v.type) ∨
    ∃ cause cause', v.step s = .error cause ∧
      Value.binary s.operator v (.int 1) = .error cause' ∧
      StepFaults x s (some v) cause cause' := by
  cases v with
  | int n =>
    have hsame : Value.binary s.operator (.int n) (.int 1) = (Value.int n).step s := by
      cases s <;> rfl
    rw [hsame]
    obtain ⟨k, hk⟩ | ⟨herror, rfl⟩ := step_int s n
    · exact .inl ⟨_, hk, hk, rfl⟩
    · exact .inr ⟨_, _, herror, herror, .overflow⟩
  | float r =>
    -- the operator promotes its one, the step has a float to begin with
    cases s with
    | increment =>
      have hadd : Value.binary .add (.float r) (.int 1) = .ok (.float (r + 1.0)) :=
        congrArg (fun one => Except.ok (float (r + one))) promote_one
      exact .inl ⟨_, rfl, hadd, rfl⟩
    | decrement =>
      have hsub : Value.binary .sub (.float r) (.int 1) = .ok (.float (r - 1.0)) :=
        congrArg (fun one => Except.ok (float (r - one))) promote_one
      exact .inl ⟨_, rfl, hsub, rfl⟩
  | bool b => cases s <;> exact .inr ⟨_, _, rfl, rfl, .mismatch rfl _ _⟩
  | str t => cases s <;> exact .inr ⟨_, _, rfl, rfl, .mismatch rfl _ _⟩
  | void => cases s <;> exact .inr ⟨_, _, rfl, rfl, .mismatch rfl _ _⟩

end Value

/-! ### Variables -/

namespace Action

variable {α β : Type} {y : Action α} {k : α → Action β} {m m₁ : Machine} {x : String}

theorem bind_of_done {a : α} (h : y m = .done a m₁) : (y >>= k) m = k a m₁ := by
  rw [bind_apply, h]

theorem bind_of_fault {cause : Fault} (h : y m = .fault cause m₁) :
    (y >>= k) m = .fault cause m₁ := by
  rw [bind_apply, h]

theorem lookup_of_some {b : Binding} (hb : m.top.lookup? x = some b) : lookup x m = .done b m := by
  rw [lookup_eq_top, hb]

theorem lookup_of_none (hb : m.top.lookup? x = none) :
    lookup x m = .fault (.undefinedVariable x) m := by
  rw [lookup_eq_top, hb]

/-- A value of the declared type can always be assigned. -/
theorem assign_of_type {b : Binding} {w : Value} (hb : m.top.lookup? x = some b)
    (hw : w.type = b.type) : assign x w m = .done () (m.mapTop (·.set x w)) := by
  rw [assign, hb]
  dsimp only
  rw [Value.conform_of_type _ hw]

end Action

section Variables

variable {m : Machine} {x : String} {b : Binding} {w : Value} {cause : Fault} {call : CallHandler}
  {bound : Nat}

/-- What a step stores has the declared type of the variable. -/
theorem Machine.Sound.step_type (hm : m.Sound) (hb : m.top.lookup? x = some b)
    (hw : w.type = b.value.type) : w.type = b.type :=
  hw.trans ((soundAbove_nil.2 hm).top.lookup? hb).type_eq

theorem lookup?_of_assigned (hb : m.top.lookup? x = some b) :
    (m.mapTop (·.set x w)).top.lookup? x = some { b with value := w } := by
  rw [Machine.top_mapTop, Frame.lookup?_set, if_pos rfl, hb]
  rfl

/-! ### Steps -/

/-- What a step gives, before its operand or after it. -/
def Placement.pick (place : Placement) (old new : Value) : Value :=
  match place with
  | before => new
  | after => old

variable {s : Step}

theorem eval_step_of_none (hb : m.top.lookup? x = none) (place : Placement) :
    (Expr.step s place (.var x)).eval call m = .fault (.undefinedVariable x) m :=
  Action.bind_of_fault (Action.lookup_of_none hb)

theorem eval_step_of_error (hb : m.top.lookup? x = some b) (hs : b.value.step s = .error cause)
    (place : Placement) : (Expr.step s place (.var x)).eval call m = .fault cause m := by
  refine (Action.bind_of_done (Action.lookup_of_some hb)).trans (Action.bind_of_fault ?_)
  rw [hs]
  rfl

theorem eval_step_of_ok (hb : m.top.lookup? x = some b) (hs : b.value.step s = .ok w)
    (hw : w.type = b.type) (place : Placement) :
    (Expr.step s place (.var x)).eval call m =
      .done (place.pick b.value w) (m.mapTop (·.set x w)) := by
  have hstep : Action.ofExcept (b.value.step s) m = .done w m := by
    rw [hs]
    rfl
  refine (Action.bind_of_done (Action.lookup_of_some hb)).trans ?_
  refine (Action.bind_of_done hstep).trans ?_
  refine (Action.bind_of_done (Action.assign_of_type hb hw)).trans ?_
  cases place <;> rfl

/-! ### Their spelling with an operator -/

theorem eval_spelled (hb : m.top.lookup? x = some b) (op : BinOp) :
    (Expr.binary (.var x) op (.int 1)).eval call m =
      Action.ofExcept (Value.binary op b.value (.int 1)) m := by
  have hx : (Expr.var x).eval call m = .done b.value m :=
    Action.bind_of_done (Action.lookup_of_some hb)
  exact Action.bind_of_done hx

theorem exec_spelled_of_none (hb : m.top.lookup? x = none) (op : BinOp) :
    (Stmt.assign x (.binary (.var x) op (.int 1))).exec call bound m =
      .fault (.undefinedVariable x) m :=
  Action.bind_of_fault (Action.lookup_of_none hb)

theorem exec_spelled_of_error (hb : m.top.lookup? x = some b) {op : BinOp}
    (hop : Value.binary op b.value (.int 1) = .error cause) :
    (Stmt.assign x (.binary (.var x) op (.int 1))).exec call bound m = .fault cause m := by
  refine (Action.bind_of_done (Action.lookup_of_some hb)).trans (Action.bind_of_fault ?_)
  rw [eval_spelled hb, hop]
  rfl

theorem exec_spelled_of_ok (hb : m.top.lookup? x = some b) {op : BinOp}
    (hop : Value.binary op b.value (.int 1) = .ok w) (hw : w.type = b.type) :
    (Stmt.assign x (.binary (.var x) op (.int 1))).exec call bound m =
      .done .next (m.mapTop (·.set x w)) := by
  have heval : (Expr.binary (.var x) op (.int 1)).eval call m = .done w m := by
    rw [eval_spelled hb, hop]
    rfl
  refine (Action.bind_of_done (Action.lookup_of_some hb)).trans ?_
  refine (Action.bind_of_done heval).trans ?_
  exact Action.bind_of_done (Action.assign_of_type hb hw)

end Variables

/-- **Steps are assignments.** On a sound machine a step of a variable and the assignment of the sum
or difference with one both succeed and leave the same machine, or both stop with a fault of the
same kind and leave the machine as it was. As an expression a step gives the value of the variable
after it or before it, as it stands before its operand or after it. What a step computes can always
be stored. A step of anything but a variable stops with a mismatch on any machine, and its operand
is not evaluated, so that no call is made. -/
theorem step_is_assignment {m : Machine} (hm : m.Sound) (x : String) (s : Step)
    (call : CallHandler) (bound : Nat) :
    (∀ place,
      (∃ m₁, (Stmt.eval (.step s place (.var x))).exec call bound m = .done .next m₁ ∧
        (Stmt.assign x (.binary (.var x) s.operator (.int 1))).exec call bound m =
          .done .next m₁) ∨
      ∃ cause cause', (Stmt.eval (.step s place (.var x))).exec call bound m = .fault cause m ∧
        (Stmt.assign x (.binary (.var x) s.operator (.int 1))).exec call bound m =
          .fault cause' m ∧ StepFaults x s ((m.top.lookup? x).map Binding.value) cause cause') ∧
    (∀ place v m₁, (Expr.step s place (.var x)).eval call m = .done v m₁ →
      ∃ old new, m.top.lookup? x = some old ∧ m₁.top.lookup? x = some new ∧
        Value.binary s.operator old.value (.int 1) = .ok new.value ∧
        v = place.pick old.value new.value) ∧
    (∀ old new, Action.lookup x m = .done old m → old.value.step s = .ok new →
      ∃ m₁, Action.assign x new m = .done () m₁) ∧
    ∀ place e, (∀ y, e ≠ .var y) →
      (Expr.step s place e).eval call m = .fault (.typeMismatch (.stepTarget s)) m := by
  refine ⟨fun place => ?statement, fun place v m₁ h => ?value, fun old new hlookup hstep => ?stored,
    fun place e he => ?operand⟩
  case statement =>
    cases hb : m.top.lookup? x with
    | none =>
      exact .inr ⟨_, _, Action.bind_of_fault (eval_step_of_none hb place),
        exec_spelled_of_none hb s.operator, .undefined⟩
    | some b =>
      obtain ⟨w, hs, hop, hw⟩ | ⟨cause, cause', hs, hop, hfaults⟩ := b.value.step_alike x s
      · have htype := hm.step_type hb hw
        exact .inl ⟨_, Action.bind_of_done (eval_step_of_ok hb hs htype place),
          exec_spelled_of_ok hb hop htype⟩
      · exact .inr ⟨_, _, Action.bind_of_fault (eval_step_of_error hb hs place),
          exec_spelled_of_error hb hop, hfaults⟩
  case value =>
    cases hb : m.top.lookup? x with
    | none =>
      rw [eval_step_of_none hb] at h
      cases h
    | some b =>
      obtain ⟨w, hs, hop, hw⟩ | ⟨cause, -, hs, -⟩ := b.value.step_alike x s
      · rw [eval_step_of_ok hb hs (hm.step_type hb hw)] at h
        cases h
        exact ⟨b, { b with value := w }, rfl, lookup?_of_assigned hb, hop, rfl⟩
      · rw [eval_step_of_error hb hs] at h
        cases h
  case stored =>
    rw [Action.lookup_eq_top] at hlookup
    cases hb : m.top.lookup? x with
    | none =>
      rw [hb] at hlookup
      cases hlookup
    | some b =>
      rw [hb] at hlookup
      cases hlookup
      obtain ⟨w, hs, -, hw⟩ | ⟨cause, -, hs, -⟩ := old.value.step_alike x s
      · cases hs.symm.trans hstep
        exact ⟨_, Action.assign_of_type hb (hm.step_type hb hw)⟩
      · cases hs.symm.trans hstep
  case operand =>
    cases e with
    | var y => exact absurd rfl (he y)
    | _ => rfl

/-- The largest integer, hidden by a float of the same name in the innermost scope: the float is
stepped, and where it is out of reach the step of the integer overflows. -/
theorem step_is_assignment_limit :
    ∃ (m m₁ m₂ : Machine) (call : CallHandler) (cause cause' : Fault),
      m = { Machine.new {} with calls := .ofList [⟨"main",
        [[("x", ⟨.float, .float 1.5⟩)], [("x", ⟨.int, .int Int64.maxValue⟩)]]⟩] } ∧
      m.Sound ∧ m₂ = m.popScope ∧ m₂.Sound ∧
      (Stmt.eval (.step .increment .before (.var "x"))).exec call 0 m = .done .next m₁ ∧
      (Stmt.assign "x" (.binary (.var "x") .add (.int 1))).exec call 0 m = .done .next m₁ ∧
      (Stmt.eval (.step .increment .before (.var "x"))).exec call 0 m₂ = .fault cause m₂ ∧
      (Stmt.assign "x" (.binary (.var "x") .add (.int 1))).exec call 0 m₂ = .fault cause' m₂ ∧
      cause = .overflow ∧
      StepFaults "x" .increment ((m₂.top.lookup? "x").map Binding.value) cause cause' := by
  let m : Machine := { Machine.new {} with calls := .ofList [⟨"main",
    [[("x", ⟨.float, .float 1.5⟩)], [("x", ⟨.int, .int Int64.maxValue⟩)]]⟩] }
  let call : CallHandler := fun _ _ => Action.outOfFuel
  have hfloat : Scope.Sound [("x", ⟨.float, .float 1.5⟩)] :=
    List.forall_mem_singleton.2 ⟨nofun, rfl⟩
  have hint : Scope.Sound [("x", ⟨.int, .int Int64.maxValue⟩)] :=
    List.forall_mem_singleton.2 ⟨nofun, rfl⟩
  have hm : m.Sound :=
    List.forall_mem_singleton.2 (List.forall_mem_cons.2 ⟨hfloat, List.forall_mem_singleton.2 hint⟩)
  have hm₂ : m.popScope.Sound := List.forall_mem_singleton.2 (List.forall_mem_singleton.2 hint)
  have hdone : ∃ m₁, (Stmt.eval (.step .increment .before (.var "x"))).exec call 0 m =
      .done .next m₁ := ⟨_, rfl⟩
  have hfault : (Stmt.eval (.step .increment .before (.var "x"))).exec call 0 m.popScope =
      .fault .overflow m.popScope := rfl
  obtain ⟨m₁, hstep, hassign⟩ | ⟨_, _, hstep, -⟩ :=
    (step_is_assignment hm "x" .increment call 0).1 .before
  case inr =>
    obtain ⟨m₁, hdone⟩ := hdone
    cases hdone.symm.trans hstep
  case inl =>
    obtain ⟨_, hstep₂, -⟩ | ⟨cause, cause', hstep₂, hassign₂, hfaults⟩ :=
      (step_is_assignment hm₂ "x" .increment call 0).1 .before
    · cases hfault.symm.trans hstep₂
    · have hcause : cause = .overflow := by
        cases hfault.symm.trans hstep₂
        rfl
      exact ⟨m, m₁, m.popScope, call, cause, cause', rfl, hm, rfl, hm₂, hstep, hassign, hstep₂,
        hassign₂, hcause, hfaults⟩

end Scriptlet
