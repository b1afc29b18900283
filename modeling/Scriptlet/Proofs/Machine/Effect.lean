import Scriptlet.Machine.Call
import Scriptlet.Proofs.Machine.Outcome

/-!
# Scriptlet.Proofs.Machine.Effect

**Effects of programs.** What a program can do to a machine is made of a few primitive effects:
assigning, declaring, opening and closing a block, printing, and starting and ending a call. A
relation between the machine before and the machine after that admits these, and that can be
composed, holds of every expression, every statement and every call, whether it succeeds or stops
with a fault. `Effect` lists what has to be shown of a relation, and the induction over syntax and
nested calls is made here once for all of them.

Relations are indexed by the names that may be declared in the innermost block. Only the
declarations of a list of statements itself count for it; those of nested blocks and of callees are
gone when the block or the call ends.
-/

namespace Scriptlet

variable {α β : Type}

/-- The machine that is left, after a value or after a fault, is as `P` says. -/
def Outcome.Leaves (P : Machine → Prop) (o : Outcome α) : Prop :=
  o.Meets (fun _ => P) fun _ => P

theorem Outcome.Leaves.mono {P P' : Machine → Prop} {o : Outcome α} (h : o.Leaves P)
    (himp : ∀ m, P m → P' m) : o.Leaves P' :=
  Outcome.Meets.mono h (fun _ => himp) fun _ => himp

theorem Outcome.Leaves.and {P P' : Machine → Prop} {o : Outcome α} (h : o.Leaves P)
    (h' : o.Leaves P') : o.Leaves fun m => P m ∧ P' m := by
  cases o with
  | done a m => exact ⟨h, h'⟩
  | fault cause m => exact ⟨h, h'⟩
  | outOfFuel => exact trivial

/-- What both actions of a sequence keep. -/
theorem Action.leaves_bind {P : Machine → Prop} {x : Action α} {k : α → Action β} {m : Machine}
    (hx : (x m).Leaves P) (hk : ∀ a m₁, P m₁ → (k a m₁).Leaves P) : ((x >>= k) m).Leaves P :=
  meets_bind hx hk

/-! ### Declared names -/

/-- The names that a statement declares in the block it stands in. -/
def Stmt.declared : Stmt → List String
  | .init _ x _ => [x]
  | .declare _ x => [x]
  | _ => []

/-- The names that statements declare in the block they stand in. -/
def Stmt.declaredAll (ss : List Stmt) : List String :=
  ss.flatMap Stmt.declared

@[simp] theorem Stmt.declaredAll_nil : Stmt.declaredAll [] = [] := rfl

@[simp] theorem Stmt.declaredAll_cons (s : Stmt) (ss : List Stmt) :
    Stmt.declaredAll (s :: ss) = s.declared ++ Stmt.declaredAll ss := rfl

/-! ### Calls -/

/-- Binding a parameter converts its argument, and then the others are bound. -/
theorem Function.bindParams_cons_eq_ok {q : Param} {ps : List Param} {v : Value}
    {vs : List Value} {scope : Scope} (h : bindParams (q :: ps) (v :: vs) = .ok scope) :
    ∃ w rest, v.conform (.variable q.name) q.type = .ok w ∧ bindParams ps vs = .ok rest ∧
      scope = (q.name, ⟨q.type, w⟩) :: rest := by
  rw [bindParams] at h
  cases hconform : v.conform (.variable q.name) q.type with
  | error cause =>
    rw [hconform] at h
    cases h
  | ok w =>
    rw [hconform] at h
    cases hbind : bindParams ps vs with
    | error cause =>
      rw [hbind] at h
      cases h
    | ok rest =>
      rw [hbind] at h
      cases h
      exact ⟨w, rest, rfl, rfl, rfl⟩

/-- A function is entered in a frame with one scope, if its parameters can be declared and the
arguments fit them. -/
theorem Function.enter_eq_ok {f : Function} {args : List Value} {frame : Frame}
    (h : f.enter args = .ok frame) :
    Function.checkParams f.name [] f.params = .ok () ∧
      ∃ scope, Function.bindParams f.params args = .ok scope ∧ frame = ⟨f.name, [scope]⟩ := by
  rw [enter] at h
  split at h
  · cases h
  · cases hcheck : checkParams f.name [] f.params with
    | error cause =>
      rw [hcheck] at h
      cases h
    | ok _ =>
      rw [hcheck] at h
      cases hbind : bindParams f.params args with
      | error cause =>
        rw [hbind] at h
        cases h
      | ok scope =>
        rw [hbind] at h
        cases h
        exact ⟨rfl, scope, rfl, rfl⟩

/-- What holds after a call, from what holds after its body. A call that cannot be started leaves
the machine alone; otherwise the frame of the call is taken off however its body ends. -/
theorem Function.activate_meets {f : Function} {body : Action Flow} {args : List Value}
    {m : Machine} {Q : Value × Frame → Machine → Prop} {E : Fault → Machine → Prop}
    (hdepth : E (.callDepthExceeded m.options.maxCallDepth) m)
    (hrefused : ∀ cause, f.enter args = .error cause → E cause m)
    (hbody : ∀ frame, f.enter args = .ok frame →
      (body (m.pushFrame frame)).Meets
        (fun flow m' => (∀ v, f.resultOf flow = .ok v → Q (v, m'.top) m'.popFrame) ∧
          ∀ cause, f.resultOf flow = .error cause → E cause m'.popFrame)
        (fun cause m' => E cause m'.popFrame)) :
    (f.activate body args m).Meets Q E := by
  rw [activate]
  split
  · exact hdepth
  · cases henter : f.enter args with
    | error cause => exact hrefused cause henter
    | ok frame =>
      have hrun := hbody frame henter
      dsimp only
      cases hflow : body (m.pushFrame frame) with
      | done flow m' =>
        rw [hflow] at hrun
        rw [leave]
        cases hresult : f.resultOf flow with
        | ok v => exact hrun.1 v hresult
        | error cause => exact hrun.2 cause hresult
      | fault cause m' =>
        rw [hflow] at hrun
        exact hrun
      | outOfFuel => exact trivial

theorem Function.activate_leaves {f : Function} {body : Action Flow} {args : List Value}
    {m : Machine} {P : Machine → Prop} (hearly : P m)
    (hbody : ∀ frame, f.enter args = .ok frame →
      (body (m.pushFrame frame)).Leaves fun m' => P m'.popFrame) :
    (f.activate body args m).Leaves P :=
  activate_meets hearly (fun _ _ => hearly) fun frame hframe =>
    Outcome.Meets.mono (hbody frame hframe) (fun _ _ h => ⟨fun _ _ => h, fun _ _ => h⟩)
      fun _ _ h => h

/-! ### Effects -/

/-- The relation `R names` admits what programs do to a machine, as long as they declare only
`names` in the innermost block. -/
structure Effect (R : List String → Machine → Machine → Prop) : Prop where
  refl : ∀ names m, R names m m
  trans : ∀ {names names' m m₁ m₂}, R names m m₁ → R names' m₁ m₂ → R (names ++ names') m m₂
  assign : ∀ x v m, (Action.assign x v m).Leaves (R [] m)
  declare : ∀ x t v m, (Action.declare x t v m).Leaves (R [x] m)
  /-- What is declared in a block is gone after it. -/
  block : ∀ {names m m'}, R names m.pushScope m' → R [] m m'.popScope
  printLine : ∀ line m, R [] m (m.printLine line)
  /-- A call starts in a frame of its own, which is taken off at its end. -/
  call : ∀ {f : Function} {args frame names m m'}, f.enter args = .ok frame →
    R names (m.pushFrame frame) m' → R [] m m'.popFrame

/-- Every call that is answered has the effect of one that declares nothing. -/
def CallHandler.Leaves (R : List String → Machine → Machine → Prop) (call : CallHandler) : Prop :=
  ∀ name vs m, (call name vs m).Leaves (R [] m)

namespace Effect

variable {R : List String → Machine → Machine → Prop} (hR : Effect R)

include hR

/-! ### Sequences -/

theorem bind {x : Action α} {k : α → Action β} {names names' : List String} {m : Machine}
    (hx : (x m).Leaves (R names m)) (hk : ∀ a m₁, (k a m₁).Leaves (R names' m₁)) :
    ((x >>= k) m).Leaves (R (names ++ names') m) := by
  rw [Action.bind_apply]
  cases hrun : x m with
  | done a m₁ =>
    rw [hrun] at hx
    exact (hk a m₁).mono fun m₂ h₂ => hR.trans hx h₂
  | fault cause m₁ =>
    rw [hrun] at hx
    exact hR.trans hx (hR.refl names' m₁)
  | outOfFuel => exact trivial

theorem pure (a : α) (names : List String) (m : Machine) :
    ((Pure.pure a : Action α) m).Leaves (R names m) :=
  hR.refl names m

theorem raise (cause : Fault) (names : List String) (m : Machine) :
    (Action.raise cause m : Outcome α).Leaves (R names m) :=
  hR.refl names m

theorem ofExcept (x : Except Fault α) (names : List String) (m : Machine) :
    (Action.ofExcept x m).Leaves (R names m) :=
  Action.meets_ofExcept (fun _ _ => hR.refl names m) fun _ _ => hR.refl names m

theorem lookup (x : String) (m : Machine) : (Action.lookup x m).Leaves (R [] m) := by
  rw [Action.lookup]
  split
  · exact hR.refl [] m
  · split
    · exact hR.refl [] m
    · exact hR.refl [] m

theorem inBlock {body : Action α} {names : List String} {m : Machine}
    (h : (body m.pushScope).Leaves (R names m.pushScope)) :
    (Action.inBlock body m).Leaves (R [] m) :=
  Action.meets_inBlock (h.mono fun _ => hR.block)

/-! ### Expressions and statements -/

section Syntax

variable {call : CallHandler}

theorem stepVariable (s : Step) (place : Placement) (e : Expr) (m : Machine) :
    (stepVariable s place e m).Leaves (R [] m) := by
  cases e with
  | var x =>
    refine hR.bind (hR.lookup x m) fun old m₁ => ?_
    refine hR.bind (hR.ofExcept (old.value.step s) [] m₁) fun new m₂ => ?_
    refine hR.bind (hR.assign x new m₂) fun _ m₃ => ?_
    cases place with
    | before => exact hR.pure new [] m₃
    | after => exact hR.pure old.value [] m₃
  | _ => exact hR.raise _ [] m

mutual

/-- **The effect of an expression.** -/
theorem eval (hcall : call.Leaves R) :
    ∀ (e : Expr) (m : Machine), (e.eval call m).Leaves (R [] m)
  | .int n, m => hR.pure (Value.int n) [] m
  | .float x, m => hR.pure (Value.float x) [] m
  | .str s, m => hR.pure (Value.str s) [] m
  | .bool b, m => hR.pure (Value.bool b) [] m
  | .var x, m => hR.bind (hR.lookup x m) fun b m₁ => hR.pure b.value [] m₁
  | .call f args, m => hR.bind (evalAll hcall args m) fun vs m₁ => hcall f vs m₁
  | .binary l op r, m =>
    hR.bind (eval hcall l m) fun left m₁ =>
      hR.bind (eval hcall r m₁) fun right m₂ => hR.ofExcept (Value.binary op left right) [] m₂
  | .step s place e, m => hR.stepVariable s place e m

theorem evalAll (hcall : call.Leaves R) :
    ∀ (es : List Expr) (m : Machine), (Expr.evalAll call es m).Leaves (R [] m)
  | [], m => hR.pure [] [] m
  | e :: rest, m =>
    hR.bind (eval hcall e m) fun v m₁ =>
      hR.bind (evalAll hcall rest m₁) fun vs m₂ => hR.pure (v :: vs) [] m₂

end

theorem test (hcall : call.Leaves R) (c : Expr) (place : TestPlace) (m : Machine) :
    (c.test call place m).Leaves (R [] m) :=
  hR.bind (hR.eval hcall c m) fun v m₁ => hR.ofExcept (v.toBool place) [] m₁

mutual

/-- **The effect of a statement.** -/
theorem exec (hcall : call.Leaves R) (bound : Nat) :
    ∀ (s : Stmt) (m : Machine), (s.exec call bound m).Leaves (R s.declared m)
  | .init t x e, m =>
    hR.bind (hR.eval hcall e m) fun v m₁ =>
      hR.bind (hR.declare x t v m₁) fun _ m₂ => hR.pure Flow.next [] m₂
  | .declare t x, m =>
    hR.bind (hR.ofExcept (Value.initial t) [] m) fun v m₁ =>
      hR.bind (hR.declare x t v m₁) fun _ m₂ => hR.pure Flow.next [] m₂
  | .assign x e, m =>
    hR.bind (hR.lookup x m) fun _ m₁ =>
      hR.bind (hR.eval hcall e m₁) fun v m₂ =>
        hR.bind (hR.assign x v m₂) fun _ m₃ => hR.pure Flow.next [] m₃
  | .eval e, m => hR.bind (hR.eval hcall e m) fun _ m₁ => hR.pure Flow.next [] m₁
  | .branch c yes no, m => by
    refine hR.bind (hR.test hcall c .ifCondition m) fun holds m₁ => ?_
    cases holds with
    | true => exact hR.inBlock (execAll hcall bound yes m₁.pushScope)
    | false => exact hR.inBlock (execAll hcall bound no m₁.pushScope)
  | .loop c body, m => by
    -- the invariant of the loop is its effect so far
    refine meets_iterate (fun m₁ h₁ => ?_) (fun m₁ h₁ => ?_) (fun _ h₁ => h₁) bound (hR.refl [] m)
    · exact (hR.test hcall c .whileCondition m₁).mono fun _ h₂ => hR.trans h₁ h₂
    · have hblock := hR.inBlock (execAll hcall bound body m₁.pushScope)
      exact Outcome.Meets.mono hblock
        (fun _ _ h₂ => ⟨fun _ => hR.trans h₁ h₂, fun _ => hR.trans h₁ h₂⟩)
        fun _ _ h₂ => hR.trans h₁ h₂
  | .ret e, m => hR.bind (hR.eval hcall e m) fun v m₁ => hR.pure (Flow.returned v) [] m₁

/-- **The effect of a list of statements.** -/
theorem execAll (hcall : call.Leaves R) (bound : Nat) :
    ∀ (ss : List Stmt) (m : Machine),
      (Stmt.execAll call bound ss m).Leaves (R (Stmt.declaredAll ss) m)
  | [], m => hR.pure Flow.next [] m
  | s :: rest, m => by
    refine hR.bind (exec hcall bound s m) fun flow m₁ => ?_
    cases flow with
    | next => exact execAll hcall bound rest m₁
    | returned v => exact hR.pure (Flow.returned v) _ m₁

end

end Syntax

/-! ### Calls -/

theorem builtin (b : Builtin) (args : List Value) (m : Machine) :
    (b.call args m).Leaves (R [] m) := by
  cases b with
  | print =>
    rw [Builtin.call]
    split
    · exact hR.printLine _ m
    · exact hR.raise _ [] m

theorem callBy {invoke : Function → List Value → Action (Value × Frame)}
    (hinvoke : ∀ f args m, (invoke f args m).Leaves (R [] m)) :
    (Scriptlet.callBy invoke).Leaves R := by
  intro name vs m
  rw [Scriptlet.callBy]
  cases Builtin.ofName? name with
  | some b => exact hR.builtin b vs m
  | none =>
    dsimp only
    cases m.function? name with
    | none => exact hR.refl [] m
    | some f =>
      have hrun := hinvoke f vs m
      dsimp only
      cases hr : invoke f vs m with
      | done r m' =>
        rw [hr] at hrun
        exact hrun
      | fault cause m' =>
        rw [hr] at hrun
        exact hrun
      | outOfFuel => exact trivial

/-- **The effect of a call.** By induction on the number of nested calls: the calls in a body nest
one less. -/
theorem invoke (n : Nat) : ∀ (f : Function) (args : List Value) (m : Machine),
    (Scriptlet.invoke n f args m).Leaves (R [] m) := by
  induction n with
  | zero => exact fun _ _ _ => trivial
  | succ n ih =>
    intro f args m
    refine f.activate_leaves (hR.refl [] m) fun frame hframe => ?_
    exact (hR.execAll (hR.callBy ih) n f.body (m.pushFrame frame)).mono fun _ => hR.call hframe

theorem callWithin (fuel : Nat) : (Scriptlet.callWithin fuel).Leaves R :=
  hR.callBy (hR.invoke fuel)

end Effect

end Scriptlet
