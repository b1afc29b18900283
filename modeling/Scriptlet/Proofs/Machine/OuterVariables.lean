import Scriptlet.Proofs.Machine.Points
import Scriptlet.Proofs.Machine.Visibility

/-!
# Scriptlet.Proofs.Machine.OuterVariables

**Variables of the outermost block.** Blocks do not copy the variables around them. At every point
of a call, a name that no inner block binds means the variable of the outermost block, and an update
changes that variable, in whatever block it is made and in whatever expression it stands.

What becomes of a variable can be read off the statements that come next, one after the other
(`Point.Updates`). An assignment stores the value of its expression. Any other statement takes the
steps up and down that stand in the expressions it evaluates, in the order of evaluation. That the
variable has really become this is shown for one step of a body (`Moves.updates_outer`) and then
along its course (`Leads.updates_outer`), through the ends of blocks and a `return` out of them.
Callees do not count, for they have no access to a caller's variables.
-/

namespace Scriptlet

/-! ### Updates -/

namespace Expr

mutual

/-- The steps that an expression takes the variable `x` up or down, in the order of evaluation. -/
def stepsOf (x : String) : Expr → List Step
  | .step s _ (.var y) => if y = x then [s] else []
  | .call _ args => stepsOfAll x args
  | .binary l _ r => l.stepsOf x ++ r.stepsOf x
  | _ => []

def stepsOfAll (x : String) : List Expr → List Step
  | [] => []
  | e :: rest => e.stepsOf x ++ stepsOfAll x rest

end

end Expr

namespace Binding

/-- The variable `x` after a step: the new value is stored in the declared type. -/
def step (x : String) (b : Binding) (s : Step) : Except Fault Binding := do
  let v ← b.value.step s
  let w ← v.conform (.variable x) b.type
  return { b with value := w }

/-- The variable `x` after steps, which are taken one after the other. -/
def stepAll (x : String) (b : Binding) (steps : List Step) : Except Fault Binding :=
  steps.foldlM (step x) b

variable {x : String} {b c d : Binding} {s : Step} {v w : Value} {steps steps' : List Step}

theorem step_of_conform (hv : b.value.step s = .ok v)
    (hw : v.conform (.variable x) b.type = .ok w) : b.step x s = .ok { b with value := w } := by
  rw [step, hv]
  exact congrArg (· >>= fun w => .ok { b with value := w }) hw

theorem type_of_step (h : b.step x s = .ok c) : c.type = b.type := by
  rw [step] at h
  cases hv : b.value.step s with
  | error cause =>
    rw [hv] at h
    cases h
  | ok v =>
    rw [hv] at h
    change (v.conform (.variable x) b.type >>= fun w => .ok { b with value := w }) = .ok c at h
    cases hw : v.conform (.variable x) b.type with
    | error cause =>
      rw [hw] at h
      cases h
    | ok w =>
      rw [hw] at h
      cases h
      rfl

theorem stepAll_singleton (h : b.step x s = .ok c) : b.stepAll x [s] = .ok c := by
  rw [stepAll, List.foldlM_cons, h]
  rfl

theorem stepAll_append (h : b.stepAll x steps = .ok c) (h' : c.stepAll x steps' = .ok d) :
    b.stepAll x (steps ++ steps') = .ok d := by
  rw [stepAll] at h
  rw [stepAll, List.foldlM_append, h]
  exact h'

/-- The declared type stays. -/
theorem type_of_stepAll (h : b.stepAll x steps = .ok c) : c.type = b.type := by
  induction steps generalizing b with
  | nil =>
    cases h
    rfl
  | cons s rest ih =>
    rw [stepAll, List.foldlM_cons] at h
    cases hs : b.step x s with
    | error cause =>
      rw [hs] at h
      cases h
    | ok d =>
      rw [hs] at h
      exact (ih h).trans (type_of_step hs)

end Binding

namespace Stmt

/-- The steps of the variable `x` that a statement takes before another one comes next. -/
def stepsOf (x : String) : Stmt → List Step
  | .init _ _ e | .assign _ e | .eval e | .ret e => e.stepsOf x
  | .branch c _ _ | .loop c _ => c.stepsOf x
  | .declare .. => []

/-- What a statement makes of a variable `x` that it sees, before another one comes next. -/
inductive Updates (call : CallHandler) (x : String) (m : Machine) (b : Binding) :
    Stmt → Binding → Prop
  /-- An assignment stores the value of its expression in the declared type. -/
  | assign {e : Expr} {v w : Value} {m₁ : Machine} (heval : e.eval call m = .done v m₁)
    (hw : v.conform (.variable x) b.type = .ok w) :
    Updates call x m b (.assign x e) { b with value := w }
  /-- Other statements take the steps in their expressions. -/
  | steps {s : Stmt} {c : Binding} (hs : ∀ e, s ≠ .assign x e)
    (hc : b.stepAll x (s.stepsOf x) = .ok c) : Updates call x m b s c

end Stmt

/-! ### Frames -/

namespace Frame

variable {f f' : Frame} {x y : String}

/-- A block inside the outermost one binds the name. -/
def HidesOuter (f : Frame) (x : String) : Prop :=
  f.Hides (f.scopes.length - 1) x

instance (f : Frame) (x : String) : Decidable (f.HidesOuter x) :=
  inferInstanceAs (Decidable (f.Hides _ x))

theorem find?_outermost (f : Frame) (x : String) :
    f.outermost.find? x = f.binding? (f.scopes.length - 1) x := by
  rw [outermost, binding?, List.getLast?_eq_getElem?]
  cases f.scopes[f.scopes.length - 1]? <;> rfl

/-- **A name that is not hidden means the outermost variable.** -/
theorem lookup?_of_not_hidesOuter (h : ¬ f.HidesOuter x) : f.lookup? x = f.outermost.find? x := by
  obtain ⟨name, scopes⟩ := f
  induction scopes with
  | nil => rfl
  | cons s rest ih =>
    rw [lookup?_cons]
    cases rest with
    | nil => exact Option.or_none
    | cons s' rest =>
      obtain ⟨hs, hrest⟩ := not_or.1 fun hor => h (hides_succ.2 hor)
      rw [Option.not_isSome_iff_eq_none.1 hs, Option.none_or, ih hrest]
      rfl

theorem length_scopes_of_context (h : f'.context = f.context) :
    f'.scopes.length = f.scopes.length := by
  have hlength := congrArg List.length h
  rwa [context, context, List.length_map, List.length_map] at hlength

/-- What is hidden is fixed by the names that the scopes bind. -/
theorem hidesOuter_congr (h : f'.context = f.context) : f'.HidesOuter x ↔ f.HidesOuter x := by
  rw [HidesOuter, HidesOuter, length_scopes_of_context h]
  exact ⟨fun hx => hx.of_context h.symm, fun hx => hx.of_context h⟩

theorem find?_outermost_set (v : Value) (h : f.HidesOuter x ∨ x ≠ y) :
    (f.set y v).outermost.find? x = f.outermost.find? x := by
  rw [find?_outermost, find?_outermost, length_scopes_of_context (context_set f y v)]
  rcases h with hx | hxy
  · exact binding?_set hx
  · exact binding?_set_of_ne hxy

/-- A variable of the outermost block stays when another one is declared. -/
theorem find?_outermost_extend {b : Binding} (c : Binding) (hfree : f.binding? 0 y = none)
    (h : f.outermost.find? x = some b) : (f.extend y c).outermost.find? x = some b := by
  obtain ⟨name, _ | ⟨s, _ | ⟨s', rest⟩⟩⟩ := f
  · cases h
  · have hxy : x ≠ y := by
      rintro rfl
      cases h.symm.trans hfree
    exact (Scope.find?_cons x y c s).trans ((if_neg hxy).trans h)
  · exact h

end Frame

/-! ### Machines -/

namespace Machine

variable {m m' m₁ : Machine} {x y : String} {steps steps' : List Step}

/-- Closing inner blocks leaves the outermost one. -/
theorem outermost_popScope_iterate {k : Nat} (h : k < m.top.scopes.length) :
    (popScope^[k] m).top.outermost = m.top.outermost := by
  rw [Frame.outermost, Frame.outermost, scopes_popScope_iterate, List.getLast?_drop,
    if_neg (Nat.not_le.2 h)]

theorem outermost_pushScope (h : m.InScope) : m.pushScope.top.outermost = m.top.outermost := by
  obtain ⟨s, rest, hscopes⟩ := List.exists_cons_of_ne_nil h.scopes_ne
  rw [pushScope, top_mapTop, Frame.pushScope, Frame.outermost, Frame.outermost, hscopes,
    List.getLast?_cons_cons]

/-- The machines have the same variables in the newest frame. What `x` has in its outermost block
has been taken through `steps`, or is the same if it is hidden. -/
structure StepsOuter (x : String) (steps : List Step) (m m' : Machine) : Prop where
  context : m'.top.context = m.top.context
  hidden : m.top.HidesOuter x → m'.top.outermost.find? x = m.top.outermost.find? x
  visible : ¬ m.top.HidesOuter x → ∀ b, m.top.outermost.find? x = some b →
    ∃ c, b.stepAll x steps = .ok c ∧ m'.top.outermost.find? x = some c

namespace StepsOuter

/-- Without steps the outermost block stays. -/
theorem of_find? (hcontext : m'.top.context = m.top.context)
    (h : m'.top.outermost.find? x = m.top.outermost.find? x) : m.StepsOuter x [] m' :=
  ⟨hcontext, fun _ => h, fun _ b hb => ⟨b, rfl, h.trans hb⟩⟩

theorem refl (m : Machine) (x : String) : m.StepsOuter x [] m :=
  of_find? rfl rfl

theorem trans (h : m.StepsOuter x steps m₁) (h' : m₁.StepsOuter x steps' m') :
    m.StepsOuter x (steps ++ steps') m' where
  context := h'.context.trans h.context
  hidden hx := (h'.hidden ((Frame.hidesOuter_congr h.context).2 hx)).trans (h.hidden hx)
  visible hx b hb := by
    obtain ⟨c, hc, hm₁⟩ := h.visible hx b hb
    obtain ⟨d, hd, hm'⟩ := h'.visible (mt (Frame.hidesOuter_congr h.context).1 hx) c hm₁
    exact ⟨d, Binding.stepAll_append hc hd, hm'⟩

theorem of_top (h : m.StepsOuter x steps m₁) (htop : m'.top = m₁.top) :
    m.StepsOuter x steps m' where
  context := htop ▸ h.context
  hidden := htop ▸ h.hidden
  visible := htop ▸ h.visible

end StepsOuter

end Machine

namespace Action

variable {m m' : Machine} {x y : String} {v : Value} {b : Binding}

theorem context_of_assign (h : assign y v m = .done () m') :
    m'.top.context = m.top.context := by
  obtain ⟨_, w, -, -, rfl⟩ := assign_eq_done h
  rw [Machine.top_mapTop]
  exact Frame.context_set m.top y w

/-- An assignment changes no hidden variable, and none of another name. -/
theorem assign_keeps_outer (h : assign y v m = .done () m') (hx : m.top.HidesOuter x ∨ x ≠ y) :
    m'.top.outermost.find? x = m.top.outermost.find? x := by
  obtain ⟨_, w, -, -, rfl⟩ := assign_eq_done h
  rw [Machine.top_mapTop]
  exact Frame.find?_outermost_set w hx

/-- **A value that is stored under a name that is not hidden** is in the outermost block. -/
theorem assign_outer (h : assign x v m = .done () m') (hx : ¬ m.top.HidesOuter x)
    (hb : m.top.outermost.find? x = some b) :
    ∃ w, v.conform (.variable x) b.type = .ok w ∧
      m'.top.outermost.find? x = some { b with value := w } := by
  have hx' : ¬ m'.top.HidesOuter x := mt (Frame.hidesOuter_congr (context_of_assign h)).1 hx
  rw [← Frame.lookup?_of_not_hidesOuter hx] at hb
  rw [← Frame.lookup?_of_not_hidesOuter hx']
  obtain ⟨b', w, hb', hw, rfl⟩ := assign_eq_done h
  cases hb.symm.trans hb'
  refine ⟨w, hw, ?_⟩
  rw [Machine.top_mapTop, Frame.lookup?_set, if_pos rfl, hb]
  rfl

end Action

/-! ### Expressions -/

section Evaluating

variable {n : Nat} {x : String}

theorem stepVariable_eq_done {s : Step} {place : Placement} {e : Expr} {v : Value} {m m' : Machine}
    (h : stepVariable s place e m = .done v m') :
    ∃ y b w, e = .var y ∧ m.top.lookup? y = some b ∧ b.value.step s = .ok w ∧
      Action.assign y w m = .done () m' := by
  cases e with
  | var y =>
    obtain ⟨b, m₁, hlookup, h₁⟩ := Action.bind_eq_done_iff.1 h
    obtain ⟨rfl, hb⟩ := Action.lookup_eq_done hlookup
    obtain ⟨w, m₂, hstep, h₂⟩ := Action.bind_eq_done_iff.1 h₁
    obtain ⟨rfl, hw⟩ := Action.ofExcept_eq_done hstep
    obtain ⟨_, m₃, hassign, h₃⟩ := Action.bind_eq_done_iff.1 h₂
    have hm' : m₃ = m' := by cases place <;> (cases h₃; rfl)
    subst hm'
    exact ⟨y, b, w, rfl, hb, hw, hassign⟩
  | _ => cases h

/-- A step of a variable is a step of the outermost one if it means that. -/
theorem stepVariable_stepsOuter {s : Step} {place : Placement} {e : Expr} {v : Value}
    {m m' : Machine} (h : stepVariable s place e m = .done v m') :
    m.StepsOuter x ((Expr.step s place e).stepsOf x) m' := by
  obtain ⟨y, b, v, rfl, hb, hv, hassign⟩ := stepVariable_eq_done h
  rw [Expr.stepsOf]
  by_cases hyx : y = x
  · subst hyx
    rw [if_pos rfl]
    refine ⟨Action.context_of_assign hassign,
      fun hx => Action.assign_keeps_outer hassign (.inl hx), fun hx b' hb' => ?_⟩
    rw [Frame.lookup?_of_not_hidesOuter hx] at hb
    cases hb.symm.trans hb'
    obtain ⟨w, hw, hm'⟩ := Action.assign_outer hassign hx hb'
    exact ⟨_, Binding.stepAll_singleton (Binding.step_of_conform hv hw), hm'⟩
  · rw [if_neg hyx]
    exact .of_find? (Action.context_of_assign hassign)
      (Action.assign_keeps_outer hassign (.inr (Ne.symm hyx)))

mutual

/-- **Evaluating an expression** takes a variable through the steps that stand in the
expression. -/
theorem Expr.eval_stepsOuter : ∀ {e : Expr} {m : Machine} {v : Value} {m' : Machine},
    e.eval (callWithin n) m = .done v m' → m.StepsOuter x (e.stepsOf x) m'
  | .int _, _, _, _, h => by
    cases h
    exact .refl _ x
  | .float _, _, _, _, h => by
    cases h
    exact .refl _ x
  | .str _, _, _, _, h => by
    cases h
    exact .refl _ x
  | .bool _, _, _, _, h => by
    cases h
    exact .refl _ x
  | .var y, _, _, _, h => by
    obtain ⟨b, m₁, hlookup, hvalue⟩ := Action.bind_eq_done_iff.1 h
    obtain ⟨rfl, -⟩ := Action.lookup_eq_done hlookup
    cases hvalue
    exact .refl _ x
  | .call f args, m, v, m', h => by
    rw [Expr.eval] at h
    obtain ⟨vs, m₁, hargs, hcall⟩ := Action.bind_eq_done_iff.1 h
    -- a callee has a frame of its own, so for its caller it only prints
    have hprints := callWithin_only_prints n f vs m₁
    rw [hcall] at hprints
    obtain ⟨lines, rfl⟩ := hprints
    exact (evalAll_stepsOuter hargs).of_top (congrArg CallStack.top (m₁.calls_printLines lines))
  | .binary l op r, m, v, m', h => by
    rw [Expr.eval] at h
    obtain ⟨left, m₁, hleft, h₁⟩ := Action.bind_eq_done_iff.1 h
    obtain ⟨right, m₂, hright, h₂⟩ := Action.bind_eq_done_iff.1 h₁
    obtain ⟨rfl, -⟩ := Action.ofExcept_eq_done h₂
    exact (eval_stepsOuter hleft).trans (eval_stepsOuter hright)
  | .step s place e, m, v, m', h => by
    rw [Expr.eval] at h
    exact stepVariable_stepsOuter h

theorem Expr.evalAll_stepsOuter : ∀ {es : List Expr} {m : Machine} {vs : List Value}
    {m' : Machine}, Expr.evalAll (callWithin n) es m = .done vs m' →
      m.StepsOuter x (Expr.stepsOfAll x es) m'
  | [], _, _, _, h => by
    cases h
    exact .refl _ x
  | e :: rest, m, vs, m', h => by
    rw [Expr.evalAll] at h
    obtain ⟨v, m₁, heval, h₁⟩ := Action.bind_eq_done_iff.1 h
    obtain ⟨ws, m₂, hevalAll, h₂⟩ := Action.bind_eq_done_iff.1 h₁
    cases h₂
    exact (eval_stepsOuter heval).trans (evalAll_stepsOuter hevalAll)

end

theorem Expr.test_stepsOuter {e : Expr} {m m' : Machine} {place : TestPlace} {holds : Bool}
    (h : e.test (callWithin n) place m = .done holds m') : m.StepsOuter x (e.stepsOf x) m' := by
  obtain ⟨v, m₁, heval, hbool⟩ := Action.bind_eq_done_iff.1 h
  obtain ⟨rfl, -⟩ := Action.ofExcept_eq_done hbool
  exact Expr.eval_stepsOuter heval

/-- A declaration leaves the other variables of the outermost block alone. -/
theorem Action.declare_outer {y : String} {t : Ty} {v : Value} {m m' : Machine} {b : Binding}
    (h : declare y t v m = .done () m') (hb : m.top.outermost.find? x = some b) :
    m'.top.outermost.find? x = some b := by
  obtain ⟨w, -, -, hfree, -, hdone⟩ | ⟨cause, -, hfault⟩ := declare_cases y t v m
  · cases hdone.symm.trans h
    rw [Machine.top_mapTop]
    exact Frame.find?_outermost_extend ⟨t, w⟩ hfree hb
  · cases hfault.symm.trans h

end Evaluating

/-! ### Points -/

namespace Point

variable {call : CallHandler} {n bound : Nat} {P Q : Point} {x : String} {b c : Binding}

/-- The variables of the outermost block. -/
def outer (P : Point) : Scope :=
  P.machine.top.outermost

/-- What the next statement makes of the variable `x` of the outermost block. -/
inductive Updates (call : CallHandler) (x : String) (b : Binding) : Point → Binding → Prop
  /-- A variable of an inner block hides it. -/
  | hidden {P : Point} (h : P.machine.top.HidesOuter x) : Updates call x b P b
  /-- No statement comes next in the block. -/
  | close {rest : List (List Stmt)} {m : Machine} : Updates call x b ⟨[] :: rest, m⟩ b
  | next {s : Stmt} {ss : List Stmt} {rest : List (List Stmt)} {m : Machine} {c : Binding}
    (hx : ¬ m.top.HidesOuter x) (h : s.Updates call x m b c) :
    Updates call x b ⟨(s :: ss) :: rest, m⟩ c

/-- The next statement assigns to the variable `x` of the outermost block or steps it. -/
inductive MayUpdate (x : String) : Point → Prop
  | assign {e : Expr} {ss : List Stmt} {rest : List (List Stmt)} {m : Machine}
    (hx : ¬ m.top.HidesOuter x) : MayUpdate x ⟨(.assign x e :: ss) :: rest, m⟩
  | steps {s : Stmt} {ss : List Stmt} {rest : List (List Stmt)} {m : Machine}
    (hx : ¬ m.top.HidesOuter x) (hs : s.stepsOf x ≠ []) : MayUpdate x ⟨(s :: ss) :: rest, m⟩

/-- On the way from `P` the variable `x` of the outermost block, at first `b`, is updated by one
statement after the other. -/
inductive Carries (call : CallHandler) (bound : Nat) (x : String) (P : Point) (b : Binding) :
    Point → Binding → Prop
  | refl : Carries call bound x P b P b
  | step {Q R : Point} {c d : Binding} (h : Carries call bound x P b Q c)
    (hmove : Moves call bound Q R) (hupdate : Q.Updates call x c d) :
    Carries call bound x P b R d

theorem Updates.eq_of_not_mayUpdate (h : P.Updates call x b c) (hP : ¬ P.MayUpdate x) : c = b := by
  cases h with
  | hidden | close => rfl
  | next hx h =>
    cases h with
    | assign => exact absurd (.assign hx) hP
    | steps _ hc =>
      have hnone := not_not.1 (mt (MayUpdate.steps hx) hP)
      rw [hnone] at hc
      cases hc
      rfl

/-- A statement that only takes steps makes of a variable what these steps do. -/
theorem Updates.of_steps (s : Stmt) (ss : List Stmt) (rest : List (List Stmt)) {m m₁ : Machine}
    (hs : ∀ e, s ≠ .assign x e) (h : m.StepsOuter x (s.stepsOf x) m₁)
    (hb : m.top.outermost.find? x = some b) :
    ∃ c, Updates call x b ⟨(s :: ss) :: rest, m⟩ c ∧ m₁.top.outermost.find? x = some c := by
  by_cases hx : m.top.HidesOuter x
  · exact ⟨b, .hidden hx, (h.hidden hx).trans hb⟩
  · obtain ⟨c, hc, hm₁⟩ := h.visible hx b hb
    exact ⟨c, .next hx (.steps hs hc), hm₁⟩

/-- An assignment is seen in the outermost block if it is made there. -/
theorem Updates.of_assign {y : String} {e : Expr} {v : Value} {m m₁ m' : Machine} (ss : List Stmt)
    (rest : List (List Stmt)) (heval : e.eval (callWithin n) m = .done v m₁)
    (hassign : Action.assign y v m₁ = .done () m') (hb : m.top.outermost.find? x = some b) :
    ∃ c, Updates (callWithin n) x b ⟨(.assign y e :: ss) :: rest, m⟩ c ∧
      m'.top.outermost.find? x = some c := by
  have hsteps := Expr.eval_stepsOuter (x := x) heval
  by_cases hyx : y = x
  · subst hyx
    by_cases hx : m.top.HidesOuter y
    · have hx₁ := (Frame.hidesOuter_congr hsteps.context).2 hx
      have hkept := Action.assign_keeps_outer hassign (.inl hx₁)
      exact ⟨b, .hidden hx, hkept.trans ((hsteps.hidden hx).trans hb)⟩
    · -- the assignment comes after the steps of its expression, whose result it replaces
      have hx₁ := mt (Frame.hidesOuter_congr hsteps.context).1 hx
      obtain ⟨c, hc, hm₁⟩ := hsteps.visible hx b hb
      obtain ⟨w, hw, hm'⟩ := Action.assign_outer hassign hx₁ hm₁
      rw [Binding.type_of_stepAll hc] at hw hm'
      exact ⟨_, .next hx (.assign heval hw), hm'⟩
  · have hs : ∀ e', Stmt.assign y e ≠ .assign x e' := fun e' h => hyx (Stmt.assign.inj h).1
    obtain ⟨c, hupdate, hc⟩ := Updates.of_steps (.assign y e) ss rest hs hsteps hb
    have hkept := Action.assign_keeps_outer hassign (.inr (Ne.symm hyx))
    exact ⟨c, hupdate, hkept.trans hc⟩

/-- **A variable of the outermost block** after a step is what the next statement has made of it. -/
theorem Moves.updates_outer (h : Moves (callWithin n) bound P Q) (hP : P.Fits)
    (hb : P.outer.find? x = some b) :
    ∃ c, P.Updates (callWithin n) x b c ∧ Q.outer.find? x = some c := by
  cases h with
  | @plain s ss rest m m' hs h =>
    cases Stmt.performs_of_exec hs h with
    | @init t y e v m₁ m' heval hdeclare =>
      obtain ⟨c, hupdate, hc⟩ :=
        Updates.of_steps (.init t y e) ss rest nofun (Expr.eval_stepsOuter heval) hb
      exact ⟨c, hupdate, Action.declare_outer hdeclare hc⟩
    | @declare t y v m' _ hdeclare =>
      obtain ⟨c, hupdate, hc⟩ := Updates.of_steps (.declare t y) ss rest nofun (.refl m x) hb
      exact ⟨c, hupdate, Action.declare_outer hdeclare hc⟩
    | assign _ heval hassign => exact Updates.of_assign ss rest heval hassign hb
    | @eval e v m' heval =>
      exact Updates.of_steps (.eval e) ss rest nofun (Expr.eval_stepsOuter heval) hb
  | @branch c yes no ss rest holds m m' h =>
    have hopened := Machine.outermost_pushScope (Expr.test_declares h hP.inScope).inScope
    obtain ⟨d, hupdate, hd⟩ :=
      Updates.of_steps (.branch c yes no) ss rest nofun (Expr.test_stepsOuter h) hb
    exact ⟨d, hupdate, (congrArg (·.find? x) hopened).trans hd⟩
  | @again c body ss rest m m' h =>
    have hopened := Machine.outermost_pushScope (Expr.test_declares h hP.inScope).inScope
    obtain ⟨d, hupdate, hd⟩ :=
      Updates.of_steps (.loop c body) ss rest nofun (Expr.test_stepsOuter h) hb
    exact ⟨d, hupdate, (congrArg (·.find? x) hopened).trans hd⟩
  | @finish c body ss rest m m' h =>
    exact Updates.of_steps (.loop c body) ss rest nofun (Expr.test_stepsOuter h) hb
  | @close ss rest m =>
    have hinner : 1 < m.top.scopes.length :=
      hP.length_scopes ▸ Nat.succ_lt_succ (Nat.succ_pos rest.length)
    have hclosed := Machine.outermost_popScope_iterate hinner
    exact ⟨b, .close, (congrArg (·.find? x) hclosed).trans hb⟩
  | @ret e ss rest v m m' h =>
    have hinner : rest.length < m'.top.scopes.length :=
      (hP.declares (Expr.eval_declares h hP.inScope)).length_scopes ▸ Nat.lt_succ_self rest.length
    have hclosed := Machine.outermost_popScope_iterate hinner
    obtain ⟨c, hupdate, hc⟩ :=
      Updates.of_steps (.ret e) ss rest nofun (Expr.eval_stepsOuter h) hb
    exact ⟨c, hupdate, (congrArg (·.find? x) hclosed).trans hc⟩

/-- **Along the course of a body** a variable of the outermost block becomes what the updates make
of it. -/
theorem Leads.updates_outer (h : Leads (callWithin n) bound P Q) (hP : P.Fits)
    (hb : P.outer.find? x = some b) :
    ∃ c, Carries (callWithin n) bound x P b Q c ∧ Q.outer.find? x = some c := by
  induction h with
  | refl => exact ⟨b, .refl, hb⟩
  | tail hfirst hmove ih =>
    obtain ⟨c, hcarries, hc⟩ := ih
    obtain ⟨d, hupdate, hd⟩ := hmove.updates_outer (Leads.fits hfirst hP) hc
    exact ⟨d, .step hcarries hmove hupdate, hd⟩

theorem Carries.leads (h : Carries call bound x P b Q c) : Leads call bound P Q := by
  induction h with
  | refl => exact .refl
  | step _ hmove _ ih => exact ih.tail hmove

/-- A variable that no statement on the way updates stays. -/
theorem Carries.eq_of_not_mayUpdate (h : Carries call bound x P b Q c)
    (hx : ∀ R, Leads call bound P R → ¬ R.MayUpdate x) : c = b := by
  induction h with
  | refl => rfl
  | step hcarries _ hupdate ih => exact (hupdate.eq_of_not_mayUpdate (hx _ hcarries.leads)).trans ih

/-- Where a body has ended nothing is updated any more. -/
theorem Leads.not_mayUpdate_of_ended {m : Machine} (h : Leads call bound (ended m) Q) :
    ¬ Q.MayUpdate x := by
  rcases Relation.ReflTransGen.cases_head h with rfl | ⟨_, hmove, -⟩
  · exact nofun
  · cases hmove

end Point

end Scriptlet
