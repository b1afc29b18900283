import Scriptlet.Machine.Run
import Scriptlet.Proofs.Machine.Congruence
import Scriptlet.Proofs.Machine.Outcome

/-!
# Scriptlet.Proofs.Machine.Simulation

**Two runs side by side.** An action is matched by another one if, started on related machines, the
second ends as the first does: with the same value or the same fault, and on related machines again.
Nothing is asked of the second action where the first is out of fuel, or where it stops with a fault
that the comparison is told to `stop` at.

Being matched is a congruence of actions if the relation bears what programs do to the newest frame
(`Action.congruence_matched`). `Simulation` lists what calls need in addition; there the relation
may depend on the call that is running. The second run may have more fuel than the first, so between
equal machines this says that an answer stays the same however much fuel is left.
-/

namespace Scriptlet

variable {α β : Type} {R S : Machine → Machine → Prop} {stop : Fault → Prop}

/-! ### Matched outcomes -/

/-- The outcome `o'` is that of `o`, on machines related by `R`, unless `o` is out of fuel or a
fault to `stop` at. -/
def Outcome.MatchedBy (R : Machine → Machine → Prop) (stop : Fault → Prop) (o o' : Outcome α) :
    Prop :=
  o.Meets (fun a m => ∃ m', o' = .done a m' ∧ R m m')
    fun cause m => stop cause ∨ ∃ m', o' = .fault cause m' ∧ R m m'

/-- The two outcomes are the same, on machines related by `R`. -/
def Outcome.Agree (R : Machine → Machine → Prop) : Outcome α → Outcome α → Prop
  | .done a m, .done a' m' => a' = a ∧ R m m'
  | .fault cause m, .fault cause' m' => cause' = cause ∧ R m m'
  | .outOfFuel, .outOfFuel => True
  | _, _ => False

namespace Outcome

variable {o o' : Outcome α}

theorem matchedBy_done {a : α} {m m' : Machine} (h : R m m') :
    (done a m).MatchedBy R stop (done a m') :=
  ⟨m', rfl, h⟩

theorem matchedBy_fault {cause : Fault} {m m' : Machine} (h : R m m') :
    (fault cause m : Outcome α).MatchedBy R stop (fault cause m') :=
  .inr ⟨m', rfl, h⟩

/-- Outcomes that match each other are the same: neither can be out of fuel alone. -/
theorem agree_of_matched (h : o.MatchedBy R (fun _ => False) o')
    (h' : o'.MatchedBy S (fun _ => False) o) : o.Agree R o' := by
  cases o with
  | done a m =>
    obtain ⟨m', rfl, hm⟩ := h
    exact ⟨rfl, hm⟩
  | fault cause m =>
    obtain hfalse | ⟨m', rfl, hm⟩ := h
    · exact hfalse.elim
    · exact ⟨rfl, hm⟩
  | outOfFuel =>
    cases o' with
    | done a m' =>
      obtain ⟨_, heq, -⟩ := h'
      cases heq
    | fault cause m' =>
      obtain hfalse | ⟨_, heq, -⟩ := h'
      · exact hfalse.elim
      · cases heq
    | outOfFuel => exact trivial

/-- An answer that is matched on equal machines is the same answer. -/
theorem eq_of_matched (h : o.MatchedBy (fun m m' => m' = m) (fun _ => False) o')
    (ho : o ≠ outOfFuel) : o' = o := by
  cases o with
  | done a m =>
    obtain ⟨_, rfl, rfl⟩ := h
    rfl
  | fault cause m =>
    obtain hfalse | ⟨_, rfl, rfl⟩ := h
    · exact hfalse.elim
    · rfl
  | outOfFuel => exact absurd rfl ho

theorem eq_of_agree (h : o.Agree R o') (hR : ∀ m m', R m m' → m' = m) : o' = o := by
  cases o <;> cases o' <;> try exact h.elim
  case done.done a m a' m' => rw [h.1, hR m m' h.2]
  case fault.fault cause m cause' m' => rw [h.1, hR m m' h.2]
  case outOfFuel.outOfFuel => rfl

end Outcome

/-! ### Matched actions -/

/-- On related machines the second action does what the first does. -/
def Action.MatchedBy (R : Machine → Machine → Prop) (stop : Fault → Prop) (x x' : Action α) :
    Prop :=
  ∀ m m', R m m' → (x m).MatchedBy R stop (x' m')

namespace Action

/-- Sequences match if their first actions do, here on two machines, and their second ones do,
whatever value the first ones give. -/
theorem matchedBy_bind {x x' : Action α} {k k' : α → Action β} {m m' : Machine}
    (hx : (x m).MatchedBy R stop (x' m')) (hk : ∀ a, (k a).MatchedBy R stop (k' a)) :
    ((x >>= k) m).MatchedBy R stop ((x' >>= k') m') := by
  rw [bind_apply, bind_apply]
  cases hrun : x m with
  | done a m₁ =>
    rw [hrun] at hx
    obtain ⟨m₁', hrun', hm₁⟩ := hx
    rw [hrun']
    exact hk a m₁ m₁' hm₁
  | fault cause m₁ =>
    rw [hrun] at hx
    obtain hstop | ⟨m₁', hrun', hm₁⟩ := hx
    · exact .inl hstop
    · rw [hrun']
      exact Outcome.matchedBy_fault hm₁
  | outOfFuel => exact trivial

theorem MatchedBy.bind {x x' : Action α} {k k' : α → Action β} (hx : x.MatchedBy R stop x')
    (hk : ∀ a, (k a).MatchedBy R stop (k' a)) : (x >>= k).MatchedBy R stop (x' >>= k') :=
  fun m m' hm => matchedBy_bind (hx m m' hm) hk

theorem MatchedBy.inBlock {body body' : Action α}
    (hpush : ∀ {m m'}, R m m' → R m.pushScope m'.pushScope)
    (hpop : ∀ {m m'}, R m m' → R m.popScope m'.popScope) (h : body.MatchedBy R stop body') :
    (Action.inBlock body).MatchedBy R stop (Action.inBlock body') := by
  intro m m' hm
  have hbody := h _ _ (hpush hm)
  rw [Action.inBlock, Action.inBlock]
  cases hrun : body m.pushScope with
  | done a m₁ =>
    rw [hrun] at hbody
    obtain ⟨m₁', hrun', hm₁⟩ := hbody
    rw [hrun']
    exact Outcome.matchedBy_done (hpop hm₁)
  | fault cause m₁ =>
    rw [hrun] at hbody
    obtain hstop | ⟨m₁', hrun', hm₁⟩ := hbody
    · exact .inl hstop
    · rw [hrun']
      exact Outcome.matchedBy_fault (hpop hm₁)
  | outOfFuel => exact trivial

/-- A lookup sees the newest frame and nothing else. -/
theorem lookup_eq_top (x : String) (m : Machine) :
    lookup x m =
      match m.top.lookup? x with
      | some b => .done b m
      | none => .fault (.undefinedVariable x) m := by
  have htop : m.top = m.frames.headD .toplevel := rfl
  rw [lookup, htop]
  cases m.frames with
  | nil => rfl
  | cons f rest => cases f.lookup? x <;> rfl

/-- Machines with the same newest frame do the same to it. -/
theorem congruence_matched (htop : ∀ {m m'}, R m m' → m'.top = m.top)
    (hmap : ∀ {m m'} (g : Frame → Frame), R m m' → R (m.mapTop g) (m'.mapTop g)) :
    BlockCongruence fun _ x x' => x.MatchedBy R stop x' where
  pure _ _ _ := Outcome.matchedBy_done
  raise _ _ _ := Outcome.matchedBy_fault
  bind := MatchedBy.bind
  lookup x m m' h := by
    rw [lookup_eq_top, lookup_eq_top, htop h]
    cases m.top.lookup? x with
    | none => exact Outcome.matchedBy_fault h
    | some b => exact Outcome.matchedBy_done h
  assign x v m m' h := by
    rw [Action.assign, Action.assign, htop h]
    split
    · exact Outcome.matchedBy_fault (hmap id h)
    · split
      · exact Outcome.matchedBy_fault (hmap id h)
      · exact Outcome.matchedBy_done (hmap _ h)
  declare x t v m m' h := by
    rw [Action.declare, Action.declare, htop h]
    split
    · exact Outcome.matchedBy_fault h
    · split
      · exact Outcome.matchedBy_fault h
      · split
        · exact Outcome.matchedBy_done (hmap _ h)
        · exact Outcome.matchedBy_fault h
  inBlock := .inBlock (hmap Frame.pushScope) (hmap Frame.popScope)

end Action

/-- A loop is matched by the loop of matching parts that may go on for at least as many rounds. -/
theorem iterate_matched (hK : Action.Congruence fun _ x x' => x.MatchedBy R stop x') {n n' : Nat}
    (hn : n ≤ n') : RelatesLoops (fun _ x x' => x.MatchedBy R stop x') n n' := by
  intro test test' body body' htest hbody
  induction n generalizing n' with
  | zero => exact fun _ _ _ => trivial
  | succ n ih =>
    obtain ⟨k, rfl⟩ : ∃ k, n' = k + 1 := ⟨n' - 1, by omega⟩
    refine htest.bind fun holds => ?_
    cases holds with
    | false => exact hK.pure _
    | true =>
      refine hbody.bind fun flow => ?_
      cases flow with
      | next => exact ih (Nat.le_of_succ_le_succ hn)
      | returned v => exact hK.pure _

/-! ### Calls -/

/-- Two calls of a function whose bodies match. The bodies may be related by another relation `S`,
as long as it gives way to `R` when the frame of the call is taken off. The second call may be
allowed to nest deeper, if the comparison stops at a first call that nests too deep. -/
theorem Function.activate_matched {f : Function} {body body' : Action Flow} {args : List Value}
    {m m' : Machine} (hm : R m m') (hdepth : m'.calls.depth = m.calls.depth)
    (hlimit : m'.options.maxCallDepth = m.options.maxCallDepth ∨
      m.options.maxCallDepth ≤ m'.options.maxCallDepth ∧ ∀ limit, stop (.callDepthExceeded limit))
    (hbody : m.calls.depth ≤ m.options.maxCallDepth → ∀ frame, f.enter args = .ok frame →
      (body (m.pushFrame frame)).MatchedBy S stop (body' (m'.pushFrame frame)))
    (hleave : ∀ m₁ m₁', S m₁ m₁' → m₁'.top = m₁.top ∧ R m₁.popFrame m₁'.popFrame) :
    (f.activate body args m).MatchedBy R stop (f.activate body' args m') := by
  rw [activate, activate, hdepth]
  by_cases hdeep : m.options.maxCallDepth < m.calls.depth
  · rw [if_pos hdeep]
    obtain heq | ⟨-, hstop⟩ := hlimit
    · rw [heq, if_pos hdeep]
      exact Outcome.matchedBy_fault hm
    · exact .inl (hstop _)
  · have hdeep' : ¬ m'.options.maxCallDepth < m.calls.depth := by omega
    rw [if_neg hdeep, if_neg hdeep']
    cases henter : f.enter args with
    | error cause => exact Outcome.matchedBy_fault hm
    | ok frame =>
      have hrun := hbody (Nat.le_of_not_lt hdeep) frame henter
      dsimp only
      cases hflow : body (m.pushFrame frame) with
      | done flow m₁ =>
        rw [hflow] at hrun
        obtain ⟨m₁', hflow', hm₁⟩ := hrun
        obtain ⟨htop, hpop⟩ := hleave m₁ m₁' hm₁
        rw [hflow', leave, leave]
        cases f.resultOf flow with
        | ok v => exact ⟨_, by rw [htop], hpop⟩
        | error cause => exact Outcome.matchedBy_fault hpop
      | fault cause m₁ =>
        rw [hflow] at hrun
        obtain hstop | ⟨m₁', hflow', hm₁⟩ := hrun
        · exact .inl hstop
        · rw [hflow']
          exact Outcome.matchedBy_fault (hleave m₁ m₁' hm₁).2
      | outOfFuel => exact trivial

theorem Action.function_matched
    (hfunction : ∀ {m m'} name, R m m' → m'.function? name = m.function? name) (name : String) :
    (function name).MatchedBy R stop (function name) := by
  intro m m' hm
  rw [function, function, hfunction name hm]
  cases m.function? name with
  | none => exact Outcome.matchedBy_fault hm
  | some f => exact Outcome.matchedBy_done hm

theorem Builtin.call_matched
    (hprint : ∀ {m m'} line, R m m' → R (m.printLine line) (m'.printLine line)) (b : Builtin)
    (vs : List Value) : (b.call vs).MatchedBy R stop (b.call vs) := by
  intro m m' hm
  cases b with
  | print =>
    rw [call]
    split
    · exact Outcome.matchedBy_done (hprint _ hm)
    · exact Outcome.matchedBy_fault hm

/-- Calls by one name match if the machines have the same function of that name, and the calls of
this function match. -/
theorem callBy_matched_of_name {invoke invoke' : Function → List Value → Action (Value × Frame)}
    {name : String}
    (hprint : ∀ {m m'} line, R m m' → R (m.printLine line) (m'.printLine line))
    (hfunction : ∀ {m m'}, R m m' → m'.function? name = m.function? name)
    (hinvoke : ∀ {m m'} f args, R m m' → m.function? name = some f →
      (invoke f args m).MatchedBy R stop (invoke' f args m')) (vs : List Value) :
    (callBy invoke name vs).MatchedBy R stop (callBy invoke' name vs) := by
  rw [callBy_eq, callBy_eq]
  cases Builtin.ofName? name with
  | some b => exact b.call_matched hprint vs
  | none =>
    intro m m' hm
    dsimp only
    rw [Action.bind_apply, Action.bind_apply, Action.function, Action.function, hfunction hm]
    cases hf : m.function? name with
    | none => exact Outcome.matchedBy_fault hm
    | some f => exact Action.matchedBy_bind (hinvoke f vs hm hf) fun _ _ _ => Outcome.matchedBy_done

/-- Calls by name match if the calls of functions do. -/
theorem callBy_matched {invoke invoke' : Function → List Value → Action (Value × Frame)}
    (hprint : ∀ {m m'} line, R m m' → R (m.printLine line) (m'.printLine line))
    (hfunction : ∀ {m m'} name, R m m' → m'.function? name = m.function? name)
    (hinvoke : ∀ f args, (invoke f args).MatchedBy R stop (invoke' f args)) (name : String)
    (vs : List Value) : (callBy invoke name vs).MatchedBy R stop (callBy invoke' name vs) :=
  callBy_matched_of_name hprint (hfunction name) (fun f args hm _ => hinvoke f args _ _ hm) vs

/-- What the relation has to bear for calls. It may depend on the call that is running, by an index:
a callee starts with an index of its own, and the index of its caller comes back when it ends. -/
structure Simulation {ι : Type} (R : ι → Machine → Machine → Prop) (stop : Fault → Prop) :
    Prop where
  actions : ∀ i, Action.BlockCongruence fun _ x x' => x.MatchedBy (R i) stop x'
  printLine : ∀ {i m m'} line, R i m m' → R i (m.printLine line) (m'.printLine line)
  function? : ∀ {i m m'} name, R i m m' → m'.function? name = m.function? name
  depth : ∀ {i m m'}, R i m m' → m'.calls.depth = m.calls.depth
  /-- Either both runs have the same limit on nested calls, or the second has the higher one and
  the comparison stops where the first run reaches its own. -/
  limit : ∀ {i m m'}, R i m m' → m'.options.maxCallDepth = m.options.maxCallDepth ∨
    m.options.maxCallDepth ≤ m'.options.maxCallDepth ∧ ∀ limit, stop (.callDepthExceeded limit)
  call : ∀ {i m m'}, R i m m' → ∃ j,
    (∀ frame, R j (m.pushFrame frame) (m'.pushFrame frame)) ∧
    ∀ m₁ m₁', R j m₁ m₁' → m₁'.top = m₁.top ∧ R i m₁.popFrame m₁'.popFrame

namespace Simulation

variable {ι : Type} {R : ι → Machine → Machine → Prop} (hR : Simulation R stop) {n n' : Nat}

include hR

/-- Two executions of statements, the second of which may have higher bounds. -/
theorem execAll {i : ι} {call call' : CallHandler}
    (hcall : ∀ name vs, (call name vs).MatchedBy (R i) stop (call' name vs)) (hn : n ≤ n')
    (ss : List Stmt) :
    (Stmt.execAll call n ss).MatchedBy (R i) stop (Stmt.execAll call' n' ss) :=
  (hR.actions i).execAll hcall ss (.inr (iterate_matched (hR.actions i).toCongruence hn))

/-- **Two calls of a function.** By induction on the number of nested calls: the calls in a body
nest one less. -/
theorem invoke (hn : n ≤ n') (i : ι) (f : Function) (args : List Value) :
    (Scriptlet.invoke n f args).MatchedBy (R i) stop (Scriptlet.invoke n' f args) := by
  induction n generalizing n' i f args with
  | zero => exact fun _ _ _ => trivial
  | succ n ih =>
    obtain ⟨k, rfl⟩ : ∃ k, n' = k + 1 := ⟨n' - 1, by omega⟩
    have hnk : n ≤ k := Nat.le_of_succ_le_succ hn
    intro m m' hm
    obtain ⟨j, hpush, hleave⟩ := hR.call hm
    have hcall := callBy_matched hR.printLine hR.function? (ih hnk j)
    exact f.activate_matched hm (hR.depth hm) (hR.limit hm)
      (fun _ frame _ => hR.execAll hcall hnk f.body _ _ (hpush frame)) hleave

theorem callWithin (hn : n ≤ n') (i : ι) (name : String) (vs : List Value) :
    (Scriptlet.callWithin n name vs).MatchedBy (R i) stop (Scriptlet.callWithin n' name vs) :=
  callBy_matched hR.printLine hR.function? (hR.invoke hn i) name vs

end Simulation

/-! ### Runs -/

/-- Adds the functions of a program to the machine and has the entry function called. -/
def runBy (start : Function → Action (Value × Frame)) (p : Program) : Action Evaluation := do
  register p
  fun m =>
    (do
      let f ← Action.function m.options.entry
      let (value, frame) ← start f
      fun m' => .done (.ofRun value frame m') m' : Action Evaluation) m

theorem runProgram_eq_runBy (fuel : Nat) (p : Program) :
    runProgram fuel p = runBy (fun f => invoke fuel f []) p := rfl

theorem register_matched (hadd : ∀ {m m'} f, R m m' →
      R { m with functions := m.functions ++ [f] } { m' with functions := m'.functions ++ [f] })
    (hfunctions : ∀ {m m'}, R m m' → m'.functions = m.functions) (p : Program) :
    (register p).MatchedBy R stop (register p) := by
  induction p with
  | nil => exact fun _ _ => Outcome.matchedBy_done
  | cons f rest ih =>
    intro m m' hm
    have hfind : m'.function? f.name = m.function? f.name := by
      rw [Machine.function?, hfunctions hm, Machine.function?]
    simp only [register, hfind]
    by_cases hbuiltin : Builtin.isName f.name
    · rw [if_pos hbuiltin, if_pos hbuiltin]
      exact Outcome.matchedBy_fault hm
    · rw [if_neg hbuiltin, if_neg hbuiltin]
      by_cases htaken : (m.function? f.name).isSome
      · rw [if_pos htaken, if_pos htaken]
        exact Outcome.matchedBy_fault hm
      · rw [if_neg htaken, if_neg htaken]
        exact ih _ _ (hadd f hm)

/-- **Two runs of a program** on machines that show the same. -/
theorem runBy_matched {start start' : Function → Action (Value × Frame)}
    (hadd : ∀ {m m'} f, R m m' →
      R { m with functions := m.functions ++ [f] } { m' with functions := m'.functions ++ [f] })
    (hfunctions : ∀ {m m'}, R m m' → m'.functions = m.functions)
    (hentry : ∀ {m m'}, R m m' → m'.options.entry = m.options.entry)
    (hconsole : ∀ {m m'}, R m m' → m'.console = m.console)
    (hstart : ∀ f, (start f).MatchedBy R stop (start' f)) (p : Program) :
    (runBy start p).MatchedBy R stop (runBy start' p) := by
  refine (register_matched hadd hfunctions p).bind fun _ m m' hm => ?_
  have hfunction {m₁ m₁' : Machine} (name : String) (hm₁ : R m₁ m₁') :
      m₁'.function? name = m₁.function? name := by
    rw [Machine.function?, hfunctions hm₁, Machine.function?]
  rw [hentry hm]
  refine (Action.function_matched hfunction _).bind (fun f => ?_) m m' hm
  refine (hstart f).bind fun (value, frame) m₁ m₁' hm₁ => ?_
  have hshown : Evaluation.ofRun value frame m₁' = Evaluation.ofRun value frame m₁ := by
    simp only [Evaluation.ofRun, Machine.functionNames, hfunctions hm₁, hconsole hm₁]
  exact ⟨m₁', congrArg (Outcome.done · m₁') hshown, hm₁⟩

/-! ### More fuel -/

/-- Equal machines are a simulation: all that can differ is the fuel. -/
theorem simulation_eq : Simulation (fun (_ : Unit) m m' => m' = m) fun _ => False where
  actions _ := Action.congruence_matched (fun h => by rw [h]) fun g h => by rw [h]
  printLine line h := by rw [h]
  function? name h := by rw [h]
  depth h := by rw [h]
  limit h := .inl (by rw [h])
  call h := ⟨(), fun frame => by rw [h], fun _ _ h' => ⟨by rw [h'], by rw [h']⟩⟩

section Fuel

variable {n n' bound bound' : Nat} (hn : n ≤ n') {m : Machine}

include hn

/-- The value of an expression does not depend on how much fuel is left. -/
theorem Expr.eval_of_le {e : Expr} (h : e.eval (callWithin n) m ≠ .outOfFuel) :
    e.eval (callWithin n') m = e.eval (callWithin n) m :=
  Outcome.eq_of_matched
    ((simulation_eq.actions ()).eval (simulation_eq.callWithin hn ()) e m m rfl) h

/-- How a statement ends does not depend on how much fuel is left. -/
theorem Stmt.exec_of_le (hbound : bound ≤ bound') {s : Stmt}
    (h : s.exec (callWithin n) bound m ≠ .outOfFuel) :
    s.exec (callWithin n') bound' m = s.exec (callWithin n) bound m :=
  Outcome.eq_of_matched
    ((simulation_eq.actions ()).exec (simulation_eq.callWithin hn ()) s
      (.inr (iterate_matched (simulation_eq.actions ()).toCongruence hbound)) m m rfl) h

/-- How a run ends does not depend on how much fuel is left. -/
theorem runProgram_of_le {p : Program} (h : runProgram n p m ≠ .outOfFuel) :
    runProgram n' p m = runProgram n p m := by
  simp only [runProgram_eq_runBy] at h ⊢
  have hmatched := runBy_matched (R := fun m m' => m' = m) (fun _ h => by rw [h])
    (fun h => by rw [h]) (fun h => by rw [h]) (fun h => by rw [h])
    (fun f => simulation_eq.invoke hn () f []) p
  exact Outcome.eq_of_matched (hmatched m m rfl) h

end Fuel

end Scriptlet
