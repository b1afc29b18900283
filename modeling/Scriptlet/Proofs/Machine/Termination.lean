import Scriptlet.Evaluate
import Scriptlet.Proofs.Machine.Simulation

/-!
# Scriptlet.Proofs.Machine.Termination

**Programs without loops end.** Functions may call themselves and each other as they like: every
call takes a frame, and the limit on nested calls ends what would go on for ever. So the fuel that
an answer takes is known in advance. It is one more than the number of calls that the limit still
allows, whatever the program.

The measure is the number of calls that may still nest, and within a call the syntax. The bound is
on the frames, so it has to be known that a call leaves as many frames as it has found;
`Machine.LoopFree` carries the lower bound that is needed.
-/

namespace Scriptlet

/-- Whether there is no loop in a function. -/
def Function.loopFree (f : Function) : Bool :=
  Stmt.loopFreeAll f.body

/-! ### Answers -/

/-- The outcome is a value or a fault, and leaves a machine with `P`. -/
def Outcome.Answers {α : Type} (P : Machine → Prop) : Outcome α → Prop
  | .done _ m => P m
  | .fault _ m => P m
  | .outOfFuel => False

theorem Outcome.Answers.ne_outOfFuel {α : Type} {P : Machine → Prop} {o : Outcome α}
    (h : o.Answers P) : o ≠ .outOfFuel := by
  rintro rfl
  exact h

/-- From machines with `P` the action has an answer, which leaves a machine with `P`. -/
def Action.Answers {α : Type} (P : Machine → Prop) (x : Action α) : Prop :=
  ∀ m, P m → (x m).Answers P

namespace Action

variable {α β : Type} {P : Machine → Prop}

theorem Answers.bind {x : Action α} {k : α → Action β} (hx : x.Answers P)
    (hk : ∀ a, (k a).Answers P) : (x >>= k).Answers P := by
  intro m hm
  have hfirst := hx m hm
  rw [bind_apply]
  cases hrun : x m with
  | done a m₁ =>
    rw [hrun] at hfirst
    exact hk a m₁ hfirst
  | fault cause m₁ =>
    rw [hrun] at hfirst
    exact hfirst
  | outOfFuel =>
    rw [hrun] at hfirst
    exact hfirst

/-- All that programs do to the newest frame has an answer. Loops are not among it: they are the one
way to go on without an answer that syntax has. -/
theorem congruence_answers (hmap : ∀ {m} (g : Frame → Frame), P m → P (m.mapTop g)) :
    BlockCongruence fun _ x _ => x.Answers P where
  pure _ _ h := h
  raise _ _ h := h
  bind := Answers.bind
  lookup x m h := by
    rw [lookup_eq_top]
    cases m.top.lookup? x with
    | none => exact h
    | some b => exact h
  assign x v m h := by
    rw [Action.assign]
    split
    · exact hmap id h
    · split
      · exact hmap id h
      · exact hmap _ h
  declare x t v m h := by
    rw [Action.declare]
    split
    · exact h
    · split
      · exact h
      · split
        · exact hmap _ h
        · exact h
  inBlock {_ body _} hbody m h := by
    have hrun := hbody _ (hmap Frame.pushScope h)
    rw [Action.inBlock, Machine.pushScope]
    cases hend : body (m.mapTop Frame.pushScope) with
    | done a m₁ =>
      rw [hend] at hrun
      exact hmap Frame.popScope hrun
    | fault cause m₁ =>
      rw [hend] at hrun
      exact hmap Frame.popScope hrun
    | outOfFuel =>
      rw [hend] at hrun
      exact hrun

end Action

section Syntax

variable {P : Machine → Prop} (hmap : ∀ {m} (g : Frame → Frame), P m → P (m.mapTop g))
  {call : CallHandler} (hcall : ∀ name vs, (call name vs).Answers P)

include hmap hcall

/-- An expression has an answer if the calls in it do. -/
theorem Expr.eval_answers (e : Expr) : (e.eval call).Answers P :=
  @Action.Congruence.eval _ call call (Action.congruence_answers hmap).toCongruence hcall e

/-- A statement without loops has an answer if the calls in it do. -/
theorem Stmt.exec_answers (bound : Nat) {s : Stmt} (hs : s.loopFree) :
    (s.exec call bound).Answers P :=
  @Action.BlockCongruence.exec _ call call bound bound (Action.congruence_answers hmap) hcall s
    (.inl hs)

theorem Stmt.execAll_answers (bound : Nat) {ss : List Stmt} (hss : Stmt.loopFreeAll ss) :
    (Stmt.execAll call bound ss).Answers P :=
  @Action.BlockCongruence.execAll _ call call bound bound (Action.congruence_answers hmap) hcall ss
    (.inl hss)

end Syntax

/-! ### Calls -/

/-- No function of the machine has a loop, calls nest up to `d` deep, and at least `k` frames are
there. -/
structure Machine.LoopFree (d k : Nat) (m : Machine) : Prop where
  functions : ∀ f ∈ m.functions, f.loopFree
  limit : m.options.maxCallDepth = d
  count : k ≤ m.frames.length

namespace Machine.LoopFree

variable {d k : Nat} {m : Machine}

theorem mapTop (g : Frame → Frame) (h : m.LoopFree d k) : (m.mapTop g).LoopFree d k where
  functions := h.functions
  limit := h.limit
  count := by
    have hcount := h.count
    rw [frames_mapTop, List.length_cons, List.length_tail]
    omega

theorem pushFrame (frame : Frame) (h : m.LoopFree d k) : (m.pushFrame frame).LoopFree d (k + 1) :=
  ⟨h.functions, h.limit, Nat.succ_le_succ h.count⟩

theorem popFrame (h : m.LoopFree d (k + 1)) : m.popFrame.LoopFree d k where
  functions := h.functions
  limit := h.limit
  count := by
    change k ≤ m.frames.tail.length
    rw [List.length_tail]
    exact Nat.le_sub_of_add_le h.count

end Machine.LoopFree

section Calls

variable {d k : Nat}

/-- A call is answered if its body is. -/
theorem Function.activate_answers {f : Function} {body : Action Flow}
    (hbody : k ≤ d → body.Answers (Machine.LoopFree d (k + 1))) (args : List Value) :
    (f.activate body args).Answers (Machine.LoopFree d k) := by
  intro m hm
  rw [activate]
  split
  · exact hm
  · rename_i hdeep
    cases henter : f.enter args with
    | error cause => exact hm
    | ok frame =>
      have hk : k ≤ d := by
        have hcount := hm.count
        rw [hm.limit, m.calls.depth_eq] at hdeep
        exact Nat.le_trans hcount (Nat.le_of_not_lt hdeep)
      have hrun := hbody hk _ (hm.pushFrame frame)
      dsimp only
      cases hflow : body (m.pushFrame frame) with
      | done flow m₁ =>
        rw [hflow] at hrun
        rw [leave]
        cases f.resultOf flow with
        | ok v => exact hrun.popFrame
        | error cause => exact hrun.popFrame
      | fault cause m₁ =>
        rw [hflow] at hrun
        exact hrun.popFrame
      | outOfFuel =>
        rw [hflow] at hrun
        exact hrun

/-- A function of the machine has no loop. -/
theorem Action.function_bind_answers {α : Type} {next : Function → Action α}
    (hnext : ∀ f, f.loopFree → (next f).Answers (Machine.LoopFree d k)) (name : String) :
    (function name >>= next).Answers (Machine.LoopFree d k) := by
  intro m hm
  rw [bind_apply, function]
  cases hf : m.function? name with
  | none => exact hm
  | some f => exact hnext f (hm.functions f (List.mem_of_find?_eq_some hf)) m hm

theorem callBy_answers {invoke : Function → List Value → Action (Value × Frame)}
    (hinvoke : ∀ f args, f.loopFree → (invoke f args).Answers (Machine.LoopFree d k))
    (name : String) (vs : List Value) :
    (callBy invoke name vs).Answers (Machine.LoopFree d k) := by
  rw [callBy_eq]
  cases Builtin.ofName? name with
  | some b =>
    cases b with
    | print =>
      intro m hm
      dsimp only
      rw [Builtin.call]
      split
      · exact ⟨hm.functions, hm.limit, hm.count⟩
      · exact hm
  | none =>
    refine Action.function_bind_answers (fun f hf => ?_) name
    exact (hinvoke f vs hf).bind fun _ _ h => h

/-- **Calls are answered** with fuel for the calls that may still nest. By induction on the fuel:
the body of a call has one frame more, and so one call less that may nest in it. -/
theorem invoke_answers {n : Nat} (hn : d + 1 - k < n) {f : Function} (hf : f.loopFree)
    (args : List Value) : (invoke n f args).Answers (Machine.LoopFree d k) := by
  induction n generalizing k f args with
  | zero => exact absurd hn (Nat.not_lt_zero _)
  | succ n ih =>
    refine Function.activate_answers (fun hk => ?_) args
    have hnested : d + 1 - (k + 1) < n := by omega
    have hcall := callBy_answers fun g vs hg => ih hnested hg vs
    exact Stmt.execAll_answers Machine.LoopFree.mapTop hcall n hf

theorem callWithin_answers {n : Nat} (hn : d + 1 - k < n) (name : String) (vs : List Value) :
    (callWithin n name vs).Answers (Machine.LoopFree d k) :=
  callBy_answers (fun _ args hf => invoke_answers hn hf args) name vs

end Calls

/-! ### Runs -/

/-- Adding functions without loops has an answer. -/
theorem register_answers {d k : Nat} {p : Program} (hp : ∀ f ∈ p, f.loopFree) :
    (register p).Answers (Machine.LoopFree d k) := by
  induction p with
  | nil => exact fun _ h => h
  | cons f rest ih =>
    obtain ⟨hf, hrest⟩ := List.forall_mem_cons.1 hp
    intro m hm
    simp only [register]
    split
    · exact hm
    · split
      · exact hm
      · refine ih hrest _ ⟨?_, hm.limit, hm.count⟩
        exact List.forall_mem_append.2 ⟨hm.functions, List.forall_mem_singleton.2 hf⟩

/-- The run of a program without loops has an answer if there is fuel for all calls that the limit
allows. -/
theorem runProgram_answers {p : Program} (hp : ∀ f ∈ p, f.loopFree) {options : Options}
    {fuel : Nat} (hfuel : options.maxCallDepth < fuel) :
    (runProgram fuel p (.new options)).Answers (Machine.LoopFree options.maxCallDepth 1) := by
  have hnew : (Machine.new options).LoopFree options.maxCallDepth 1 := ⟨nofun, rfl, Nat.le_refl 1⟩
  refine (register_answers hp).bind (fun _ m hm => ?_) _ hnew
  refine Action.function_bind_answers (fun f hf => ?_) m.options.entry m hm
  exact (invoke_answers (by omega) hf []).bind fun (_, _) _ h => h

/-- **Termination without loops.** A program without loops ends, with a value or a fault, whatever
its entry function and its limit on nested calls: it has one result for every amount of fuel above
the limit. On every machine whose functions have no loops, all expressions and all statements
without loops end as well. -/
theorem loopFree_terminates :
    (∀ (p : Program) (options : Options), (∀ f ∈ p, f.loopFree) →
      ∃ r, ((∃ e, r = .finished e) ∨ ∃ cause console, r = .faulted cause console) ∧
        ∀ fuel, options.maxCallDepth < fuel → p.run fuel options = r) ∧
    ∀ m : Machine, (∀ f ∈ m.functions, f.loopFree) →
      (∀ e : Expr, ∃ o, o ≠ .outOfFuel ∧
        ∀ fuel, m.options.maxCallDepth + 1 < fuel → e.eval (callWithin fuel) m = o) ∧
      ∀ s : Stmt, s.loopFree → ∃ o, o ≠ .outOfFuel ∧
        ∀ fuel bound, m.options.maxCallDepth + 1 < fuel → s.exec (callWithin fuel) bound m = o := by
  refine ⟨fun p options hp => ?run, fun m hm => ?machine⟩
  case run =>
    have hanswer := runProgram_answers hp (Nat.lt_succ_self options.maxCallDepth)
    refine ⟨p.run (options.maxCallDepth + 1) options, ?ends, fun fuel hfuel => ?same⟩
    case ends =>
      rw [Program.run]
      cases hrun : runProgram (options.maxCallDepth + 1) p (.new options) with
      | done e m => exact .inl ⟨e, rfl⟩
      | fault cause m => exact .inr ⟨cause, _, rfl⟩
      | outOfFuel => exact absurd hrun hanswer.ne_outOfFuel
    case same => rw [Program.run, Program.run, runProgram_of_le hfuel hanswer.ne_outOfFuel]
  case machine =>
    have hloopFree : m.LoopFree m.options.maxCallDepth 0 := ⟨hm, rfl, Nat.zero_le _⟩
    have hcall := callWithin_answers (d := m.options.maxCallDepth) (k := 0)
      (Nat.lt_succ_self (m.options.maxCallDepth + 1))
    have hmap := @Machine.LoopFree.mapTop m.options.maxCallDepth 0
    refine ⟨fun e => ?eval, fun s hs => ?exec⟩
    case eval =>
      have hanswer := (Expr.eval_answers hmap hcall e m hloopFree).ne_outOfFuel
      exact ⟨_, hanswer, fun fuel hfuel => Expr.eval_of_le hfuel hanswer⟩
    case exec =>
      have hanswer := (Stmt.exec_answers hmap hcall 0 hs m hloopFree).ne_outOfFuel
      exact ⟨_, hanswer, fun fuel bound hfuel => Stmt.exec_of_le hfuel (Nat.zero_le _) hanswer⟩

/-- Termination of two functions that call each other for ever, up to the limit of three calls. -/
theorem loopFree_terminates_mutual :
    ∃ p : Program,
      p = [⟨.int, "ping", [⟨.int, "n"⟩],
            [.branch (.bool true) [.ret (.call "pong" [.var "n", .var "n"])] []]⟩,
          ⟨.int, "pong", [⟨.int, "n"⟩, ⟨.int, "m"⟩], [.ret (.call "ping" [.var "m"])]⟩,
          ⟨.void, "main", [], [.eval (.call "ping" [.int 0])]⟩] ∧
      (∀ f ∈ p, f.loopFree) ∧
      ∀ fuel, 3 < fuel →
        p.run fuel ⟨"main", 3⟩ = .faulted (.callDepthExceeded 3) [] := by
  let p : Program :=
    [⟨.int, "ping", [⟨.int, "n"⟩],
        [.branch (.bool true) [.ret (.call "pong" [.var "n", .var "n"])] []]⟩,
      ⟨.int, "pong", [⟨.int, "n"⟩, ⟨.int, "m"⟩], [.ret (.call "ping" [.var "m"])]⟩,
      ⟨.void, "main", [], [.eval (.call "ping" [.int 0])]⟩]
  have hp : ∀ f ∈ p, f.loopFree := by decide
  obtain ⟨r, -, hrun⟩ := loopFree_terminates.1 p ⟨"main", 3⟩ hp
  have hr : r = .faulted (.callDepthExceeded 3) [] := (hrun 4 (by decide)).symm
  exact ⟨p, rfl, hp, hr ▸ hrun⟩

end Scriptlet
