import Scriptlet.Evaluate
import Scriptlet.Proofs.Machine.Registration
import Scriptlet.Proofs.Typing.Exec

/-!
# Scriptlet.Proofs.Typing.Sound

**Type soundness.** A well-typed program gives a value of the declared type, or it stops with one of
the faults that typing does not rule out, or it runs on.

The handler of a well-typed program is typed, by induction on its bound on nested calls: a body is
run with the handler of the next smaller bound, so what is known of typed statements applies to it.
-/

namespace Scriptlet

variable {p : Program} {o : Options} {below : List Frame} {Γ : Context} {m : Machine}

/-! ### Entering a function -/

namespace Function

/-- Distinct parameters that are not `void` pass the check. -/
theorem checkParams_of_nodup (function : String) {ps : List Param}
    (hvoid : ∀ q ∈ ps, q.type ≠ .void) (hnodup : (ps.map Param.name).Nodup) :
    ∀ {seen : List String}, (∀ q ∈ ps, q.name ∉ seen) → checkParams function seen ps = .ok () := by
  induction ps with
  | nil => exact fun _ => rfl
  | cons q rest ih =>
    intro seen hseen
    obtain ⟨hq, hrest⟩ := List.forall_mem_cons.1 hvoid
    obtain ⟨hfresh, hnodup⟩ := List.nodup_cons.1 hnodup
    obtain ⟨hqseen, hseen⟩ := List.forall_mem_cons.1 hseen
    rw [checkParams, if_neg hq, if_neg hqseen]
    refine ih hrest hnodup fun q' hq' hmem => ?_
    rcases List.mem_cons.1 hmem with heq | hmem
    · exact hfresh (List.mem_map.2 ⟨q', hq', heq⟩)
    · exact hseen q' hq' hmem

/-- Accepted arguments are bound to sound variables. -/
theorem bindParams_of_accepts {ps : List Param} {vs : List Value}
    (hvoid : ∀ q ∈ ps, q.type ≠ .void)
    (h : List.Forall₂ (fun q v => q.type.accepts v.type) ps vs) :
    ∃ scope, bindParams ps vs = .ok scope ∧ scope.types = ps.map (fun q => (q.name, q.type)) ∧
      scope.Sound := by
  induction h with
  | nil => exact ⟨[], rfl, rfl, nofun⟩
  | @cons q v ps vs hv _ ih =>
    obtain ⟨hq, hrest⟩ := List.forall_mem_cons.1 hvoid
    obtain ⟨w, hw, htype⟩ := Value.conform_of_accepts (.variable q.name) hv
    obtain ⟨scope, hscope, htypes, hsound⟩ := ih hrest
    refine ⟨(q.name, ⟨q.type, w⟩) :: scope, ?_, ?_, hsound.cons ⟨hq, htype⟩⟩
    · rw [bindParams, hw, hscope]
      rfl
    · exact congrArg ((q.name, q.type) :: ·) htypes

/-- A well-typed function can be entered with accepted arguments. -/
theorem WellTyped.enter {f : Function} (hf : f.WellTyped p) {vs : List Value}
    (h : List.Forall₂ (fun q v => q.type.accepts v.type) f.params vs) :
    ∃ frame, f.enter vs = .ok frame ∧ frame.context = f.context ∧ frame.Sound := by
  obtain ⟨scope, hscope, htypes, hsound⟩ := bindParams_of_accepts hf.params_not_void h
  refine ⟨⟨f.name, [scope]⟩, ?_, congrArg (fun γ => [γ]) htypes, ?_⟩
  · rw [Function.enter, if_neg (not_not.2 h.length_eq.symm),
      checkParams_of_nodup f.name hf.params_not_void hf.params_nodup fun _ _ => List.not_mem_nil,
      hscope]
    rfl
  · exact List.forall_mem_cons.2 ⟨hsound, nofun⟩

/-- A function gives a value of its result type, however its body ends. -/
theorem WellTyped.resultOf {f : Function} (hf : f.WellTyped p) {flow : Flow}
    (h : Ends p o below f.result Γ (Stmt.anyReturns f.body) flow m) :
    ∃ v, f.resultOf flow = .ok v ∧ v.type = f.result := by
  cases flow with
  | next =>
    rcases hf.returns with hvoid | hreturns
    · exact ⟨.void, rfl, hvoid.symm⟩
    · -- the end of a body that is bound to return is not reached
      rw [h.1] at hreturns
      cases hreturns
  | returned v => exact Value.conform_of_accepts (.result f.name) h.1

/-- A call of a well-typed function gives a value of its result type. -/
theorem WellTyped.activate {f : Function} (hf : f.WellTyped p) {call : CallHandler}
    (hcall : call.Typed p o) (bound : Nat) {vs : List Value}
    (hargs : List.Forall₂ (fun q v => q.type.accepts v.type) f.params vs)
    (h : m.Typed p o below Γ) :
    (f.activate (Stmt.execAll call bound f.body) vs m).Meets
      (fun r m' => r.1.type = f.result ∧ m'.Typed p o below Γ) (Residual o) := by
  obtain ⟨frame, henter, hcontext, hsound⟩ := hf.enter hargs
  obtain ⟨Γ', hcheck⟩ := Option.isSome_iff_exists.1 hf.body
  -- while the body runs, all frames of the caller lie below
  have hpush := h.pushFrame hsound
  rw [hcontext] at hpush
  have hbody : (Stmt.execAll call bound f.body (m.pushFrame frame)).Meets _ _ :=
    Stmt.execAll_typed hcall f.body hcheck hpush
  simp only [Function.activate, henter]
  split
  · exact .inr (.inr (by rw [h.options]))
  · cases hrun : Stmt.execAll call bound f.body (m.pushFrame frame) with
    | done flow m₁ =>
      rw [hrun] at hbody
      obtain ⟨v, hv, htype⟩ := hf.resultOf hbody
      have htyped : ∃ Γ₁, m₁.Typed p o m.frames Γ₁ := by
        cases flow with
        | next => exact ⟨_, hbody.2⟩
        | returned w => exact hbody.2
      obtain ⟨Γ₁, h₁⟩ := htyped
      simp only [leave, hv]
      exact ⟨htype, h.popFrame h₁⟩
    | fault cause m₁ =>
      rw [hrun] at hbody
      exact hbody
    | outOfFuel => exact trivial

end Function

/-! ### Answering calls -/

/-- Printing takes a value of any type. -/
theorem Builtin.call_typed {b : Builtin} {vs : List Value} (hlength : vs.length = b.arity)
    (h : m.Typed p o below Γ) :
    (b.call vs m).Meets (fun v m' => v.type = .void ∧ m'.Typed p o below Γ) (Residual o) := by
  cases b with
  | print =>
    rw [Builtin.call, if_pos hlength]
    exact ⟨rfl, h.functions, h.options, h.frames, h.context, h.sound⟩

/-- Calls are answered as their types say if the functions of the program are. -/
theorem callBy_typed {invoke : Function → List Value → Action (Value × Frame)}
    (hinvoke : ∀ {below : List Frame} {Γ : Context} {m : Machine} {f : Function}
      {vs : List Value}, f ∈ p → List.Forall₂ (fun q v => q.type.accepts v.type) f.params vs →
        m.Typed p o below Γ → (invoke f vs m).Meets
          (fun r m' => r.1.type = f.result ∧ m'.Typed p o below Γ) (Residual o)) :
    (callBy invoke).Typed p o := by
  intro below Γ m name vs t ht h
  rw [Program.resultType?] at ht
  rw [callBy]
  cases hbuiltin : Builtin.ofName? name with
  | some b =>
    rw [hbuiltin] at ht
    obtain ⟨hlength, ⟨⟩⟩ := Option.ite_none_right_eq_some.1 ht
    rw [List.length_map] at hlength
    exact Builtin.call_typed hlength h
  | none =>
    rw [hbuiltin] at ht
    have hfunction : m.function? name = p.find? (·.name = name) := by
      rw [Machine.function?, h.functions]
    cases hf : p.find? (·.name = name) with
    | none =>
      rw [hf] at ht
      cases ht
    | some f =>
      rw [hf] at ht hfunction
      obtain ⟨hargs, ⟨⟩⟩ := Option.ite_none_right_eq_some.1 ht
      have hcall := hinvoke (List.mem_of_find?_eq_some hf) (List.forall₂_map_right_iff.1 hargs) h
      simp only [hfunction]
      cases hrun : invoke f vs m with
      | done r m₁ =>
        rw [hrun] at hcall
        exact hcall
      | fault cause m₁ =>
        rw [hrun] at hcall
        exact hcall
      | outOfFuel => exact trivial

/-- **Typed calls.** Every function of a well-typed program gives a value of its result type,
however deep its calls nest. -/
theorem invoke_typed (hp : ∀ f ∈ p, f.WellTyped p) (n : Nat) :
    ∀ {below : List Frame} {Γ : Context} {m : Machine} {f : Function} {vs : List Value}, f ∈ p →
      List.Forall₂ (fun q v => q.type.accepts v.type) f.params vs → m.Typed p o below Γ →
        (invoke n f vs m).Meets (fun r m' => r.1.type = f.result ∧ m'.Typed p o below Γ)
          (Residual o) := by
  induction n with
  | zero => exact fun _ _ _ => trivial
  | succ n ih => exact fun hf hargs h => (hp _ hf).activate (callBy_typed ih) n hargs h

/-! ### Runs -/

/-- A machine that has done nothing is typed, whatever functions it is given. -/
theorem Machine.typed_new (p : Program) (o : Options) :
    ({ Machine.new o with functions := p } : Machine).Typed p o [] [[]] where
  functions := rfl
  options := rfl
  frames := rfl
  context := rfl
  sound := List.forall_mem_cons.2 ⟨nofun, nofun⟩

/-- The run of a well-typed program gives a value of the result type of the entry function. -/
theorem runProgram_typed {f : Function} (h : p.WellTyped o.entry) (hf : f ∈ p)
    (hname : f.name = o.entry) (hparams : f.params = []) (fuel : Nat) :
    (runProgram fuel p (.new o)).Meets (fun e _ => e.value.type = f.result) (Residual o) := by
  have hregister : register p (.new o) = .done () { Machine.new o with functions := p } :=
    register_of_nodup h.names_nodup h.not_builtin fun _ _ => rfl
  refine Action.meets_bind (Q := fun _ m => m = { Machine.new o with functions := p })
    (by rw [hregister]; rfl) ?_
  rintro _ _ rfl
  have hfind := find?_of_nodup h.names_nodup hf
  rw [hname] at hfind
  refine Action.meets_bind (Q := fun g m => g = f ∧ m.Typed p o [] [[]]) ?_ ?_
  · rw [Action.function, Machine.function?, Machine.new, hfind]
    exact ⟨rfl, Machine.typed_new p o⟩
  · rintro g m ⟨rfl, hm⟩
    refine Action.meets_bind (invoke_typed h.functions fuel hf (hparams ▸ .nil) hm)
      fun r m₁ hr => ?_
    exact hr.1

/-- **Type soundness.** However long a well-typed program is run, with whatever options: it gives a
value of the result type of its entry function, or it stops with a division by zero, an integer
result out of range or too many nested calls, or it is not done yet. -/
theorem wellTyped_run {p : Program} {options : Options} (h : p.WellTyped options.entry)
    (fuel : Nat) :
    (∃ f ∈ p, f.name = options.entry ∧
      ∃ e, p.run fuel options = .finished e ∧ e.value.type = f.result) ∨
    (∃ cause console, p.run fuel options = .faulted cause console ∧
      (cause = .divisionByZero ∨ cause = .overflow ∨
        cause = .callDepthExceeded options.maxCallDepth)) ∨
    p.run fuel options = .outOfFuel := by
  obtain ⟨f, hf, hname, hparams⟩ := h.entry
  have hrun := runProgram_typed h hf hname hparams fuel
  rw [Program.run]
  cases houtcome : runProgram fuel p (.new options) with
  | done e m =>
    rw [houtcome] at hrun
    exact .inl ⟨f, hf, hname, e, rfl, hrun⟩
  | fault cause m =>
    rw [houtcome] at hrun
    exact .inr (.inl ⟨cause, _, rfl, hrun⟩)
  | outOfFuel => exact .inr (.inr rfl)

/-- Type soundness at a program with an integer where floats are declared, a call as argument of a
call and two branches that return. It prints and gives an integer. -/
theorem wellTyped_run_halves :
    ∃ (p : Program) (e : Evaluation),
      p = [⟨.float, "half", [⟨.int, "n"⟩, ⟨.float, "x"⟩],
            [.branch (.binary (.var "n") .gt (.int 0))
              [.init .int "m" (.step .decrement .before (.var "n")),
                .ret (.call "half" [.var "m", .binary (.var "x") .div (.int 2)])]
              [.ret (.var "n")]]⟩,
          ⟨.int, "main", [],
            [.declare .int "s",
              .loop (.binary (.var "s") .lt (.int 3))
                [.eval (.call "print" [.call "half" [.var "s", .var "s"]]),
                  .eval (.step .increment .after (.var "s"))],
              .ret (.var "s")]⟩] ∧
        p.WellTyped "main" ∧ p.run 100 {} = .finished e ∧
        e.console = ["0.0", "0.0", "0.0"] ∧ e.value = .int 3 ∧
        ∃ f ∈ p, f.name = "main" ∧ f.result = .int ∧ e.value.type = f.result := by
  let p : Program :=
    [⟨.float, "half", [⟨.int, "n"⟩, ⟨.float, "x"⟩],
        [.branch (.binary (.var "n") .gt (.int 0))
          [.init .int "m" (.step .decrement .before (.var "n")),
            .ret (.call "half" [.var "m", .binary (.var "x") .div (.int 2)])]
          [.ret (.var "n")]]⟩,
      ⟨.int, "main", [],
        [.declare .int "s",
          .loop (.binary (.var "s") .lt (.int 3))
            [.eval (.call "print" [.call "half" [.var "s", .var "s"]]),
              .eval (.step .increment .after (.var "s"))],
          .ret (.var "s")]⟩]
  have htyped : p.WellTyped "main" := by decide +kernel
  obtain ⟨e, hrun, hconsole, hvalue⟩ : ∃ e, p.run 100 {} = .finished e ∧
      e.console = ["0.0", "0.0", "0.0"] ∧ e.value = .int 3 := ⟨_, rfl, by decide +kernel, rfl⟩
  obtain ⟨f, hf, hname, e', hrun', htype⟩ | ⟨_, _, hfault, -⟩ | hfuel :=
    @wellTyped_run p {} htyped 100
  · cases hrun.symm.trans hrun'
    refine ⟨p, e, rfl, htyped, hrun, hconsole, hvalue, f, hf, hname, ?_, htype⟩
    rw [← htype, hvalue]
    rfl
  · cases hrun.symm.trans hfault
  · cases hrun.symm.trans hfuel

end Scriptlet
