import Scriptlet.Evaluate
import Scriptlet.Proofs.Scoping.State

/-!
# Scriptlet.Proofs.Scoping.Run

**Well-scoped programs have no name faults.** The names that the scoping rules know at a point of a
function are those that the newest frame binds whenever a run gets there. Expressions keep them, a
statement adds what it declares, and a block takes its own names away with it, in every round of a
loop and also when a `return` or a callee ends it early.

By induction on the syntax, and for calls on how deep they nest. The calls that an expression makes
are answered by a handler, of which it is only used that it has no name fault itself.
-/

namespace Scriptlet

variable {below : List Frame} {Γ : Blocks} {γ : List String} {m : Machine}

/-- Calls have no name fault and leave the names of their caller. -/
def CallHandler.WellScoped (call : CallHandler) : Prop :=
  ∀ {below : List Frame} {Γ : Blocks} {m : Machine} (name : String) (vs : List Value),
    m.WellScoped below Γ →
      (call name vs m).Meets (fun _ m' => m'.WellScoped below Γ) OtherFault

/-! ### Expressions -/

section Syntax

variable {call : CallHandler}

theorem stepVariable_wellScoped {s : Step} {place : Placement} {e : Expr}
    (he : (Expr.step s place e).wellScoped Γ.flatten) (h : m.WellScoped below Γ) :
    (stepVariable s place e m).Meets (fun _ m' => m'.WellScoped below Γ) OtherFault := by
  cases e with
  | var x =>
    have hx : x ∈ Γ.flatten := of_decide_eq_true he
    refine Action.meets_bind (Action.lookup_wellScoped hx h) fun b m₁ h₁ => ?_
    refine Action.meets_bind (Action.ofExcept_wellScoped (Value.step_noNameFault s b.value) h₁)
      fun v m₂ h₂ => ?_
    refine Action.meets_bind (Action.assign_wellScoped hx v h₂) fun _ m₃ h₃ => ?_
    cases place with
    | before => exact h₃
    | after => exact h₃
  | _ => rfl

namespace Expr

mutual

/-- **Evaluation without name faults.** A well-scoped expression keeps the names in reach. -/
theorem eval_wellScoped (hcall : call.WellScoped) :
    ∀ (e : Expr) {m : Machine}, e.wellScoped Γ.flatten → m.WellScoped below Γ →
      (e.eval call m).Meets (fun _ m' => m'.WellScoped below Γ) OtherFault
  | .int _, _, _, h => h
  | .float _, _, _, h => h
  | .str _, _, _, h => h
  | .bool _, _, _, h => h
  | .var _, _, he, h =>
    Action.meets_bind (Action.lookup_wellScoped (of_decide_eq_true he) h) fun _ _ h₁ => h₁
  | .call f args, _, he, h =>
    Action.meets_bind (evalAll_wellScoped hcall args he h) fun vs _ h₁ => hcall f vs h₁
  | .binary l op r, _, he, h => by
    obtain ⟨hl, hr⟩ := (Bool.and_eq_true_iff ..).1 he
    refine Action.meets_bind (eval_wellScoped hcall l hl h) fun v m₁ h₁ => ?_
    refine Action.meets_bind (eval_wellScoped hcall r hr h₁) fun w m₂ h₂ => ?_
    exact Action.ofExcept_wellScoped (Value.binary_noNameFault op v w) h₂
  | .step _ _ _, _, he, h => stepVariable_wellScoped he h

theorem evalAll_wellScoped (hcall : call.WellScoped) :
    ∀ (es : List Expr) {m : Machine}, wellScopedAll Γ.flatten es → m.WellScoped below Γ →
      (evalAll call es m).Meets (fun _ m' => m'.WellScoped below Γ) OtherFault
  | [], _, _, h => h
  | e :: rest, _, hes, h => by
    obtain ⟨he, hrest⟩ := (Bool.and_eq_true_iff ..).1 hes
    refine Action.meets_bind (eval_wellScoped hcall e he h) fun v m₁ h₁ => ?_
    exact Action.meets_bind (evalAll_wellScoped hcall rest hrest h₁) fun _ _ h₂ => h₂

end

theorem test_wellScoped (hcall : call.WellScoped) {c : Expr} (place : TestPlace)
    (hc : c.wellScoped Γ.flatten) (h : m.WellScoped below Γ) :
    (c.test call place m).Meets (fun _ m' => m'.WellScoped below Γ) OtherFault :=
  Action.meets_bind (eval_wellScoped hcall c hc h) fun v _ h₁ =>
    Action.ofExcept_wellScoped (Value.toBool_noNameFault place v) h₁

end Expr

/-! ### Statements -/

namespace Stmt

/-- A block that is closed leaves the names around it, whatever was declared in it. -/
theorem inBlock_wellScoped {body : Action Flow}
    (hbody : ∀ {m : Machine}, m.WellScoped below ([] :: Γ) →
      (body m).Meets (fun _ m' => ∃ γ, m'.WellScoped below (γ :: Γ)) OtherFault)
    (h : m.WellScoped below Γ) :
    (Action.inBlock body m).Meets (fun _ m' => m'.WellScoped below Γ) OtherFault :=
  Action.meets_inBlock ((hbody h.pushScope).mono (fun _ _ ⟨_, h₁⟩ => h₁.popScope)
    fun _ _ hcause => hcause)

mutual

/-- **Execution without name faults.** A well-scoped statement adds the names that it declares to
its block. A `return` ends the block, and may come before them. -/
theorem exec_wellScoped (hcall : call.WellScoped) (bound : Nat) :
    ∀ (s : Stmt) {Γ : Blocks} {γ : List String} {m : Machine}, s.wellScoped Γ γ →
      m.WellScoped below (γ :: Γ) →
      (s.exec call bound m).Meets
        (fun flow m' => ∃ γ', m'.WellScoped below (γ' :: Γ) ∧
          (flow = .next → γ' = s.declared ++ γ)) OtherFault
  | .init t x e, _, _, _, hs, h => by
    obtain ⟨he, hx⟩ := (Bool.and_eq_true_iff ..).1 hs
    refine Action.meets_bind (Expr.eval_wellScoped hcall e he h) fun v m₁ h₁ => ?_
    refine Action.meets_bind (Action.declare_wellScoped (of_decide_eq_true hx) t v h₁)
      fun _ m₂ h₂ => ?_
    exact ⟨_, h₂, fun _ => rfl⟩
  | .declare t x, _, _, _, hs, h => by
    refine Action.meets_bind (Action.ofExcept_wellScoped (Value.initial_noNameFault t) h)
      fun v m₁ h₁ => ?_
    refine Action.meets_bind (Action.declare_wellScoped (of_decide_eq_true hs) t v h₁)
      fun _ m₂ h₂ => ?_
    exact ⟨_, h₂, fun _ => rfl⟩
  | .assign x e, _, _, _, hs, h => by
    obtain ⟨hx, he⟩ := (Bool.and_eq_true_iff ..).1 hs
    have hx := of_decide_eq_true hx
    refine Action.meets_bind (Action.lookup_wellScoped hx h) fun _ m₁ h₁ => ?_
    refine Action.meets_bind (Expr.eval_wellScoped hcall e he h₁) fun v m₂ h₂ => ?_
    refine Action.meets_bind (Action.assign_wellScoped hx v h₂) fun _ m₃ h₃ => ?_
    exact ⟨_, h₃, fun _ => rfl⟩
  | .eval e, _, _, _, hs, h => by
    refine Action.meets_bind (Expr.eval_wellScoped hcall e hs h) fun _ m₁ h₁ => ?_
    exact ⟨_, h₁, fun _ => rfl⟩
  | .branch c yes no, _, _, _, hs, h => by
    obtain ⟨hc, hno⟩ := (Bool.and_eq_true_iff ..).1 hs
    obtain ⟨hc, hyes⟩ := (Bool.and_eq_true_iff ..).1 hc
    refine Action.meets_bind (Expr.test_wellScoped hcall .ifCondition hc h) fun holds m₁ h₁ => ?_
    cases holds with
    | true =>
      exact (inBlock_wellScoped (execAll_wellScoped hcall bound yes hyes) h₁).mono
        (fun _ _ h₂ => ⟨_, h₂, fun _ => rfl⟩) fun _ _ hcause => hcause
    | false =>
      exact (inBlock_wellScoped (execAll_wellScoped hcall bound no hno) h₁).mono
        (fun _ _ h₂ => ⟨_, h₂, fun _ => rfl⟩) fun _ _ hcause => hcause
  | .loop c body, _, _, _, hs, h => by
    -- every round starts with the names around the loop: the body has lost its own by then
    obtain ⟨hc, hbody⟩ := (Bool.and_eq_true_iff ..).1 hs
    refine meets_iterate (fun m₁ h₁ => Expr.test_wellScoped hcall .whileCondition hc h₁)
      (fun m₁ h₁ => ?_) (fun _ h₁ => ⟨_, h₁, fun _ => rfl⟩) bound h
    exact (inBlock_wellScoped (execAll_wellScoped hcall bound body hbody) h₁).mono
      (fun _ _ h₂ => ⟨fun _ => h₂, fun hreturned => ⟨_, h₂, fun hnext => absurd hnext hreturned⟩⟩)
      fun _ _ hcause => hcause
  | .ret e, _, _, _, hs, h => by
    refine Action.meets_bind (Expr.eval_wellScoped hcall e hs h) fun _ m₁ h₁ => ?_
    exact ⟨_, h₁, nofun⟩

/-- Well-scoped statements keep the names around their block. -/
theorem execAll_wellScoped (hcall : call.WellScoped) (bound : Nat) :
    ∀ (ss : List Stmt) {Γ : Blocks} {γ : List String} {m : Machine}, wellScopedAll Γ γ ss →
      m.WellScoped below (γ :: Γ) →
      (execAll call bound ss m).Meets (fun _ m' => ∃ γ', m'.WellScoped below (γ' :: Γ)) OtherFault
  | [], _, _, _, _, h => ⟨_, h⟩
  | s :: rest, _, _, _, hss, h => by
    obtain ⟨hs, hrest⟩ := (Bool.and_eq_true_iff ..).1 hss
    refine Action.meets_bind (exec_wellScoped hcall bound s hs h) fun flow m₁ hends => ?_
    obtain ⟨γ₁, h₁, hγ₁⟩ := hends
    cases flow with
    | next =>
      cases hγ₁ rfl
      exact execAll_wellScoped hcall bound rest hrest h₁
    | returned v => exact ⟨γ₁, h₁⟩

end

end Stmt

end Syntax

/-! ### Calls -/

/-- A call of a well-scoped function leaves its caller as it was. -/
theorem Function.activate_wellScoped {f : Function} (hf : f.wellScoped) {call : CallHandler}
    (hcall : call.WellScoped) (bound : Nat) (vs : List Value) (h : m.WellScoped below Γ) :
    (f.activate (Stmt.execAll call bound f.body) vs m).Meets
      (fun _ m' => m'.WellScoped below Γ) OtherFault := by
  refine f.activate_meets rfl (fun cause hcause => (f.enter_noNameFault vs).error hcause)
    fun frame hframe => ?_
  have hbody := Stmt.execAll_wellScoped hcall bound f.body hf (h.pushFrame (enter_names hframe))
  refine hbody.mono (fun flow m₁ ⟨γ, h₁⟩ => ⟨fun _ _ => h.popFrame h₁, fun cause hcause => ?_⟩)
    fun _ _ hcause => hcause
  exact (f.resultOf_noNameFault flow).error hcause

/-- A function that is looked up is well scoped. -/
theorem Action.function_wellScoped (name : String) (h : m.WellScoped below Γ) :
    (function name m).Meets (fun f m' => f.wellScoped ∧ m'.WellScoped below Γ) OtherFault := by
  rw [function]
  cases hf : m.function? name with
  | none => rfl
  | some f => exact ⟨h.functions f (List.mem_of_find?_eq_some hf), h⟩

theorem callBy_wellScoped {invoke : Function → List Value → Action (Value × Frame)}
    (hinvoke : ∀ {below : List Frame} {Γ : Blocks} {m : Machine} {f : Function} (vs : List Value),
      f.wellScoped → m.WellScoped below Γ →
        (invoke f vs m).Meets (fun _ m' => m'.WellScoped below Γ) OtherFault) :
    (callBy invoke).WellScoped := by
  intro below Γ m name vs h
  rw [callBy_eq]
  cases Builtin.ofName? name with
  | some b =>
    cases b with
    | print =>
      dsimp only
      rw [Builtin.call]
      split
      · exact ⟨h.functions, h.frames, h.names⟩
      · rfl
  | none =>
    refine Action.meets_bind (Action.function_wellScoped name h) fun f m₁ hf => ?_
    exact Action.meets_bind (hinvoke vs hf.1 hf.2) fun _ _ h₁ => h₁

/-- **Calls without name faults.** By induction on how deep calls nest. -/
theorem invoke_wellScoped (n : Nat) :
    ∀ {below : List Frame} {Γ : Blocks} {m : Machine} {f : Function} (vs : List Value),
      f.wellScoped → m.WellScoped below Γ →
        (invoke n f vs m).Meets (fun _ m' => m'.WellScoped below Γ) OtherFault := by
  induction n with
  | zero => exact fun _ _ _ => trivial
  | succ n ih =>
    exact fun vs hf h => Function.activate_wellScoped hf (callBy_wellScoped ih) n vs h

/-! ### Runs -/

theorem register_wellScoped {p : Program} (hp : ∀ f ∈ p, f.wellScoped)
    (h : m.WellScoped below Γ) :
    (register p m).Meets (fun _ m' => m'.WellScoped below Γ) OtherFault := by
  induction p generalizing m with
  | nil => exact h
  | cons f rest ih =>
    obtain ⟨hf, hrest⟩ := List.forall_mem_cons.1 hp
    simp only [register]
    split
    · rfl
    · split
      · rfl
      · refine ih hrest ⟨?_, h.frames, h.names⟩
        exact List.forall_mem_append.2 ⟨h.functions, List.forall_mem_singleton.2 hf⟩

/-- A machine that has done nothing knows no names. -/
theorem Machine.wellScoped_new (options : Options) : (Machine.new options).WellScoped [] [[]] :=
  ⟨nofun, rfl, rfl⟩

theorem runProgram_wellScoped {p : Program} (hp : ∀ f ∈ p, f.wellScoped) (fuel : Nat)
    (h : m.WellScoped below Γ) :
    (runProgram fuel p m).Meets (fun _ m' => m'.WellScoped below Γ) OtherFault := by
  refine Action.meets_bind (register_wellScoped hp h) fun _ m₁ h₁ => ?_
  refine Action.meets_bind (Action.function_wellScoped m₁.options.entry h₁) fun f m₂ hf => ?_
  exact Action.meets_bind (invoke_wellScoped fuel [] hf.1 hf.2) fun _ _ h₂ => h₂

/-- **Scoping is static.** If every variable of a program is declared before its use, by the blocks
of the function it stands in, and no block declares a name twice, then no run of the program, with
whatever options and however long, ends with an undefined variable or a duplicate declaration. Types
are of no account. -/
theorem wellScoped_run {p : Program} (hp : ∀ f ∈ p, f.wellScoped) (options : Options) (fuel : Nat)
    (x : String) (console : List String) :
    p.run fuel options ≠ .faulted (.undefinedVariable x) console ∧
      p.run fuel options ≠ .faulted (.duplicateDeclaration x) console := by
  have hrun := runProgram_wellScoped hp fuel (Machine.wellScoped_new options)
  rw [Program.run]
  cases hend : runProgram fuel p (.new options) with
  | done e m => exact ⟨nofun, nofun⟩
  | fault cause m =>
    rw [hend] at hrun
    constructor
    · rintro ⟨⟩
      cases hrun
    · rintro ⟨⟩
      cases hrun
  | outOfFuel => exact ⟨nofun, nofun⟩

/-- Static scoping of a function that declares a variable in every round of a loop, takes the name
of its parameter again in a block and calls itself from there. The run ends with another fault. -/
theorem wellScoped_run_rounds :
    ∃ p : Program,
      p = [⟨.int, "count", [⟨.int, "n"⟩],
            [.init .int "total" (.int 0),
              .loop (.binary (.var "n") .gt (.int 0))
                [.init .int "m" (.step .decrement .before (.var "n")),
                  .branch (.binary (.var "m") .gt (.int 0))
                    [.init .int "n" (.var "m"),
                      .assign "total" (.binary (.var "total") .add (.call "count" [.var "n"]))]
                    [.eval (.step .increment .after (.var "total"))]],
              .ret (.var "total")]⟩,
          ⟨.void, "main", [],
            [.init .int "n" (.call "count" [.int 2]), .assign "n" (.bool true)]⟩] ∧
      (∀ f ∈ p, f.wellScoped) ∧
      (∀ fuel x console, p.run fuel {} ≠ .faulted (.undefinedVariable x) console ∧
        p.run fuel {} ≠ .faulted (.duplicateDeclaration x) console) ∧
      p.run 5 {} = .faulted (.typeMismatch (.unfit (.variable "n") .int .bool)) [] := by
  refine ⟨_, rfl, ?names, @wellScoped_run _ ?names {}, rfl⟩
  decide

end Scriptlet
