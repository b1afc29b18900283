import Scriptlet.Proofs.Machine.Context
import Scriptlet.Proofs.Machine.Effect
import Scriptlet.Session

/-!
# Scriptlet.Proofs.Machine.Soundness

**Sound machines.** In every machine that a session leads to, every variable of every frame holds a
value of its declared type, which is never `void`. This needs no typed program: what does not fit is
turned away with a fault before it is stored, and a fault leaves a sound machine as well.

The invariant is proved as an effect (`effect_sound`). A callee runs on a stack whose older frames
are not known to be sound, so the effect speaks of the frames above any given part of the stack,
`Machine.SoundAbove`; with nothing below these are all frames.

What the steps of a session keep, and so every machine that a session leads to has, is a
`SessionInvariant`. Soundness is one.
-/

namespace Scriptlet

/-! ### Storing -/

/-- A value that is stored has the declared type. -/
theorem Value.type_of_conform {v w : Value} {slot : Slot} {t : Ty} (h : v.conform slot t = .ok w) :
    w.type = t := by
  rw [conform.eq_def] at h
  split at h
  · cases h
    rfl
  · split at h
    · rename_i htype
      cases h
      exact htype
    · cases h

namespace Function

/-- Parameters that can be declared are not `void`. -/
theorem type_ne_void_of_checkParams {function : String} {ps : List Param} {seen : List String}
    (h : checkParams function seen ps = .ok ()) : ∀ q ∈ ps, q.type ≠ .void := by
  induction ps generalizing seen with
  | nil => exact nofun
  | cons q rest ih =>
    rw [checkParams] at h
    split at h
    · cases h
    · rename_i hvoid
      split at h
      · cases h
      · exact List.forall_mem_cons.2 ⟨hvoid, ih h⟩

/-- Arguments that are bound make sound variables. -/
theorem bindParams_sound {ps : List Param} {vs : List Value} {scope : Scope}
    (hvoid : ∀ q ∈ ps, q.type ≠ .void) (h : bindParams ps vs = .ok scope) : scope.Sound := by
  induction ps generalizing vs scope with
  | nil =>
    cases h
    exact nofun
  | cons q rest ih =>
    obtain ⟨hq, hrest⟩ := List.forall_mem_cons.1 hvoid
    cases vs with
    | nil =>
      cases h
      exact nofun
    | cons v vs =>
      obtain ⟨w, s, hconform, hbind, rfl⟩ := bindParams_cons_eq_ok h
      exact (ih hrest hbind).cons ⟨hq, Value.type_of_conform hconform⟩

/-- A call starts in a sound frame. -/
theorem enter_sound {f : Function} {args : List Value} {frame : Frame}
    (h : f.enter args = .ok frame) : frame.Sound := by
  obtain ⟨hparams, scope, hbind, rfl⟩ := enter_eq_ok h
  have hscope := bindParams_sound (type_ne_void_of_checkParams hparams) hbind
  exact List.forall_mem_cons.2 ⟨hscope, nofun⟩

/-- A result has the declared type, unless the body ended without a `return`. -/
theorem resultOf_eq_ok {f : Function} {flow : Flow} {v : Value} (h : f.resultOf flow = .ok v) :
    flow = .next ∧ v = .void ∨ v.type = f.result := by
  cases flow with
  | next =>
    cases h
    exact .inl ⟨rfl, rfl⟩
  | returned w => exact .inr (Value.type_of_conform h)

end Function

theorem Frame.sound_fresh (function : String) : (Frame.fresh function).Sound :=
  List.forall_mem_cons.2 ⟨nofun, nofun⟩

/-! ### Machines -/

namespace Machine

variable {m m' : Machine} {below : List Frame} {g : Frame → Frame}

/-- Every variable of every frame is sound. -/
def Sound (m : Machine) : Prop :=
  ∀ f ∈ m.frames, f.Sound

/-- The frames above `below` are sound, and the newest frame is one of them. -/
def SoundAbove (below : List Frame) (m : Machine) : Prop :=
  ∃ above, m.frames = above ++ below ∧ (above = [] → below = []) ∧ ∀ f ∈ above, f.Sound

theorem soundAbove_nil : m.SoundAbove [] ↔ m.Sound := by
  constructor
  · rintro ⟨above, hframes, -, hsound⟩
    rwa [Sound, hframes, List.append_nil]
  · exact fun h => ⟨m.frames, (List.append_nil _).symm, fun _ => rfl, h⟩

namespace SoundAbove

theorem top (h : m.SoundAbove below) : m.top.Sound := by
  obtain ⟨above, hframes, hnil, hsound⟩ := h
  change (m.frames.headD .toplevel).Sound
  rw [hframes]
  cases above with
  | nil =>
    rw [hnil rfl]
    exact Frame.sound_fresh _
  | cons f rest => exact hsound f List.mem_cons_self

/-- A sound frame can take the place of the newest one. -/
theorem mapTop (h : m.SoundAbove below) (hg : (g m.top).Sound) :
    (m.mapTop g).SoundAbove below := by
  obtain ⟨above, hframes, hnil, hsound⟩ := h
  refine ⟨g m.top :: above.tail, ?_, nofun, ?_⟩
  · rw [frames_mapTop, hframes, List.cons_append]
    cases above with
    | nil =>
      rw [hnil rfl]
      rfl
    | cons f rest => rfl
  · exact List.forall_mem_cons.2 ⟨hg, fun f hf => hsound f (List.mem_of_mem_tail hf)⟩

theorem pushScope (h : m.SoundAbove below) : m.pushScope.SoundAbove below :=
  h.mapTop h.top.pushScope

theorem popScope (h : m.SoundAbove below) : m.popScope.SoundAbove below :=
  h.mapTop h.top.popScope

/-- A callee is alone above the frames of its callers. -/
theorem pushFrame {frame : Frame} (h : frame.Sound) (m : Machine) :
    (m.pushFrame frame).SoundAbove m.frames :=
  ⟨[frame], rfl, nofun, List.forall_mem_singleton.2 h⟩

theorem popFrame (h : m.SoundAbove below) (h' : m'.SoundAbove m.frames) :
    m'.popFrame.SoundAbove below := by
  obtain ⟨above, hframes, hnil, hsound⟩ := h
  obtain ⟨above', hframes', hnil', hsound'⟩ := h'
  refine ⟨above'.tail ++ above, ?_, fun h => hnil (List.append_eq_nil_iff.1 h).2, fun f hf => ?_⟩
  · change m'.frames.tail = _
    rw [hframes', hframes]
    cases above' with
    | nil =>
      have hempty : above ++ below = [] := hframes ▸ hnil' rfl
      rw [List.tail_nil, List.nil_append, List.nil_append, hempty, List.tail_nil]
    | cons f rest => rw [List.cons_append, List.tail_cons, List.tail_cons, List.append_assoc]
  · rcases List.mem_append.1 hf with hf | hf
    · exact hsound' f (List.mem_of_mem_tail hf)
    · exact hsound f hf

end SoundAbove

/-- **Soundness** as an effect. -/
theorem effect_sound :
    Effect fun _ m m' => ∀ below, m.SoundAbove below → m'.SoundAbove below where
  refl _ _ _ h := h
  trans h h' below hm := h' below (h below hm)
  assign x v m := by
    rw [Action.assign]
    split
    · exact fun _ h => h.mapTop h.top
    · rename_i b hb
      split
      · exact fun _ h => h.mapTop h.top
      · rename_i w hw
        intro below h
        refine h.mapTop (h.top.set fun b' hb' => ?_)
        rw [hb] at hb'
        cases hb'
        exact Value.type_of_conform hw
  declare x t v m := by
    rw [Action.declare]
    split
    · exact fun _ h => h
    · rename_i hvoid
      split
      · exact fun _ h => h
      · rename_i w hw
        split
        · rename_i f hf
          exact fun _ h => h.mapTop (h.top.declare? ⟨hvoid, Value.type_of_conform hw⟩ hf)
        · exact fun _ h => h
  block h below hm := (h below hm.pushScope).popScope
  printLine _ _ _ h := h
  call henter h _ hm := hm.popFrame (h _ (.pushFrame (Function.enter_sound henter) _))

end Machine

/-! ### Calls -/

/-- How a call came to its result: the body was executed in the frame of the call, which is handed
back as it is at the end of the body. -/
theorem invoke_eq_done {fuel : Nat} {f : Function} {args : List Value} {m m' : Machine} {v : Value}
    {frame : Frame} (h : invoke fuel f args m = .done (v, frame) m') :
    ∃ n start flow m₁, fuel = n + 1 ∧ f.enter args = .ok start ∧
      Stmt.execAll (callWithin n) n f.body (m.pushFrame start) = .done flow m₁ ∧
      f.resultOf flow = .ok v ∧ frame = m₁.top := by
  cases fuel with
  | zero => cases h
  | succ n =>
    have hmeets : (invoke (n + 1) f args m).Meets
        (fun r _ => ∃ start flow m₁, f.enter args = .ok start ∧
          Stmt.execAll (callWithin n) n f.body (m.pushFrame start) = .done flow m₁ ∧
          f.resultOf flow = .ok r.1 ∧ r.2 = m₁.top)
        fun _ _ => True := by
      refine f.activate_meets trivial (fun _ _ => trivial) fun start henter => ?_
      cases hrun : Stmt.execAll (callBy (invoke n)) n f.body (m.pushFrame start) with
      | done flow m₁ =>
        exact ⟨fun v hv => ⟨start, flow, m₁, henter, hrun, hv, rfl⟩, fun _ _ => trivial⟩
      | fault => exact trivial
      | outOfFuel => exact trivial
    rw [h] at hmeets
    obtain ⟨start, flow, m₁, hcall⟩ := hmeets
    exact ⟨n, start, flow, m₁, rfl, hcall⟩

/-- The frame that a call hands back is sound, whatever the machine was. -/
theorem invoke_frame_sound {fuel : Nat} {f : Function} {args : List Value} {m m' : Machine}
    {v : Value} {frame : Frame} (h : invoke fuel f args m = .done (v, frame) m') : frame.Sound := by
  obtain ⟨n, start, flow, m₁, -, henter, hrun, -, rfl⟩ := invoke_eq_done h
  have hbody := Machine.effect_sound.execAll (Machine.effect_sound.callWithin n) n f.body
    (m.pushFrame start)
  rw [hrun] at hbody
  exact (hbody m.frames (.pushFrame (Function.enter_sound henter) m)).top

/-! ### Sessions -/

/-- Adding functions leaves the frames alone. -/
theorem register_leaves_frames (p : Program) (m : Machine) :
    (register p m).Leaves fun m' => m'.frames = m.frames := by
  induction p generalizing m with
  | nil => exact rfl
  | cons f rest ih =>
    simp only [register]
    split
    · exact rfl
    · split
      · exact rfl
      · exact ih _

/-- What sessions keep, given a relation `R` for what programs do: new machines have it, and neither
programs nor the other commands lose it. -/
structure SessionInvariant (R : List String → Machine → Machine → Prop) (I : Machine → Prop) :
    Prop where
  effect : Effect R
  kept : ∀ {names m m'}, I m → R names m m' → I m'
  new : ∀ options, I (.new options)
  echo : ∀ written {m}, I m → I { m with echo := written }
  register : ∀ p {m}, I m → (Scriptlet.register p m).Leaves I
  pushScope : ∀ {m}, I m → I m.pushScope
  popScope : ∀ {m}, I m → I m.popScope
  pushFrame : ∀ function {m}, I m → I (m.pushFrame (.fresh function))
  popFrame : ∀ {m}, I m → I m.popFrame
  setOptions : ∀ options {m}, I m → I { m with options := options }

namespace SessionInvariant

variable {R : List String → Machine → Machine → Prop} {I : Machine → Prop} {m : Machine}

theorem leaves {α : Type} {o : Outcome α} {names : List String} (hI : SessionInvariant R I)
    (hm : I m) (h : o.Leaves (R names m)) : o.Leaves I :=
  h.mono fun _ => hI.kept hm

theorem function (hm : I m) (name : String) : (Action.function name m).Leaves I := by
  rw [Action.function]
  split
  · exact hm
  · exact hm

theorem invoke (hI : SessionInvariant R I) (hm : I m) (fuel : Nat) (f : Function)
    (args : List Value) : (Scriptlet.invoke fuel f args m).Leaves I :=
  hI.leaves hm (hI.effect.invoke fuel f args m)

theorem runProgram (hI : SessionInvariant R I) (hm : I m) (fuel : Nat) (p : Program) :
    (Scriptlet.runProgram fuel p m).Leaves I := by
  refine Action.leaves_bind (hI.register p hm) fun _ m₁ h₁ => ?_
  refine Action.leaves_bind (function h₁ _) fun f m₂ h₂ => ?_
  exact Action.leaves_bind (hI.invoke h₂ fuel f []) fun _ _ h₃ => h₃

/-- **The step of a session.** No command loses an invariant, whether it succeeds or fails. -/
theorem perform (hI : SessionInvariant R I) (hm : I m) (fuel : Nat) (c : Command) :
    (c.perform fuel m).Leaves I := by
  have hR := hI.effect
  have hcall := hR.callWithin fuel
  -- most commands answer with what a part of the machine gives
  have hreply {α : Type} {x : Action α} (hx : (x m).Leaves I) (reply : α → Reply) :
      ((x >>= fun a => pure (reply a)) m).Leaves I :=
    Action.leaves_bind hx fun _ _ h => h
  cases c with
  | register p => exact hreply (hI.register p hm) _
  | run p => exact hreply (hI.runProgram hm fuel p) _
  | eval e => exact hreply (hI.leaves hm (hR.eval hcall e m)) _
  | exec s => exact hreply (hI.leaves hm (hR.exec hcall fuel s m)) _
  | execAll ss => exact hreply (hI.leaves hm (hR.execAll hcall fuel ss m)) _
  | execBlock ss =>
    exact hreply (hI.leaves hm (hR.inBlock (hR.execAll hcall fuel ss m.pushScope))) _
  | pushScope => exact hI.pushScope hm
  | popScope => exact hI.popScope hm
  | pushFrame function => exact hI.pushFrame function hm
  | popFrame => exact hI.popFrame hm
  | declare x t v => exact hreply (hI.leaves hm (hR.declare x t v m)) _
  | assign x v => exact hreply (hI.leaves hm (hR.assign x v m)) _
  | lookup x => exact hreply (hI.leaves hm (hR.lookup x m)) _
  | invoke name args =>
    refine Action.leaves_bind (function hm name) fun f m₁ h₁ => ?_
    exact Action.leaves_bind (hI.invoke h₁ fuel f args) fun _ _ h₂ => h₂
  | print args => exact hI.kept hm (hR.printLine _ m)
  | setOptions options => exact hI.setOptions options hm

end SessionInvariant

/-- The machines that sessions lead to: commands follow each other, each with fuel of its own, and
any function can be called, also one that the machine does not know. The echo can be turned on and
off at any time, so a session can also start on a machine that echoes. -/
inductive Machine.Reachable : Machine → Prop
  | new (options : Options) : Reachable (.new options)
  | echo {m : Machine} (written : Option String) : Reachable m →
    Reachable { m with echo := written }
  | command {m m' : Machine} (fuel : Nat) (c : Command) :
    Reachable m → c.after fuel m = some m' → Reachable m'
  | returned {m m' : Machine} (fuel : Nat) (f : Function) (args : List Value)
    (r : Value × Frame) : Reachable m → invoke fuel f args m = .done r m' → Reachable m'
  | faulted {m m' : Machine} (fuel : Nat) (f : Function) (args : List Value) (cause : Fault) :
    Reachable m → invoke fuel f args m = .fault cause m' → Reachable m'

namespace Machine.Reachable

variable {m m' : Machine}

theorem echoing (options : Options) : Reachable (.echoing options) :=
  .echo (some "") (.new options)

theorem session {fuel : Nat} {cs : List Command} (h : m.Reachable)
    (hcs : sessionAfter fuel cs m = some m') : m'.Reachable := by
  induction cs generalizing m with
  | nil =>
    cases hcs
    exact h
  | cons c rest ih =>
    obtain ⟨m₁, hc, hrest⟩ := Option.bind_eq_some_iff.1 hcs
    exact ih (h.command fuel c hc) hrest

/-- **The run of a session** keeps what new machines have and every step keeps. -/
theorem invariant {R : List String → Machine → Machine → Prop} {I : Machine → Prop}
    (hI : SessionInvariant R I) (h : m.Reachable) : I m := by
  induction h with
  | new options => exact hI.new options
  | echo written _ ih => exact hI.echo written ih
  | @command m m' fuel c _ hafter ih =>
    have hstep := hI.perform ih fuel c
    rw [Command.after] at hafter
    cases hrun : c.perform fuel m with
    | done reply m₁ =>
      rw [hrun] at hstep hafter
      cases hafter
      exact hstep
    | fault cause m₁ =>
      rw [hrun] at hstep hafter
      cases hafter
      exact hstep
    | outOfFuel =>
      rw [hrun] at hafter
      cases hafter
  | returned fuel f args r _ hrun ih =>
    have hstep := hI.invoke ih fuel f args
    rw [hrun] at hstep
    exact hstep
  | faulted fuel f args cause _ hrun ih =>
    have hstep := hI.invoke ih fuel f args
    rw [hrun] at hstep
    exact hstep

end Machine.Reachable

/-- **Soundness** is kept by sessions. -/
theorem Machine.sessionInvariant_sound :
    SessionInvariant (fun _ m m' => ∀ below, m.SoundAbove below → m'.SoundAbove below) Sound where
  effect := effect_sound
  kept hm h := soundAbove_nil.1 (h [] (soundAbove_nil.2 hm))
  new _ := List.forall_mem_singleton.2 (Frame.sound_fresh _)
  echo _ _ hm := hm
  register p m hm := (register_leaves_frames p m).mono fun _ hframes f hf => hm f (hframes ▸ hf)
  pushScope hm := soundAbove_nil.1 (soundAbove_nil.2 hm).pushScope
  popScope hm := soundAbove_nil.1 (soundAbove_nil.2 hm).popScope
  pushFrame function _ hm := List.forall_mem_cons.2 ⟨Frame.sound_fresh function, hm⟩
  popFrame hm f hf := hm f (List.mem_of_mem_tail hf)
  setOptions _ _ hm := hm

/-- **Soundness of sessions.** Every variable of a machine that a session leads to holds a value of
its declared type, which is not `void`, and so does every variable of a frame that a call hands
back. The value of a call has the declared result type, or it is `void`; for a function with another
result type it is `void` only where the body ends without reaching a `return`. -/
theorem session_sound :
    (∀ m : Machine, m.Reachable → m.Sound) ∧
    ∀ (fuel : Nat) (f : Function) (args : List Value) (m m' : Machine) (v : Value) (frame : Frame),
      invoke fuel f args m = .done (v, frame) m' →
        frame.Sound ∧ (v.type = f.result ∨ v = .void) ∧
        (f.result ≠ .void → v = .void → ∃ n start m₁, fuel = n + 1 ∧ f.enter args = .ok start ∧
          Stmt.execAll (callWithin n) n f.body (m.pushFrame start) = .done .next m₁) := by
  refine ⟨fun _ h => h.invariant Machine.sessionInvariant_sound,
    fun fuel f args m m' v frame h => ?_⟩
  obtain ⟨n, start, flow, m₁, hfuel, henter, hrun, hresult, -⟩ := invoke_eq_done h
  refine ⟨invoke_frame_sound h, ?type, fun hresult_ne hv => ?void⟩
  case type => exact (Function.resultOf_eq_ok hresult).symm.imp_right And.right
  case void =>
    rcases Function.resultOf_eq_ok hresult with ⟨rfl, -⟩ | htype
    · exact ⟨n, start, m₁, hfuel, henter, hrun⟩
    · rw [hv] at htype
      exact absurd htype.symm hresult_ne

/-- Soundness of a session with an integer where a float is declared and a call that fails, and of a
call after it that ends without a `return`. -/
theorem session_sound_half :
    ∃ (f : Function) (m m' : Machine) (v : Value) (frame : Frame),
      f = ⟨.float, "half", [⟨.float, "x"⟩, ⟨.bool, "done"⟩],
        [.branch (.var "done") []
          [.assign "x" (.int 2), .ret (.binary (.var "x") .sub (.str ""))]]⟩ ∧
      sessionAfter 3
        [.register [f], .pushScope, .declare "y" .float (.int 1),
          .exec (.assign "y" (.call "half" [.var "y", .bool false])),
          .invoke "half" [.int 1]] (.new {}) = some m ∧
      invoke 2 f [.int 4, .bool true] m = .done (v, frame) m' ∧
      m.Sound ∧ frame.Sound ∧ (v.type = .float ∨ v = .void) := by
  let f : Function :=
    ⟨.float, "half", [⟨.float, "x"⟩, ⟨.bool, "done"⟩],
      [.branch (.var "done") []
        [.assign "x" (.int 2), .ret (.binary (.var "x") .sub (.str ""))]]⟩
  let cs : List Command :=
    [.register [f], .pushScope, .declare "y" .float (.int 1),
      .exec (.assign "y" (.call "half" [.var "y", .bool false])), .invoke "half" [.int 1]]
  obtain ⟨m, hm, v, frame, m', hcall⟩ : ∃ m, sessionAfter 3 cs (.new {}) = some m ∧
      ∃ v frame m', invoke 2 f [.int 4, .bool true] m = .done (v, frame) m' :=
    ⟨_, rfl, _, _, _, rfl⟩
  have hsound := session_sound.1 m (.session (.new {}) hm)
  obtain ⟨hframe, htype, -⟩ := session_sound.2 2 f [.int 4, .bool true] m m' v frame hcall
  exact ⟨f, m, m', v, frame, rfl, hm, hcall, hsound, hframe, htype⟩

end Scriptlet
