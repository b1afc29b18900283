import Scriptlet.Proofs.Machine.Simulation

/-!
# Scriptlet.Proofs.Machine.Isolation

**Calls are isolated from their callers.** What a call does is fixed by the function, the arguments,
the functions and options of the machine and the number of active calls. The variables of the
callers and the lines printed so far do not matter.

The proof runs the call on two machines side by side. Their stacks differ below the frame of the
call and nowhere else, which every nested call finds in the same way one frame further up.
-/

namespace Scriptlet

namespace Machine

/-- The same lines were printed on the way from `m` to `m₁` as on the way from `m'` to `m₁'`. -/
def PrintSame (m m' m₁ m₁' : Machine) : Prop :=
  ∃ lines, m₁.console = m.console ++ lines ∧ m₁'.console = m'.console ++ lines

theorem PrintSame.refl (m m' : Machine) : PrintSame m m' m m' :=
  ⟨#[], (Array.append_empty ..).symm, (Array.append_empty ..).symm⟩

theorem PrintSame.printLine {m m' m₁ m₁' : Machine} (line : String) (h : PrintSame m m' m₁ m₁') :
    PrintSame m m' (m₁.printLine line) (m₁'.printLine line) := by
  obtain ⟨lines, hlines, hlines'⟩ := h
  refine ⟨lines.push line, ?_, ?_⟩
  · rw [Machine.printLine, hlines, Array.push_append]
  · rw [Machine.printLine, hlines', Array.push_append]

/-- The machines `m` and `m'` are at the same point of a call that the machines of `callers` have
started: they share the frame of the call and have printed the same lines in it. -/
structure SharesCall (callers : Machine × Machine) (m m' : Machine) : Prop where
  function? : ∀ name, m'.function? name = m.function? name
  options : m'.options = m.options
  count : callers.2.frames.length = callers.1.frames.length
  frames : m.frames = m.top :: callers.1.frames
  frames' : m'.frames = m.top :: callers.2.frames
  printed : PrintSame callers.1 callers.2 m m'

namespace SharesCall

variable {callers : Machine × Machine} {m m' m₁ m₁' : Machine}

theorem top_eq (h : SharesCall callers m m') : m'.top = m.top :=
  congrArg (·.headD .toplevel) h.frames'

theorem length_frames (h : SharesCall callers m m') : m'.frames.length = m.frames.length := by
  rw [h.frames, h.frames', List.length_cons, List.length_cons, h.count]

/-- The shared frame may change, as long as both machines change it alike. -/
theorem mapTop (g : Frame → Frame) (h : SharesCall callers m m') :
    SharesCall callers (m.mapTop g) (m'.mapTop g) where
  function? := h.function?
  options := h.options
  count := h.count
  frames := by rw [frames_mapTop, top_mapTop, h.frames, List.tail_cons]
  frames' := by rw [frames_mapTop, top_mapTop, h.top_eq, h.frames', List.tail_cons]
  printed := h.printed

theorem printLine (line : String) (h : SharesCall callers m m') :
    SharesCall callers (m.printLine line) (m'.printLine line) where
  function? := h.function?
  options := h.options
  count := h.count
  frames := h.frames
  frames' := h.frames'
  printed := h.printed.printLine line

/-- A call that starts in the same frame is shared, whatever the frames of its callers. -/
theorem pushFrame (hfunction : ∀ name, m'.function? name = m.function? name)
    (hoptions : m'.options = m.options) (hcount : m'.frames.length = m.frames.length)
    (frame : Frame) : SharesCall (m, m') (m.pushFrame frame) (m'.pushFrame frame) where
  function? := hfunction
  options := hoptions
  count := hcount
  frames := rfl
  frames' := rfl
  printed := .refl m m'

/-- The end of a nested call uncovers the frame that its callers share. -/
theorem popFrame (h : SharesCall callers m m') (h₁ : SharesCall (m, m') m₁ m₁') :
    SharesCall callers m₁.popFrame m₁'.popFrame := by
  have hframes : m₁.popFrame.frames = m.frames := congrArg List.tail h₁.frames
  have hframes' : m₁'.popFrame.frames = m'.frames := congrArg List.tail h₁.frames'
  have htop : m₁.popFrame.top = m.top := congrArg (·.headD .toplevel) hframes
  refine ⟨h₁.function?, h₁.options, h.count, ?frames, ?frames', ?printed⟩
  case frames => rw [hframes, htop, h.frames]
  case frames' => rw [hframes', htop, h.frames']
  case printed =>
    obtain ⟨lines, hlines, hlines'⟩ := h.printed
    obtain ⟨lines₁, hlines₁, hlines₁'⟩ := h₁.printed
    refine ⟨lines ++ lines₁, ?_, ?_⟩
    · exact hlines₁.trans (by rw [hlines, Array.append_assoc])
    · exact hlines₁'.trans (by rw [hlines', Array.append_assoc])

end SharesCall

/-- Two machines that share a call go on with it alike. -/
theorem simulation_sharesCall : Simulation SharesCall fun _ => False where
  actions _ := Action.congruence_matched SharesCall.top_eq SharesCall.mapTop
  printLine := SharesCall.printLine
  function? name h := h.function? name
  depth {_ m m'} h := by rw [m.calls.depth_eq, m'.calls.depth_eq]; exact h.length_frames
  limit h := .inl (by rw [h.options])
  call {_ m m'} h :=
    ⟨(m, m'), .pushFrame h.function? h.options h.length_frames, fun _ _ h₁ =>
      ⟨h₁.top_eq, h.popFrame h₁⟩⟩

end Machine

/-- A call on a machine with the same functions, options and number of frames ends in the same way,
unless the first one is out of fuel. -/
theorem invoke_matched_of_length (f : Function) (args : List Value) {m m' : Machine}
    (hfunction : ∀ name, m'.function? name = m.function? name)
    (hoptions : m'.options = m.options) (hcount : m'.frames.length = m.frames.length)
    (fuel : Nat) :
    (invoke fuel f args m).MatchedBy (Machine.PrintSame m m') (fun _ => False)
      (invoke fuel f args m') := by
  cases fuel with
  | zero => exact trivial
  | succ n =>
    have hdepth : m'.calls.depth = m.calls.depth := by
      rw [m.calls.depth_eq, m'.calls.depth_eq]
      exact hcount
    refine f.activate_matched (S := Machine.SharesCall (m, m')) (.refl m m') hdepth
      (.inl (by rw [hoptions])) (fun _ frame _ => ?_) fun m₁ m₁' h => ⟨h.top_eq, h.printed⟩
    have hR := Machine.simulation_sharesCall
    have hpush := Machine.SharesCall.pushFrame hfunction hoptions hcount frame
    have hcall := hR.callWithin (Nat.le_refl n) (m, m')
    exact hR.execAll hcall (Nat.le_refl n) f.body _ _ hpush

/-- **Isolation of calls.** On two machines with the same function under every name, the same
options and the same number of frames a call ends in the same way, whatever these frames hold and
whatever was printed before: with the same value and the same final frame, with the same fault, or
out of fuel. It prints the same lines in both. -/
theorem invoke_isolated (f : Function) (args : List Value) {m m' : Machine}
    (hfunction : ∀ name, m'.function? name = m.function? name)
    (hoptions : m'.options = m.options) (hcount : m'.frames.length = m.frames.length)
    (fuel : Nat) :
    (invoke fuel f args m).Agree
      (fun m₁ m₁' => ∃ lines, m₁.console = m.console ++ lines ∧ m₁'.console = m'.console ++ lines)
      (invoke fuel f args m') :=
  Outcome.agree_of_matched (invoke_matched_of_length f args hfunction hoptions hcount fuel)
    (invoke_matched_of_length f args (fun name => (hfunction name).symm) hoptions.symm hcount.symm
      fuel)

/-- Isolation of a function that asks for a variable of its caller, on a machine that has such a
variable and on one that has another block open and has printed a line. Both calls print the same
and stop with the same fault in the nested call. -/
theorem invoke_isolated_variable :
    ∃ (f : Function) (m m' m₁ m₁' : Machine) (lines : Array String),
      f = ⟨.int, "f", [⟨.int, "n"⟩],
        [.eval (.call "print" [.var "n"]),
          .branch (.binary (.var "n") .lt (.int 1)) [.ret (.var "x")] [],
          .ret (.call "f" [.binary (.var "n") .sub (.int 1)])]⟩ ∧
      m.top.lookup? "x" = some ⟨.int, .int 7⟩ ∧ m'.top.lookup? "x" = none ∧
      m'.console = #["before"] ∧
      invoke 3 f [.int 1] m = .fault (.undefinedVariable "x") m₁ ∧
      invoke 3 f [.int 1] m' = .fault (.undefinedVariable "x") m₁' ∧
      m₁.console = m.console ++ lines ∧ m₁'.console = m'.console ++ lines := by
  let f : Function :=
    ⟨.int, "f", [⟨.int, "n"⟩],
      [.eval (.call "print" [.var "n"]),
        .branch (.binary (.var "n") .lt (.int 1)) [.ret (.var "x")] [],
        .ret (.call "f" [.binary (.var "n") .sub (.int 1)])]⟩
  let m : Machine :=
    ⟨[f], .ofList [⟨"<toplevel>", [[("x", ⟨.int, .int 7⟩)]]⟩], #[], {}, none⟩
  let m' : Machine := ⟨[f], .ofList [⟨"g", [[], []]⟩], #["before"], {}, none⟩
  obtain ⟨m₁, hrun⟩ : ∃ m₁, invoke 3 f [.int 1] m = .fault (.undefinedVariable "x") m₁ :=
    ⟨_, rfl⟩
  obtain ⟨m₁', hrun'⟩ : ∃ m₁', invoke 3 f [.int 1] m' = .fault (.undefinedVariable "x") m₁' :=
    ⟨_, rfl⟩
  have hagree := @invoke_isolated f [.int 1] m m' (fun _ => rfl) rfl rfl 3
  rw [hrun, hrun'] at hagree
  obtain ⟨-, lines, hlines, hlines'⟩ := hagree
  exact ⟨f, m, m', m₁, m₁', lines, rfl, rfl, rfl, rfl, hrun, hrun', hlines, hlines'⟩

end Scriptlet
