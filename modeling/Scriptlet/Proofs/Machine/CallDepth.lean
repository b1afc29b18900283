import Scriptlet.Evaluate
import Scriptlet.Proofs.Machine.Simulation

/-!
# Scriptlet.Proofs.Machine.CallDepth

**The limit on nested calls** cuts runs off and does nothing else. A run that ends without reaching
the limit ends in the same way under every higher limit: the two runs differ in their options only,
up to the call that nests too deep for the first.

That no call goes beyond the limit is said about the bodies that a run starts. `invokeWatched` is a
run in which each start of a body is handed to a `watch`, together with the functions that are
active. A watch may put anything in the place of the body. If it does so only beyond the limit, it
goes unnoticed, because no body is started there.
-/

namespace Scriptlet

/-! ### A higher limit -/

namespace Machine

/-- The machine with another limit on nested calls. -/
def withLimit (limit : Nat) (m : Machine) : Machine :=
  { m with options := { m.options with maxCallDepth := limit } }

/-- The machines `m` and `m'` differ only in their limits on nested calls, `d` and `d'`. -/
def LimitsDiffer (d d' : Nat) (m m' : Machine) : Prop :=
  m.options.maxCallDepth = d ∧ m' = m.withLimit d'

/-- A run can be compared with one under a higher limit, up to the fault of the lower one. -/
theorem simulation_limitsDiffer {d d' : Nat} (h : d ≤ d') :
    Simulation (fun _ : Unit => LimitsDiffer d d') fun cause =>
      ∃ limit, cause = .callDepthExceeded limit where
  actions _ := Action.congruence_matched (fun ⟨_, hm'⟩ => by rw [hm']; rfl) fun g ⟨hd, hm'⟩ =>
    ⟨hd, by rw [hm']; rfl⟩
  printLine line := fun ⟨hd, hm'⟩ => ⟨hd, by rw [hm']; rfl⟩
  function? name := fun ⟨_, hm'⟩ => by rw [hm']; rfl
  depth := fun ⟨_, hm'⟩ => by rw [hm']; rfl
  limit := fun ⟨hd, hm'⟩ => by
    subst hm'
    exact .inr ⟨hd ▸ h, fun limit => ⟨limit, rfl⟩⟩
  call := fun ⟨hd, hm'⟩ =>
    ⟨(), fun frame => ⟨hd, by rw [hm']; rfl⟩, fun _ _ ⟨hd₁, hm₁'⟩ =>
      ⟨by rw [hm₁']; rfl, hd₁, by rw [hm₁']; rfl⟩⟩

end Machine

/-- A run is matched by the run under a higher limit and with no less fuel. -/
theorem runProgram_matched_of_limit {d d' fuel fuel' : Nat} (hd : d ≤ d') (hfuel : fuel ≤ fuel')
    (p : Program) :
    (runProgram fuel p).MatchedBy (Machine.LimitsDiffer d d')
      (fun cause => ∃ limit, cause = .callDepthExceeded limit) (runProgram fuel' p) := by
  rw [runProgram_eq_runBy, runProgram_eq_runBy]
  refine runBy_matched (fun f ⟨hm, hm'⟩ => ⟨hm, by rw [hm']; rfl⟩)
    (fun ⟨_, hm'⟩ => by rw [hm']; rfl) (fun ⟨_, hm'⟩ => by rw [hm']; rfl)
    (fun ⟨_, hm'⟩ => by rw [hm']; rfl) (fun f => ?_) p
  exact (Machine.simulation_limitsDiffer hd).invoke hfuel () f []

/-- An answer other than the fault of the limit is the answer under every higher limit. -/
theorem Program.run_of_limit (p : Program) (entry : String) {d d' fuel fuel' : Nat} (hd : d ≤ d')
    (hfuel : fuel ≤ fuel') (hdone : p.run fuel ⟨entry, d⟩ ≠ .outOfFuel)
    (hlimit : ∀ limit console,
      p.run fuel ⟨entry, d⟩ ≠ .faulted (.callDepthExceeded limit) console) :
    p.run fuel' ⟨entry, d'⟩ = p.run fuel ⟨entry, d⟩ := by
  have hnew : Machine.LimitsDiffer d d' (.new ⟨entry, d⟩) (.new ⟨entry, d'⟩) := ⟨rfl, rfl⟩
  have hmatched := runProgram_matched_of_limit hd hfuel p _ _ hnew
  rw [Program.run] at hdone hlimit ⊢
  rw [Program.run]
  cases hrun : runProgram fuel p (.new ⟨entry, d⟩) with
  | done e m =>
    rw [hrun] at hmatched
    obtain ⟨m', hrun', -⟩ := hmatched
    rw [hrun']
  | fault cause m =>
    rw [hrun] at hmatched
    obtain ⟨limit, rfl⟩ | ⟨m', hrun', -, rfl⟩ := hmatched
    · rw [hrun] at hlimit
      exact absurd rfl (hlimit limit _)
    · rw [hrun']
      rfl
  | outOfFuel =>
    rw [hrun] at hdone
    exact absurd rfl hdone

/-! ### Watched runs -/

/-- Given the functions that are active, the newest first, and a body that is about to start, what
is done in its place. -/
abbrev Watch := List Function → Action Flow → Action Flow

/-- Calls a function with a watch on the bodies that are started. -/
def invokeWatched (watch : Watch) :
    Nat → List Function → Function → List Value → Action (Value × Frame)
  | 0, _, _, _ => Action.outOfFuel
  | n + 1, active, f, args =>
    f.activate
      (watch (f :: active)
        (Stmt.execAll (callBy (invokeWatched watch n (f :: active))) n f.body)) args

/-- Runs a program on a new machine with a watch on the bodies that are started. -/
def Program.runWatched (watch : Watch) (fuel : Nat) (options : Options) (p : Program) : RunResult :=
  match runBy (fun f => invokeWatched watch fuel [] f []) p (.new options) with
  | .done e _ => .finished e
  | .fault cause m => .faulted cause m.console.toList
  | .outOfFuel => .outOfFuel

/-- The watch lets every body start as it is. -/
def Watch.idle : Watch :=
  fun _ body => body

theorem invokeWatched_idle (n : Nat) (active : List Function) (f : Function) (args : List Value) :
    invokeWatched .idle n active f args = invoke n f args := by
  induction n generalizing active f args with
  | zero => rfl
  | succ n ih =>
    have hcalls : invokeWatched .idle n (f :: active) = invoke n :=
      funext fun g => funext fun vs => ih (f :: active) g vs
    rw [invokeWatched, hcalls]
    rfl

/-- The watch changes nothing where at most `d` functions are active and the stack has at most
`d + 1` frames. -/
def Watch.Beyond (d : Nat) (watch : Watch) : Prop :=
  ∀ active body m, active.length ≤ d → m.frames.length ≤ d + 1 → watch active body m = body m

theorem Watch.beyond_idle (d : Nat) : Watch.idle.Beyond d :=
  fun _ _ _ _ _ => rfl

namespace Machine

/-- The machine has the limit `d` and a frame for each active function, above the lowest frame. -/
def RunsAt (d : Nat) (active : List Function) (m : Machine) : Prop :=
  m.options.maxCallDepth = d ∧ m.frames.length = active.length + 1

/-- The two machines are the same. -/
def SameAt (d : Nat) (active : List Function) (m m' : Machine) : Prop :=
  m' = m ∧ m.RunsAt d active

theorem congruence_sameAt (d : Nat) (active : List Function) :
    Action.BlockCongruence fun _ x x' => x.MatchedBy (SameAt d active) (fun _ => False) x' :=
  Action.congruence_matched (fun ⟨hm', _⟩ => by rw [hm']) fun g ⟨hm', hd, hcount⟩ =>
    ⟨by rw [hm'], hd, by
      rw [frames_mapTop, List.length_cons, List.length_tail, hcount, Nat.add_sub_cancel]⟩

end Machine

/-- Two watches on bodies beyond the limit see the same call. By induction on the number of nested
calls: a body starts with one more function active and one more frame, and within the limit. -/
theorem invokeWatched_matched {d : Nat} {watch watch' : Watch} (hwatch : watch.Beyond d)
    (hwatch' : watch'.Beyond d) (n : Nat) (active : List Function) (f : Function)
    (args : List Value) :
    (invokeWatched watch n active f args).MatchedBy (Machine.SameAt d active) (fun _ => False)
      (invokeWatched watch' n active f args) := by
  induction n generalizing active f args with
  | zero => exact fun _ _ _ => trivial
  | succ n ih =>
    rintro _ m ⟨rfl, hd, hcount⟩
    refine f.activate_matched (S := Machine.SameAt d (f :: active)) ⟨rfl, hd, hcount⟩ rfl (.inl rfl)
      (fun hlimit frame _ => ?_) ?_
    · rw [m.calls.depth_eq, hd] at hlimit
      have hframes : m.frames.length ≤ d := hlimit
      have hactive : (f :: active).length ≤ d := by rw [List.length_cons, ← hcount]; exact hframes
      have hpush : (m.pushFrame frame).frames.length ≤ d + 1 := Nat.succ_le_succ hframes
      rw [hwatch _ _ _ hactive hpush, hwatch' _ _ _ hactive hpush]
      have hcall := callBy_matched (R := Machine.SameAt d (f :: active))
        (fun line ⟨hm', hm⟩ => ⟨by rw [hm'], hm⟩) (fun name ⟨hm', _⟩ => by rw [hm'])
        (ih (f :: active))
      have hK := Machine.congruence_sameAt d (f :: active)
      have hloops := iterate_matched hK.toCongruence (Nat.le_refl n)
      refine hK.execAll hcall f.body (.inr hloops) _ _ ⟨rfl, hd, ?_⟩
      exact congrArg (· + 1) hcount
    · rintro _ m₁ ⟨rfl, hd₁, hcount₁⟩
      refine ⟨rfl, rfl, hd₁, ?_⟩
      change m₁.frames.tail.length = _
      rw [List.length_tail, hcount₁, List.length_cons, Nat.add_sub_cancel]

/-- A watch on bodies beyond the limit does not change a run. -/
theorem Program.runWatched_eq_run (p : Program) (options : Options) (fuel : Nat) {watch : Watch}
    (hwatch : watch.Beyond options.maxCallDepth) :
    p.runWatched watch fuel options = p.run fuel options := by
  have hmatched {watch watch' : Watch} (hwatch : watch.Beyond options.maxCallDepth)
      (hwatch' : watch'.Beyond options.maxCallDepth) :
      (runBy (fun f => invokeWatched watch fuel [] f []) p).MatchedBy
        (Machine.SameAt options.maxCallDepth []) (fun _ => False)
        (runBy (fun f => invokeWatched watch' fuel [] f []) p) :=
    runBy_matched (fun f ⟨hm', hm⟩ => ⟨by rw [hm'], hm⟩) (fun ⟨hm', _⟩ => by rw [hm'])
      (fun ⟨hm', _⟩ => by rw [hm']) (fun ⟨hm', _⟩ => by rw [hm'])
      (fun f => invokeWatched_matched hwatch hwatch' fuel [] f []) p
  have hnew : Machine.SameAt options.maxCallDepth [] (.new options) (.new options) :=
    ⟨rfl, rfl, rfl⟩
  have hidle := Watch.beyond_idle options.maxCallDepth
  have hagree := Outcome.agree_of_matched (hmatched hidle hwatch _ _ hnew)
    (hmatched hwatch hidle _ _ hnew)
  simp only [invokeWatched_idle] at hagree
  rw [Program.runWatched, Outcome.eq_of_agree hagree fun _ _ h => h.1]
  rfl

/-- **The call depth limit only cuts off.** A run under the limit `d` that has an answer, other than
that the limit was exceeded, has the same answer under every limit `d'` from `d` on: the same value,
console, functions and variables, or the same fault. And no body is started while more than `d`
functions are active or with more than `d + 1` frames on the stack: whatever a watch does there goes
unnoticed. -/
theorem callDepth_cuts_off (p : Program) (entry : String) (d fuel : Nat) :
    (∀ d' fuel', d ≤ d' → fuel ≤ fuel' → p.run fuel ⟨entry, d⟩ ≠ .outOfFuel →
      (∀ limit console, p.run fuel ⟨entry, d⟩ ≠ .faulted (.callDepthExceeded limit) console) →
      p.run fuel' ⟨entry, d'⟩ = p.run fuel ⟨entry, d⟩) ∧
    ∀ watch : Watch,
      (∀ active body m, active.length ≤ d → m.frames.length ≤ d + 1 →
        watch active body m = body m) →
      p.runWatched watch fuel ⟨entry, d⟩ = p.run fuel ⟨entry, d⟩ :=
  ⟨fun _ _ hd hfuel => p.run_of_limit entry hd hfuel, fun _ => p.runWatched_eq_run ⟨entry, d⟩ fuel⟩

/-- The limit at a program that nests exactly three calls, with a watch that lets nothing go on
where a fourth call is active or the stack has a fifth frame. -/
theorem callDepth_cuts_off_countdown :
    ∃ (p : Program) (watch : Watch) (e : Evaluation),
      p = [⟨.int, "down", [⟨.int, "n"⟩],
            [.branch (.binary (.var "n") .eq (.int 0)) [.ret (.int 7)]
              [.ret (.call "down" [.step .decrement .before (.var "n")])]]⟩,
          ⟨.int, "main", [], [.ret (.call "down" [.int 1])]⟩] ∧
      (watch = fun active body m =>
        if active.length ≤ 3 ∧ m.frames.length ≤ 4 then body m else .outOfFuel) ∧
      e.value = .int 7 ∧ p.run 4 ⟨"main", 3⟩ = .finished e ∧
      p.run 9 ⟨"main", 256⟩ = .finished e ∧ p.runWatched watch 4 ⟨"main", 3⟩ = .finished e := by
  let p : Program :=
    [⟨.int, "down", [⟨.int, "n"⟩],
        [.branch (.binary (.var "n") .eq (.int 0)) [.ret (.int 7)]
          [.ret (.call "down" [.step .decrement .before (.var "n")])]]⟩,
      ⟨.int, "main", [], [.ret (.call "down" [.int 1])]⟩]
  let watch : Watch := fun active body m =>
    if active.length ≤ 3 ∧ m.frames.length ≤ 4 then body m else .outOfFuel
  obtain ⟨e, hrun, hvalue⟩ : ∃ e, p.run 4 ⟨"main", 3⟩ = .finished e ∧ e.value = .int 7 :=
    ⟨_, rfl, rfl⟩
  obtain ⟨hhigher, hwatched⟩ := callDepth_cuts_off p "main" 3 4
  refine ⟨p, watch, e, rfl, rfl, hvalue, hrun, ?higher, ?watched⟩
  case higher =>
    rw [← hrun]
    refine hhigher 256 9 (by decide) (by decide) ?_ fun limit console => ?_
    · rw [hrun]
      exact nofun
    · rw [hrun]
      exact nofun
  case watched =>
    rw [← hrun]
    exact hwatched watch fun active body m hactive hframes => if_pos ⟨hactive, hframes⟩

end Scriptlet
