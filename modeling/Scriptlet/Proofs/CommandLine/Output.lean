import Scriptlet.CommandLine.Report
import Scriptlet.Proofs.Machine.Simulation

/-!
# Scriptlet.Proofs.CommandLine.Output

**The output of a process.** The command line runs a program on a machine that echoes, and shows
what went to standard output. The library runs the same program on a machine that does not, and
hands back the lines of the console. A line is written to both places by the same step, however deep
the call that prints it, so the text on standard output is at every moment the text of the console.
This makes the output of a process a function of the library's result, also where a fault ends the
run: what was echoed before it is what the console holds then.
-/

namespace Scriptlet

namespace Machine

/-- The text of lines, each with a line break behind it. -/
def textOfLines (lines : List String) : String :=
  String.join (lines.map (· ++ "\n"))

@[simp] theorem textOfLines_nil : textOfLines [] = "" := rfl

@[simp] theorem textOfLines_append_singleton (lines : List String) (line : String) :
    textOfLines (lines ++ [line]) = textOfLines lines ++ line ++ "\n" := by
  simp [textOfLines, String.join, String.append_assoc]

/-- The machine without its echo. -/
def silent (m : Machine) : Machine :=
  { m with echo := none }

/-- What has been echoed is the text of the console; `echoes` says whether anything is echoed. -/
def EchoesConsole (echoes : Bool) (m : Machine) : Prop :=
  m.echo = if echoes then some (textOfLines m.console.toList) else none

theorem EchoesConsole.printLine {echoes : Bool} {m : Machine} (h : m.EchoesConsole echoes)
    (line : String) : (m.printLine line).EchoesConsole echoes := by
  rw [EchoesConsole] at h
  rw [EchoesConsole, Machine.printLine, h]
  cases echoes with
  | false => rfl
  | true => simp

/-- The machines are the same but for their echo, and what each of them echoes is its console. -/
structure EchoesDiffer (echoes echoes' : Bool) (m m' : Machine) : Prop where
  silent : m'.silent = m.silent
  left : m.EchoesConsole echoes
  right : m'.EchoesConsole echoes'

namespace EchoesDiffer

variable {b b' : Bool} {m m' : Machine}

theorem symm (h : EchoesDiffer b b' m m') : EchoesDiffer b' b m' m :=
  ⟨h.silent.symm, h.right, h.left⟩

theorem functions (h : EchoesDiffer b b' m m') : m'.functions = m.functions :=
  (Machine.mk.inj h.silent).1

theorem calls (h : EchoesDiffer b b' m m') : m'.calls = m.calls :=
  (Machine.mk.inj h.silent).2.1

theorem console (h : EchoesDiffer b b' m m') : m'.console = m.console :=
  (Machine.mk.inj h.silent).2.2.1

theorem options (h : EchoesDiffer b b' m m') : m'.options = m.options :=
  (Machine.mk.inj h.silent).2.2.2.1

/-- What does not print does not touch the echo. -/
theorem map (h : EchoesDiffer b b' m m') (g : Machine → Machine)
    (hsilent : ∀ m, (g m).silent = g m.silent) (hecho : ∀ m, (g m).echo = m.echo)
    (hconsole : ∀ m, (g m).console = m.console) : EchoesDiffer b b' (g m) (g m') where
  silent := by rw [hsilent, hsilent, h.silent]
  left := by rw [EchoesConsole, hecho, hconsole, h.left]
  right := by rw [EchoesConsole, hecho, hconsole, h.right]

theorem printLine (h : EchoesDiffer b b' m m') (line : String) :
    EchoesDiffer b b' (m.printLine line) (m'.printLine line) where
  silent := congrArg (Machine.printLine line) h.silent
  left := h.left.printLine line
  right := h.right.printLine line

end EchoesDiffer

/-- Whether a machine echoes makes no difference to a run but for the echo. -/
theorem simulation_echoesDiffer (b b' : Bool) :
    Simulation (fun (_ : Unit) => EchoesDiffer b b') fun _ => False where
  actions _ := Action.congruence_matched (fun h => congrArg CallStack.top h.calls) fun g h =>
    h.map (mapTop g) (fun _ => rfl) (fun _ => rfl) fun _ => rfl
  printLine line h := h.printLine line
  function? name h := by rw [Machine.function?, h.functions, Machine.function?]
  depth h := by rw [h.calls]
  limit h := .inl (by rw [h.options])
  call h :=
    ⟨(), fun frame => h.map (pushFrame frame) (fun _ => rfl) (fun _ => rfl) fun _ => rfl,
      fun _ _ h' => ⟨congrArg CallStack.top h'.calls,
        h'.map popFrame (fun _ => rfl) (fun _ => rfl) fun _ => rfl⟩⟩

end Machine

/-- **Running with and without an echo.** The run that echoes ends as the other one does. -/
theorem runProgram_echoing (fuel : Nat) (p : Program) (options : Options) :
    (runProgram fuel p (.new options)).Agree (Machine.EchoesDiffer false true)
      (runProgram fuel p (.echoing options)) := by
  have hmatched (b b' : Bool) := runBy_matched (R := Machine.EchoesDiffer b b')
    (fun f h => h.map (fun m => { m with functions := m.functions ++ [f] }) (fun _ => rfl)
      (fun _ => rfl) fun _ => rfl)
    (·.functions) (fun h => congrArg Options.entry h.options) (·.console)
    (fun f => (Machine.simulation_echoesDiffer b b').invoke (Nat.le_refl fuel) () f []) p
  have hnew : Machine.EchoesDiffer false true (.new options) (.echoing options) :=
    ⟨rfl, rfl, rfl⟩
  exact Outcome.agree_of_matched (hmatched false true _ _ hnew)
    (hmatched true false _ _ hnew.symm)

/-- The result of a run, without the machine that it leaves. -/
def RunResult.ofOutcome : Outcome Evaluation → RunResult
  | .done e _ => .finished e
  | .fault cause m => .faulted cause m.console.toList
  | .outOfFuel => .outOfFuel

theorem Program.run_eq (fuel : Nat) (options : Options) (p : Program) :
    p.run fuel options = .ofOutcome (runProgram fuel p (.new options)) := by
  rw [run]
  cases runProgram fuel p (.new options) <;> rfl

/-- **The echo does not show in the result.** So what holds of `Program.run` holds of runs that echo
as well. -/
theorem Program.run_echoing (fuel : Nat) (options : Options) (p : Program) :
    RunResult.ofOutcome (runProgram fuel p (.echoing options)) = p.run fuel options := by
  have hagree := runProgram_echoing fuel p options
  rw [run_eq]
  cases hrun : runProgram fuel p (.new options) <;>
    cases hrun' : runProgram fuel p (.echoing options) <;>
    rw [hrun, hrun'] at hagree <;> try exact hagree.elim
  case done.done =>
    rw [hagree.1]
    rfl
  case fault.fault =>
    obtain ⟨rfl, hm⟩ := hagree
    rw [RunResult.ofOutcome, RunResult.ofOutcome, hm.console]

/-- The result of a run has the lines that its machine has at the end. -/
theorem console_of_runProgram {fuel : Nat} {p : Program} {m m' : Machine} {e : Evaluation}
    (h : runProgram fuel p m = .done e m') : e.console = m'.console.toList := by
  obtain ⟨_, m₁, -, h₁⟩ := Action.bind_eq_done_iff.1 h
  obtain ⟨f, m₂, -, h₂⟩ := Action.bind_eq_done_iff.1 h₁
  obtain ⟨r, m₃, -, h₃⟩ := Action.bind_eq_done_iff.1 h₂
  cases h₃
  rfl

namespace CommandLine

open Machine (textOfLines)

namespace Report

/-- What a process shows of a result of the library: the lines of the console, then the value, if
there is one; or the lines up to a fault, and what went wrong on the error stream. -/
def ofResult : RunResult → Option Report
  | .finished e =>
    some ⟨0, textOfLines e.console ++ if e.value = .void then "" else e.value.text ++ "\n", ""⟩
  | .faulted cause console => some ⟨1, textOfLines console, cause.message ++ "\n"⟩
  | .malformed e => some ⟨1, "", e.message ++ "\n"⟩
  | .outOfFuel => none

theorem result_eq (v : Value) : result v = if v = .void then "" else v.text ++ "\n" := by
  cases v <;> rfl

/-- What is shown of a program that runs with an echo is what the library says of it. -/
theorem ofOutcome_echoing (fuel : Nat) (p : Program) (options : Options) :
    ofOutcome (runProgram fuel p (.echoing options)) = ofResult (p.run fuel options) := by
  have hagree := runProgram_echoing fuel p options
  have hecho {m m' : Machine} (hm : Machine.EchoesDiffer false true m m') :
      m'.echo = some (textOfLines m.console.toList) := by
    rw [hm.right, hm.console]
    rfl
  rw [Program.run]
  cases hrun : runProgram fuel p (.new options) <;>
    cases hrun' : runProgram fuel p (.echoing options) <;>
    rw [hrun, hrun'] at hagree <;> try exact hagree.elim
  case done.done e m e' m' =>
    obtain ⟨rfl, hm⟩ := hagree
    rw [ofOutcome, ofResult, hecho hm, result_eq, console_of_runProgram hrun]
    rfl
  case fault.fault cause m cause' m' =>
    obtain ⟨rfl, hm⟩ := hagree
    rw [ofOutcome, ofResult, hecho hm]
    rfl
  case outOfFuel.outOfFuel => rfl

/-- **The command line shows what the library computes.** Let a request be for a source text that is
not blank, with or without a file that can be read. For the canonical text the
process shows what the library makes of the source. Otherwise its output is fixed by the result of
the library on a new machine, with the entry and the limit that the arguments give: the lines of the
console and then the value, or the lines that the console holds when a fault stops the run. -/
theorem ofInvocation_request {a : Arguments} {contents : Option String} {source : String}
    (hsource : (if a.file then contents else some a.contents) = some source)
    (hblank : Text.isBlankText source = false) (fuel : Nat) :
    ofInvocation fuel contents (.request a) =
      if a.format then
        match Program.format source with
        | .ok text => some ⟨0, text, ""⟩
        | .error e => some ⟨1, "", e.message ++ "\n"⟩
      else ofResult (evaluate fuel a.options source) := by
  have hrequest : ofRequest fuel a contents = ofSource fuel a source := by
    unfold ofRequest
    by_cases hfile : a.file
    · rw [if_pos hfile] at hsource
      rw [if_pos hfile, hsource]
    · rw [if_neg hfile, Option.some.injEq] at hsource
      rw [if_neg hfile, hsource]
  rw [ofInvocation, hrequest, ofSource, if_neg (by simp [hblank])]
  by_cases hformat : a.format
  · rw [if_pos hformat, if_pos hformat]
    cases Program.format source <;> rfl
  · rw [if_neg hformat, if_neg hformat, evaluate]
    cases Program.parse source with
    | ok p => exact ofOutcome_echoing fuel p a.options
    | error e => rfl

/-- A program that prints and then divides by zero, from a file and with another entry. -/
theorem ofInvocation_request_division :
    ofInvocation 9 (some "int go() { print(1); print(1 / 0); return 2; }")
        (.ofArgs ["-fe", "go", "--max-call-depth=3", "prog.mc"]) =
      some ⟨1, "1\n", "Runtime error: Division by zero.\n"⟩ := by
  have hargs : Invocation.ofArgs ["-fe", "go", "--max-call-depth=3", "prog.mc"] =
      .request ⟨true, false, ⟨"go", 3⟩, "prog.mc"⟩ := by decide +kernel
  rw [hargs, ofInvocation_request rfl (by decide)]
  decide +kernel

end Report

end CommandLine

end Scriptlet
