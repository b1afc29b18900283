import Scriptlet.Grammar.Source
import Scriptlet.Machine.Run

/-!
# Scriptlet.Evaluate

**From source to result.** Reads a text as a program and runs it on a new machine.
-/

namespace Scriptlet

/-- More nested calls and rounds of a loop than any run gets to. -/
def ampleFuel : Nat := 1000000000000000000

/-- How the evaluation of a text ends. -/
inductive RunResult where
  | finished (e : Evaluation)
  /-- A fault, and the lines printed before it. -/
  | faulted (cause : Fault) (console : List String)
  /-- The text is not a program. -/
  | malformed (e : SyntaxError)
  | outOfFuel

/-- Runs a program on a new machine. -/
def Program.run (fuel : Nat) (options : Options) (p : Program) : RunResult :=
  match runProgram fuel p (.new options) with
  | .done e _ => .finished e
  | .fault cause m => .faulted cause m.console.toList
  | .outOfFuel => .outOfFuel

/-- Reads a text as a program and runs it on a new machine. -/
def evaluate (fuel : Nat) (options : Options) (source : String) : RunResult :=
  match Program.parse source with
  | .ok p => p.run fuel options
  | .error e => .malformed e

end Scriptlet
