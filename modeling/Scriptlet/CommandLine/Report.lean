import Scriptlet.CommandLine.Arguments
import Scriptlet.Evaluate
import Scriptlet.Text.Blank

/-!
# Scriptlet.CommandLine.Report

**What a command line shows.** The output of the program as a function of its arguments and of the
files it can read: the text on the two output streams and the exit code. Lines are written as they
are printed and the value of the entry function last; what goes wrong is said on the error stream.
-/

namespace Scriptlet.CommandLine

/-- The output of a process. -/
structure Report where
  code : Nat
  stdout : String
  stderr : String
  deriving Repr, DecidableEq

namespace Report

/-- A report of success. -/
def success (stdout : String) : Report := ⟨0, stdout, ""⟩

/-- A report of a failure, after what was printed before it. -/
def failure (stdout message : String) : Report := ⟨1, stdout, message ++ "\n"⟩

/-- What a value leaves on a line of its own; without a value there is no line. -/
def result : Value → String
  | .void => ""
  | v => v.text ++ "\n"

/-- What is shown of a run that echoes; `none` if it was out of fuel. What was written before a
fault is not taken back. -/
def ofOutcome : Outcome Evaluation → Option Report
  | .done e m => some (success (m.echo.getD "" ++ result e.value))
  | .fault cause m => some (failure (m.echo.getD "") cause.message)
  | .outOfFuel => none

/-- What is shown for a source text. A program runs on a machine that echoes. -/
def ofSource (fuel : Nat) (a : Arguments) (source : String) : Option Report :=
  if Text.isBlankText source then
    some (success (if a.format then "Nothing to parse!\n" else "Nothing to evaluate!\n"))
  else if a.format then
    match Program.format source with
    | .ok text => some (success text)
    | .error e => some (failure "" e.message)
  else
    match Program.parse source with
    | .ok p => ofOutcome (runProgram fuel p (.echoing a.options))
    | .error e => some (failure "" e.message)

/-- The report on a file that cannot be read as text. -/
def unreadable (path : String) : Report :=
  failure ""
    ("Failed to read the input file '" ++ path ++ "'. Perhaps this file does not exist?")

/-- What is shown for a request; `contents` is the text of the file it names, if that is one. -/
def ofRequest (fuel : Nat) (a : Arguments) (contents : Option String) : Option Report :=
  if a.file then
    match contents with
    | some source => ofSource fuel a source
    | none => some (unreadable a.contents)
  else ofSource fuel a a.contents

/-- The report that names the version. -/
def version : Report := success "minic 0.1.0\n"

/-- The report on an invalid command line. -/
def usage : Report :=
  ⟨2, "", "Usage: [-f] [-p] [-e NAME] [--max-call-depth N] [-V] CONTENTS\n"⟩

/-- What is shown for a command line that has been understood; `contents` is the text of the file it
names, if that is one. The environment is taken to ask for no log. Lines of a log would go to the
error stream, where here nothing but the report is. -/
def ofInvocation (fuel : Nat) (contents : Option String) : Invocation → Option Report
  | .request a => ofRequest fuel a contents
  | .version => some version
  | .usage => some usage

end Report

end Scriptlet.CommandLine
