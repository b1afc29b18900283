import Scriptlet.CommandLine.Report

/-!
# Scriptlet.Main

**The program.** Reads the arguments and the file they name, and writes the report.
-/

namespace Scriptlet.CommandLine

/-- The text of a file, or `none` if it cannot be read as text. -/
def readText (path : String) : IO (Option String) := do
  try
    let bytes ← IO.FS.readBinFile path
    return String.fromUTF8? bytes
  catch _ => return none

/-- The report on a command line. -/
def reportOn (args : List String) : IO (Option Report) := do
  let invocation := Invocation.ofArgs args
  let contents ← match invocation.path? with
    | some path => readText path
    | none => pure none
  return Report.ofInvocation ampleFuel contents invocation

end Scriptlet.CommandLine

/-- Runs the command line. -/
def main (args : List String) : IO UInt32 := do
  match ← Scriptlet.CommandLine.reportOn args with
  | none => return 1
  | some report =>
    IO.print report.stdout
    IO.eprint report.stderr
    return report.code.toUInt32
