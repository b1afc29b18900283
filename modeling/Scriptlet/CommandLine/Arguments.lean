import Scriptlet.Decimal.Numeral
import Scriptlet.Machine.Basic

/-!
# Scriptlet.CommandLine.Arguments

**Command line arguments.** The command line takes one positional argument, the program or the path
of a file that holds it, and these options in any order:

* `-f`, `--file`: the positional argument is a path;
* `-p`, `--parse`: show the canonical text instead of running the program;
* `-e NAME`, `--entry NAME`: the function to run;
* `--max-call-depth N`: the number of calls that may be active at once;
* `-V`, `--version`: show the version.

Arguments are read from left to right, and the first one that is wrong, or that asks for the
version, decides. Short options can be written together, a value can be attached to its option or
follow it, and `--` ends the options. A value that starts with a dash, other than the dash alone,
must be attached.
-/

namespace Scriptlet.CommandLine

/-- What the arguments ask for. -/
structure Arguments where
  /-- Whether `contents` is the path of a file. -/
  file : Bool
  /-- Whether to show the canonical text instead of running the program. -/
  format : Bool
  options : Options
  /-- The program, or the path of a file that holds it. -/
  contents : String
  deriving Repr, DecidableEq

/-- How a command line is to be understood. -/
inductive Invocation where
  | request (a : Arguments)
  | version
  /-- The arguments are not a valid command line. -/
  | usage
  deriving Repr, DecidableEq

/-- The options that take a value. -/
inductive Setting where
  | entry
  | maxCallDepth
  deriving Repr, DecidableEq

/-- The arguments read so far. Nothing may be given twice. -/
structure Draft where
  file : Bool := false
  format : Bool := false
  entry : Option String := none
  maxCallDepth : Option Nat := none
  contents : Option String := none
  deriving Repr, DecidableEq

/-- A limit: a numeral without a minus, below `2 ^ 64`. -/
def readLimit? (s : String) : Option Nat :=
  match Decimal.readNat? (if s.startsWith "+" then s.toList.tail else s.toList) with
  | some n => if n ≤ 18446744073709551615 then some n else none
  | none => none

namespace Draft

/-- Sets the switch for files. -/
def setFile? (d : Draft) : Option Draft :=
  if d.file then none else some { d with file := true }

/-- Sets the switch for the canonical text. -/
def setFormat? (d : Draft) : Option Draft :=
  if d.format then none else some { d with format := true }

/-- Gives a value to a setting that has none yet. -/
def set? (d : Draft) (s : Setting) (value : String) : Option Draft :=
  match s with
  | .entry => if d.entry.isSome then none else some { d with entry := some value }
  | .maxCallDepth =>
    if d.maxCallDepth.isSome then none
    else (readLimit? value).map fun n => { d with maxCallDepth := some n }

/-- Takes the positional argument. -/
def setContents? (d : Draft) (value : String) : Option Draft :=
  if d.contents.isSome then none else some { d with contents := some value }

/-- The arguments of a complete draft. -/
def finish (d : Draft) : Invocation :=
  match d.contents with
  | none => .usage
  | some contents =>
    let options : Options := {}
    .request
      { file := d.file
        format := d.format
        options :=
          { entry := d.entry.getD options.entry
            maxCallDepth := d.maxCallDepth.getD options.maxCallDepth }
        contents := contents }

end Draft

/-- What is known after one more argument. -/
inductive Progress where
  /-- The draft, and the setting whose value is to follow. -/
  | more (d : Draft) (pending : Option Setting)
  | version
  | usage

/-- Goes on with a draft, if there is one. -/
def Progress.ofDraft? : Option Draft → Progress
  | some d => .more d none
  | none => .usage

/-- Reads short options that are written together. The rest of the argument after one that takes a
value is the value, with or without `=` before it. -/
def readShort (d : Draft) : List Char → Progress
  | [] => .more d none
  | c :: rest =>
    if c = 'V' then .version
    else if c = 'f' then
      match d.setFile? with
      | some d => readShort d rest
      | none => .usage
    else if c = 'p' then
      match d.setFormat? with
      | some d => readShort d rest
      | none => .usage
    else if c = 'e' then
      match rest with
      | [] => .more d (some .entry)
      | '=' :: value => .ofDraft? (d.set? .entry (String.ofList value))
      | value => .ofDraft? (d.set? .entry (String.ofList value))
    else .usage

/-- Reads a long option: its name, and the value attached to it. -/
def readLong (d : Draft) (name : String) (value : Option String) : Progress :=
  match name, value with
  | "file", none => .ofDraft? d.setFile?
  | "parse", none => .ofDraft? d.setFormat?
  | "version", none => .version
  | "entry", some v => .ofDraft? (d.set? .entry v)
  | "entry", none => .more d (some .entry)
  | "max-call-depth", some v => .ofDraft? (d.set? .maxCallDepth v)
  | "max-call-depth", none => .more d (some .maxCallDepth)
  | _, _ => .usage

/-- Splits a long option at its first `=`. -/
def splitLong (cs : List Char) : String × Option String :=
  let name := String.ofList (cs.takeWhile (· != '='))
  match cs.dropWhile (· != '=') with
  | [] => (name, none)
  | _ :: value => (name, some (String.ofList value))

/-- Reads one argument before the options have ended. A setting that waits for its value takes any
argument that is not an option, and nothing else may come between. -/
def readArgument (d : Draft) (pending : Option Setting) (arg : String) : Progress :=
  match arg.toList, pending with
  | '-' :: '-' :: long, none =>
    let (name, value) := splitLong long
    readLong d name value
  | '-' :: c :: short, none => readShort d (c :: short)
  | '-' :: _ :: _, some _ => .usage
  | _, some s => .ofDraft? (d.set? s arg)
  | _, none => .ofDraft? (d.setContents? arg)

/-- Reads the arguments after `--`, which are all positional. -/
def readPositional (d : Draft) : List String → Invocation
  | [] => d.finish
  | arg :: rest =>
    match d.setContents? arg with
    | some d => readPositional d rest
    | none => .usage

/-- Reads the arguments that are left. -/
def readArguments (d : Draft) (pending : Option Setting) : List String → Invocation
  | [] => if pending.isSome then .usage else d.finish
  | arg :: rest =>
    if arg = "--" then if pending.isSome then .usage else readPositional d rest
    else
      match readArgument d pending arg with
      | .more d pending => readArguments d pending rest
      | .version => .version
      | .usage => .usage

/-- Reads a command line. -/
def Invocation.ofArgs (args : List String) : Invocation :=
  readArguments {} none args

/-- The path of the file that is to be read for an invocation. -/
def Invocation.path? : Invocation → Option String
  | .request a => if a.file then some a.contents else none
  | .version | .usage => none

end Scriptlet.CommandLine
