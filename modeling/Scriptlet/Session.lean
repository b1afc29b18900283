import Scriptlet.Machine.Run

/-!
# Scriptlet.Session

**Sessions.** A machine can also be driven by hand, one command at a time. Commands reach every
operation on a machine: defining and running functions, single expressions and statements, scopes
and frames, variables, and the options. A command that fails does not end the session; the machine
goes on from where the fault left it.
-/

namespace Scriptlet

/-- A step of a session. -/
inductive Command where
  /-- Adds functions. -/
  | register (p : Program)
  /-- Adds functions and calls the entry function. -/
  | run (p : Program)
  | eval (e : Expr)
  | exec (s : Stmt)
  /-- Executes statements in the current block. -/
  | execAll (ss : List Stmt)
  /-- Executes statements in a block of their own. -/
  | execBlock (ss : List Stmt)
  | pushScope
  | popScope
  /-- Starts a frame with one empty scope. -/
  | pushFrame (function : String)
  | popFrame
  | declare (name : String) (type : Ty) (value : Value)
  | assign (name : String) (value : Value)
  | lookup (name : String)
  /-- Calls a defined function. -/
  | invoke (function : String) (args : List Value)
  /-- Prints values as one line, whatever their number. -/
  | print (args : List Value)
  | setOptions (options : Options)

/-- What a command answers. -/
inductive Reply where
  | nothing
  | value (v : Value)
  | flow (f : Flow)
  | binding (b : Binding)
  /-- The result of a call and the frame it left behind. -/
  | call (value : Value) (frame : Frame)
  | evaluation (e : Evaluation)

/-- Performs a command on a machine. -/
def Command.perform (fuel : Nat) : Command → Action Reply
  | register p => do
    Scriptlet.register p
    return .nothing
  | run p => .evaluation <$> runProgram fuel p
  | eval e => .value <$> e.eval (callWithin fuel)
  | exec s => .flow <$> s.exec (callWithin fuel) fuel
  | execAll ss => .flow <$> Stmt.execAll (callWithin fuel) fuel ss
  | execBlock ss => .flow <$> Action.inBlock (Stmt.execAll (callWithin fuel) fuel ss)
  | pushScope => do
    Action.modify Machine.pushScope
    return .nothing
  | popScope => do
    Action.modify Machine.popScope
    return .nothing
  | pushFrame function => do
    Action.modify (Machine.pushFrame (.fresh function))
    return .nothing
  | popFrame => do
    Action.modify Machine.popFrame
    return .nothing
  | declare x t v => do
    Action.declare x t v
    return .nothing
  | assign x v => do
    Action.assign x v
    return .nothing
  | lookup x => .binding <$> Action.lookup x
  | invoke name args => do
    let f ← Action.function name
    let (value, frame) ← Scriptlet.invoke fuel f args
    return .call value frame
  | print args => .value <$> Builtin.print.run args
  | setOptions options => do
    Action.modify fun m => { m with options := options }
    return .nothing

/-- The machine after a command, whether the command succeeded or not; `none` if it was out of
fuel. -/
def Command.after (fuel : Nat) (c : Command) (m : Machine) : Option Machine :=
  match c.perform fuel m with
  | .done _ m' => some m'
  | .fault _ m' => some m'
  | .outOfFuel => none

/-- The machine after the commands of a session. -/
def sessionAfter (fuel : Nat) : List Command → Machine → Option Machine
  | [], m => some m
  | c :: rest, m => (c.after fuel m).bind (sessionAfter fuel rest)

end Scriptlet
