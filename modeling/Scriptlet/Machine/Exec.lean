import Scriptlet.Machine.Eval

/-!
# Scriptlet.Machine.Exec

**Executing statements.** A statement ends in one of two ways: the next one follows, or a `return`
was reached and its value passes through all open blocks and loops. The branches of a choice and the
body of a loop run in a block of their own, a new one for each round.

`bound` limits the rounds of every loop; a loop that would need more is out of fuel.
-/

namespace Scriptlet

/-- How control leaves a statement. -/
inductive Flow where
  | next
  | returned (value : Value)
  deriving DecidableEq

/-- Repeats a body as long as a test holds and no `return` is reached, for fewer than the given
number of tests. -/
def iterate (test : Action Bool) (body : Action Flow) : Nat → Action Flow
  | 0 => Action.outOfFuel
  | n + 1 => do
    if ← test then
      match ← body with
      | .next => iterate test body n
      | .returned v => return .returned v
    else return .next

namespace Stmt

mutual

/-- Executes a statement in the current block. -/
def exec (call : CallHandler) (bound : Nat) : Stmt → Action Flow
  | init t x e => do
    let v ← e.eval call
    Action.declare x t v
    return .next
  | declare t x => do
    let v ← Action.ofExcept (Value.initial t)
    Action.declare x t v
    return .next
  | assign x e => do
    let _ ← Action.lookup x
    let v ← e.eval call
    Action.assign x v
    return .next
  | eval e => do
    let _ ← e.eval call
    return .next
  | branch c yes no => do
    if ← c.test call .ifCondition then Action.inBlock (execAll call bound yes)
    else Action.inBlock (execAll call bound no)
  | loop c body =>
    iterate (c.test call .whileCondition) (Action.inBlock (execAll call bound body)) bound
  | ret e => do
    let v ← e.eval call
    return .returned v

/-- Executes statements in order in the current block, up to the first `return`. -/
def execAll (call : CallHandler) (bound : Nat) : List Stmt → Action Flow
  | [] => return .next
  | s :: rest => do
    match ← s.exec call bound with
    | .next => execAll call bound rest
    | .returned v => return .returned v

end

end Stmt

end Scriptlet
