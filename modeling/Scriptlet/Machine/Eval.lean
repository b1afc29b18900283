import Scriptlet.Machine.Environment
import Scriptlet.Value.Operators

/-!
# Scriptlet.Machine.Eval

**Evaluating expressions.** Operands and arguments are evaluated from left to right, and both
operands of every operator are evaluated, also those of `&&` and `||`.

Design points:

* How a call is answered is a parameter. Evaluation is then a plain recursion on the expression, and
  what is true of the calls an expression makes carries over to the expression.
* A chain of operators leans to the right, so all its operands are evaluated before the first
  operator is applied.
-/

namespace Scriptlet

/-- Answers a call by name with evaluated arguments. -/
abbrev CallHandler := String → List Value → Action Value

/-- Steps a variable up or down. Before its operand a step gives the new value, after it the old. -/
def stepVariable (s : Step) (place : Placement) : Expr → Action Value
  | .var x => do
    let old ← Action.lookup x
    let new ← Action.ofExcept (old.value.step s)
    Action.assign x new
    match place with
    | .before => return new
    | .after => return old.value
  | _ => Action.raise (.typeMismatch (.stepTarget s))

namespace Expr

mutual

/-- Evaluates an expression. -/
def eval (call : CallHandler) : Expr → Action Value
  | int n => return .int n
  | float x => return .float x
  | str s => return .str s
  | bool b => return .bool b
  | var x => do
    let b ← Action.lookup x
    return b.value
  | .call f args => do
    let vs ← evalAll call args
    call f vs
  | binary l op r => do
    let left ← eval call l
    let right ← eval call r
    Action.ofExcept (Value.binary op left right)
  | step s place e => stepVariable s place e

/-- Evaluates expressions from left to right. -/
def evalAll (call : CallHandler) : List Expr → Action (List Value)
  | [] => return []
  | e :: rest => do
    let v ← eval call e
    let vs ← evalAll call rest
    return v :: vs

end

/-- Evaluates a condition. -/
def test (call : CallHandler) (place : TestPlace) (e : Expr) : Action Bool := do
  let v ← e.eval call
  Action.ofExcept (v.toBool place)

end Expr

end Scriptlet
