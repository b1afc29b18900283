import Scriptlet.Value.Basic

/-!
# Scriptlet.Value.Operators

**Operators on values.** The meaning of the binary operators and of the steps `++` and `--`.

Design points:

* Integer arithmetic is exact: the result is computed in `Int` and is a fault if it leaves the range
  of 64 bits. Nothing wraps around.
* A comparison first finds out how its operands are ordered and then asks the operator which
  orderings it accepts. Floats may be unordered, which only `!=` accepts.
* Each of the three families accepts any operator and rejects those of the other families itself, so
  the order of the checks is part of the definition: the operands are looked at before the operator.
-/

namespace Scriptlet

namespace Value

/-! ### Arithmetic -/

/-- The integer value of an exact result, if it is in range. -/
def ofExact (n : Int) : Except Fault Value :=
  match Decimal.int64? n with
  | some k => .ok (int k)
  | none => .error .overflow

/-- Arithmetic on two integers. Division goes toward zero. -/
def intArithmetic (op : BinOp) (a b : Int64) : Except Fault Value :=
  match op with
  | .add => ofExact (a.toInt + b.toInt)
  | .sub => ofExact (a.toInt - b.toInt)
  | .mul => ofExact (a.toInt * b.toInt)
  | .div => if b = 0 then .error .divisionByZero else ofExact (a.toInt.tdiv b.toInt)
  | op => .error (.typeMismatch (.notArithmetic op))

/-- Arithmetic on two floats. Only a zero divisor, of either sign, is a fault. -/
def floatArithmetic (op : BinOp) (x y : Float) : Except Fault Value :=
  match op with
  | .add => .ok (float (x + y))
  | .sub => .ok (float (x - y))
  | .mul => .ok (float (x * y))
  | .div => if Decimal.sameNumber y 0.0 then .error .divisionByZero else .ok (float (x / y))
  | op => .error (.typeMismatch (.notArithmetic op))

/-- Arithmetic: on integers, on floats if an operand is one, and `+` on strings. -/
def arithmetic (op : BinOp) : Value → Value → Except Fault Value
  | int a, int b => intArithmetic op a b
  | int a, float y => floatArithmetic op (promote a) y
  | float x, int b => floatArithmetic op x (promote b)
  | float x, float y => floatArithmetic op x y
  | str s, str t =>
    if op = .add then .ok (str (s ++ t))
    else .error (.typeMismatch (.operands op .string .string))
  | l, r => .error (.typeMismatch (.operands op l.type r.type))

/-! ### Comparison -/

/-- Whether a comparison holds of operands with the given ordering; `none` stands for operands that
are not ordered. -/
def accepts (op : BinOp) : Option Ordering → Bool
  | none => op = .ne
  | some o =>
    match op with
    | .gt => o.isGT
    | .ge => o.isGE
    | .lt => o.isLT
    | .le => o.isLE
    | .eq => o.isEq
    | .ne => o.isNe
    | _ => false

/-- Comparison: of numbers, of strings by their characters, and of booleans for equality only. -/
def comparison (op : BinOp) : Value → Value → Except Fault Value
  | int a, int b => .ok (bool (accepts op (some (compare a.toInt b.toInt))))
  | int a, float y => .ok (bool (accepts op (Decimal.order? (promote a) y)))
  | float x, int b => .ok (bool (accepts op (Decimal.order? x (promote b))))
  | float x, float y => .ok (bool (accepts op (Decimal.order? x y)))
  | str s, str t => .ok (bool (accepts op (some (compare s t))))
  | bool a, bool b =>
    if op = .eq ∨ op = .ne then .ok (bool (accepts op (some (compare a b))))
    else .error (.typeMismatch (.incomparable op .bool .bool))
  | l, r => .error (.typeMismatch (.incomparable op l.type r.type))

/-! ### Logic -/

/-- Logic on two booleans; the left operand is checked first. -/
def logic (op : BinOp) (l r : Value) : Except Fault Value := do
  let a ← l.toBool (.leftOperand op)
  let b ← r.toBool (.rightOperand op)
  match op with
  | .and => .ok (bool (a && b))
  | .or => .ok (bool (a || b))
  | op => .error (.typeMismatch (.notLogical op))

/-! ### All operators -/

/-- The value of a binary operation. -/
def binary (op : BinOp) (l r : Value) : Except Fault Value :=
  match op.operatorClass with
  | .arithmetic => arithmetic op l r
  | .comparison => comparison op l r
  | .logic => logic op l r

/-- The value one step further up or down. -/
def step (s : Step) : Value → Except Fault Value
  | int n =>
    match s with
    | .increment => ofExact (n.toInt + 1)
    | .decrement => ofExact (n.toInt - 1)
  | float x =>
    match s with
    | .increment => .ok (float (x + 1.0))
    | .decrement => .ok (float (x - 1.0))
  | v => .error (.typeMismatch (.unsteppable s v.type))

end Value

end Scriptlet
