/-!
# Scriptlet.Syntax.Operator

**Types and operators.** The words of the language that both tokens and syntax trees speak of: its
five types, its binary operators, and the two steps `++` and `--` with their placement before or
after the operand.
-/

namespace Scriptlet

/-- The types that variables, parameters and results are declared with. -/
inductive Ty where
  | int
  | bool
  | float
  | string
  | void
  deriving Repr, DecidableEq

namespace Ty

/-- The keyword of a type. -/
def text : Ty → String
  | int => "int"
  | bool => "bool"
  | float => "float"
  | string => "string"
  | void => "void"

/-- All types. -/
def all : List Ty := [int, bool, float, string, void]

theorem mem_all (t : Ty) : t ∈ all := by cases t <;> decide

end Ty

/-- The three families of binary operators. -/
inductive OperatorClass where
  | arithmetic
  | comparison
  | logic
  deriving Repr, DecidableEq

/-- The binary operators. All of them share one level of precedence. -/
inductive BinOp where
  | add
  | sub
  | mul
  | div
  | gt
  | ge
  | lt
  | le
  | eq
  | ne
  | and
  | or
  deriving Repr, DecidableEq

namespace BinOp

/-- The spelling of an operator. -/
def symbol : BinOp → String
  | add => "+"
  | sub => "-"
  | mul => "*"
  | div => "/"
  | gt => ">"
  | ge => ">="
  | lt => "<"
  | le => "<="
  | eq => "=="
  | ne => "!="
  | and => "&&"
  | or => "||"

/-- The family that an operator belongs to. -/
def operatorClass : BinOp → OperatorClass
  | add | sub | mul | div => .arithmetic
  | gt | ge | lt | le | eq | ne => .comparison
  | and | or => .logic

/-- All binary operators. -/
def all : List BinOp := [add, sub, mul, div, gt, ge, lt, le, eq, ne, and, or]

theorem mem_all (o : BinOp) : o ∈ all := by cases o <;> decide

end BinOp

/-- A step by one, up or down. -/
inductive Step where
  | increment
  | decrement
  deriving Repr, DecidableEq

namespace Step

/-- The spelling of a step. -/
def symbol : Step → String
  | increment => "++"
  | decrement => "--"

/-- Both steps. -/
def all : List Step := [increment, decrement]

theorem mem_all (s : Step) : s ∈ all := by cases s <;> decide

end Step

/-- Where a step stands: before its operand, giving the new value, or after it, giving the old. -/
inductive Placement where
  | before
  | after
  deriving Repr, DecidableEq

end Scriptlet
