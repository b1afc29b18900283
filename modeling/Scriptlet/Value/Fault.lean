import Scriptlet.Syntax.Operator

/-!
# Scriptlet.Value.Fault

**Faults.** What can go wrong while a program runs. A fault is a cause, not a text: each constructor
names the condition and carries what the condition is about, and `Fault.message` is the one place
where causes are worded.
-/

namespace Scriptlet

/-- Something with a declared type that a value is to be stored in. -/
inductive Slot where
  /-- A variable or parameter. -/
  | variable (name : String)
  /-- The result of a function. -/
  | result (function : String)
  deriving Repr, DecidableEq

/-- How messages speak of a slot. -/
def Slot.text : Slot → String
  | .variable name => name
  | .result function => "return value of " ++ function

/-- A place where only a boolean will do. -/
inductive TestPlace where
  | ifCondition
  | whileCondition
  | leftOperand (op : BinOp)
  | rightOperand (op : BinOp)
  /-- Any other place, by the name that a message gives it. -/
  | named (name : String)
  deriving Repr, DecidableEq

/-- How messages speak of a place. -/
def TestPlace.text : TestPlace → String
  | .ifCondition => "if condition"
  | .whileCondition => "while condition"
  | .leftOperand op => "left operand of " ++ op.symbol
  | .rightOperand op => "right operand of " ++ op.symbol
  | .named name => name

/-- The ways in which a value or a declaration can have the wrong type. -/
inductive Mismatch where
  /-- No value can stand for a missing initial value of type `void`. -/
  | noDefault
  | voidVariable (name : String)
  | voidParameter (parameter function : String)
  | repeatedParameter (parameter function : String)
  /-- A value does not fit the declared type of its slot. -/
  | unfit (slot : Slot) (declared found : Ty)
  | notBool (place : TestPlace) (found : Ty)
  | notNumber (found : Ty)
  | operands (op : BinOp) (left right : Ty)
  | incomparable (op : BinOp) (left right : Ty)
  | notArithmetic (op : BinOp)
  | notLogical (op : BinOp)
  | unsteppable (step : Step) (found : Ty)
  /-- A step was applied to something other than a variable. -/
  | stepTarget (step : Step)
  deriving Repr, DecidableEq

/-- The wording of a mismatch. -/
def Mismatch.message : Mismatch → String
  | .noDefault => "variables cannot have type void"
  | .voidVariable name => "variable " ++ name ++ " cannot have type void"
  | .voidParameter p f => "parameter " ++ p ++ " of " ++ f ++ " cannot have type void"
  | .repeatedParameter p f => "parameter " ++ p ++ " of " ++ f ++ " is declared twice"
  | .unfit slot declared found =>
    slot.text ++ " is declared " ++ declared.text ++ " but got " ++ found.text
  | .notBool place found => place.text ++ " must be bool, found " ++ found.text
  | .notNumber found => "expected a number, found " ++ found.text
  | .operands op left right =>
    "cannot apply " ++ op.symbol ++ " to " ++ left.text ++ " and " ++ right.text
  | .incomparable op left right =>
    "cannot compare " ++ left.text ++ " " ++ op.symbol ++ " " ++ right.text
  | .notArithmetic op => op.symbol ++ " is not arithmetic"
  | .notLogical op => op.symbol ++ " is not a logical operator"
  | .unsteppable step found => "cannot apply " ++ step.symbol ++ " to " ++ found.text
  | .stepTarget step => "operand of " ++ step.symbol ++ " must be a variable"

/-- The causes that end a run. -/
inductive Fault where
  | undefinedVariable (name : String)
  | undefinedFunction (name : String)
  /-- A second declaration of a name in one scope. -/
  | duplicateDeclaration (name : String)
  | typeMismatch (why : Mismatch)
  | divisionByZero
  | functionAlreadyDefined (name : String)
  /-- A definition with the name of a built-in function. -/
  | builtinRedefinition (name : String)
  | argumentCount (function : String) (expected found : Nat)
  /-- An integer result outside the range of 64 bits. -/
  | overflow
  | callDepthExceeded (limit : Nat)
  deriving Repr, DecidableEq

/-- The cause of a fault, in words. -/
def Fault.reason : Fault → String
  | .undefinedVariable name => "Undefined variable '" ++ name ++ "'"
  | .undefinedFunction name => "Undefined function '" ++ name ++ "'"
  | .duplicateDeclaration name =>
    "Variable '" ++ name ++ "' is already declared in this scope"
  | .typeMismatch why => "Type mismatch: " ++ why.message
  | .divisionByZero => "Division by zero"
  | .functionAlreadyDefined name => "Function '" ++ name ++ "' is already defined"
  | .builtinRedefinition name => "Cannot redefine built-in function '" ++ name ++ "'"
  | .argumentCount function expected found =>
    "Function '" ++ function ++ "' takes " ++ toString expected ++ " argument(s) but " ++
      toString found ++ " were supplied"
  | .overflow => "Integer overflow while trying to compute result"
  | .callDepthExceeded limit => "Call depth exceeded the limit of " ++ toString limit

/-- The message that reports a fault. -/
def Fault.message (f : Fault) : String :=
  "Runtime error: " ++ f.reason ++ "."

end Scriptlet
