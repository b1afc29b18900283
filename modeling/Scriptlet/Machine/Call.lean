import Scriptlet.Machine.Exec

/-!
# Scriptlet.Machine.Call

**Calls.** A call runs the body of a function in a new frame that holds the arguments. The frame is
removed again however the body ends, and handed back with the result. Built-in functions come before
defined ones, but no definition can take the name of a built-in function.

`invoke n` answers calls nested to less than `n`, with loops of less than `n` rounds. Each nested
call has one less, so the recursion is on that number. A machine limits nested calls itself, by
`Options.maxCallDepth`; a program without loops ends within any number above that limit.
-/

namespace Scriptlet

/-! ### Built-in functions -/

/-- The functions that need no definition. -/
inductive Builtin where
  | print
  deriving Repr, DecidableEq

namespace Builtin

/-- The name of a built-in function. -/
def name : Builtin → String
  | print => "print"

/-- The number of arguments of a built-in function. -/
def arity : Builtin → Nat
  | print => 1

/-- All built-in functions. -/
def all : List Builtin := [print]

/-- The built-in function of a name. -/
def ofName? (s : String) : Option Builtin :=
  all.find? (·.name = s)

/-- Whether a name belongs to a built-in function. -/
def isName (s : String) : Bool :=
  (ofName? s).isSome

/-- Runs a built-in function. Printing writes the texts of its arguments as one line. -/
def run : Builtin → List Value → Action Value
  | print, args => do
    Action.modify (·.printLine (String.intercalate " " (args.map Value.text)))
    return .void

/-- Runs a built-in function if the number of arguments is right. -/
def call (b : Builtin) (args : List Value) : Action Value :=
  if args.length = b.arity then b.run args
  else Action.raise (.argumentCount b.name b.arity args.length)

end Builtin

/-! ### Defined functions -/

namespace Function

/-- The first parameter that cannot be declared, after those named in `seen`. -/
def checkParams (function : String) : List String → List Param → Except Fault Unit
  | _, [] => .ok ()
  | seen, p :: rest =>
    if p.type = .void then .error (.typeMismatch (.voidParameter p.name function))
    else if p.name ∈ seen then .error (.typeMismatch (.repeatedParameter p.name function))
    else checkParams function (p.name :: seen) rest

/-- Binds parameters to the arguments, converted to the declared types. -/
def bindParams : List Param → List Value → Except Fault Scope
  | p :: ps, v :: vs => do
    let w ← v.conform (.variable p.name) p.type
    let rest ← bindParams ps vs
    return (p.name, ⟨p.type, w⟩) :: rest
  | _, _ => .ok []

/-- The frame in which a function's body starts. -/
def enter (f : Function) (args : List Value) : Except Fault Frame := do
  if args.length ≠ f.params.length then
    throw (.argumentCount f.name f.params.length args.length)
  checkParams f.name [] f.params
  let scope ← bindParams f.params args
  return ⟨f.name, [scope]⟩

/-- The result of a function whose body has ended. -/
def resultOf (f : Function) : Flow → Except Fault Value
  | .next => .ok .void
  | .returned v => v.conform (.result f.name) f.result

/-- Removes the frame of a call whose body has ended and gives the result with that frame. -/
def leave (f : Function) : Outcome Flow → Outcome (Value × Frame)
  | .done flow m =>
    match f.resultOf flow with
    | .ok v => .done (v, m.top) m.popFrame
    | .error cause => .fault cause m.popFrame
  | .fault cause m => .fault cause m.popFrame
  | .outOfFuel => .outOfFuel

/-- Calls a function, given how its body is executed. -/
def activate (f : Function) (body : Action Flow) (args : List Value) : Action (Value × Frame) :=
  fun m =>
    if m.options.maxCallDepth < m.calls.depth then
      .fault (.callDepthExceeded m.options.maxCallDepth) m
    else
      match f.enter args with
      | .ok frame => f.leave (body (m.pushFrame frame))
      | .error cause => .fault cause m

end Function

/-- Answers calls by name, given how defined functions are called. -/
def callBy (invoke : Function → List Value → Action (Value × Frame)) : CallHandler :=
  fun name args m =>
    match Builtin.ofName? name with
    | some b => b.call args m
    | none =>
      match m.function? name with
      | none => .fault (.undefinedFunction name) m
      | some f =>
        match invoke f args m with
        | .done r m' => .done r.1 m'
        | .fault cause m' => .fault cause m'
        | .outOfFuel => .outOfFuel

/-- Calls a function; calls nest, and loops repeat, less than the given number of times. -/
def invoke : Nat → Function → List Value → Action (Value × Frame)
  | 0, _, _ => Action.outOfFuel
  | n + 1, f, args => f.activate (Stmt.execAll (callBy (invoke n)) n f.body) args

/-- Answers calls that nest to less than the given number. -/
def callWithin (fuel : Nat) : CallHandler :=
  callBy (invoke fuel)

end Scriptlet
