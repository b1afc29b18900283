import Scriptlet.Machine.Call

/-!
# Scriptlet.Machine.Run

**Running a program.** A run adds the functions of a program to the machine and then calls the entry
function without arguments. What a run hands back is a value of its own, `Evaluation`: nothing of
the machine is needed to look at it.
-/

namespace Scriptlet

/-- Adds functions to the machine, up to the first that has the name of a built-in function or of
one that is there already. -/
def register : Program → Action Unit
  | [] => return ()
  | f :: rest => fun m =>
    if Builtin.isName f.name then .fault (.builtinRedefinition f.name) m
    else if (m.function? f.name).isSome then .fault (.functionAlreadyDefined f.name) m
    else register rest { m with functions := m.functions ++ [f] }

/-- The function of a name. -/
def Action.function (name : String) : Action Function := fun m =>
  match m.function? name with
  | some f => .done f m
  | none => .fault (.undefinedFunction name) m

/-- A call by name runs a built-in function, or looks up a function and calls it. -/
theorem callBy_eq (invoke : Function → List Value → Action (Value × Frame)) (name : String)
    (vs : List Value) :
    callBy invoke name vs =
      match Builtin.ofName? name with
      | some b => b.call vs
      | none => Action.function name >>= fun f => invoke f vs >>= fun r => pure r.1 := by
  funext m
  rw [callBy]
  cases Builtin.ofName? name with
  | some b => rfl
  | none =>
    dsimp only
    rw [Action.bind_apply, Action.function]
    cases m.function? name with
    | none => rfl
    | some f =>
      dsimp only
      rw [Action.bind_apply]
      cases invoke f vs m with
      | done r m' => rfl
      | fault cause m' => rfl
      | outOfFuel => rfl

/-- The names of all functions of a machine, sorted. -/
def Machine.functionNames (m : Machine) : List String :=
  (m.functions.map Function.name).mergeSort fun a b => decide (a ≤ b)

/-- The bindings of a scope, sorted by name. -/
def Scope.sorted (s : Scope) : Scope :=
  List.mergeSort s fun a b => decide (a.1 ≤ b.1)

/-- The result of a finished run. -/
structure Evaluation where
  /-- What the entry function returned. -/
  value : Value
  /-- The printed lines. -/
  console : List String
  /-- The names of all functions, sorted. -/
  functions : List String
  /-- The variables of the entry function's outermost scope when it ended, sorted by name. -/
  entryScope : List (String × Value)
  deriving DecidableEq

/-- What a machine shows after its entry function gave `value` and left `frame` behind. -/
def Evaluation.ofRun (value : Value) (frame : Frame) (m : Machine) : Evaluation :=
  { value := value
    console := m.console.toList
    functions := m.functionNames
    entryScope := frame.outermost.sorted.map fun (x, b) => (x, b.value) }

/-- Adds the functions of a program to the machine and calls the entry function. -/
def runProgram (fuel : Nat) (p : Program) : Action Evaluation := do
  register p
  fun m =>
    (do
      let f ← Action.function m.options.entry
      let (value, frame) ← invoke fuel f []
      fun m' => .done (.ofRun value frame m') m' : Action Evaluation) m

end Scriptlet
