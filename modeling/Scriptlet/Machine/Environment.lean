import Scriptlet.Machine.Basic

/-!
# Scriptlet.Machine.Environment

**Variables of the running call.** Declaring, reading and assigning variables, always in the newest
frame: the variables of a caller are out of reach. Declaring and assigning store only values that
fit the declared type.
-/

namespace Scriptlet.Action

/-- The binding of a variable. -/
def lookup (x : String) : Action Binding := fun m =>
  match m.frames with
  | [] => .fault (.undefinedVariable x) m
  | f :: _ =>
    match f.lookup? x with
    | some b => .done b m
    | none => .fault (.undefinedVariable x) m

/-- Declares a variable in the innermost scope. -/
def declare (x : String) (t : Ty) (v : Value) : Action Unit := fun m =>
  if t = .void then .fault (.typeMismatch (.voidVariable x)) m
  else
    match v.conform (.variable x) t with
    | .error cause => .fault cause m
    | .ok w =>
      match m.top.declare? x ⟨t, w⟩ with
      | some f => .done () (m.mapTop fun _ => f)
      | none => .fault (.duplicateDeclaration x) m

/-- Assigns to the nearest variable of a name. -/
def assign (x : String) (v : Value) : Action Unit := fun m =>
  match m.top.lookup? x with
  | none => .fault (.undefinedVariable x) (m.mapTop id)
  | some b =>
    match v.conform (.variable x) b.type with
    | .error cause => .fault cause (m.mapTop id)
    | .ok w => .done () (m.mapTop (·.set x w))

/-- Runs an action in a block of its own, which is closed again however the action ends. -/
@[inline] def inBlock {α : Type} (body : Action α) : Action α := fun m =>
  match body m.pushScope with
  | .done a m' => .done a m'.popScope
  | .fault cause m' => .fault cause m'.popScope
  | .outOfFuel => .outOfFuel

end Scriptlet.Action
