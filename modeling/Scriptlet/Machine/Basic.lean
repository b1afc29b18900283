import Scriptlet.Machine.CallStack
import Scriptlet.Syntax.Basic

/-!
# Scriptlet.Machine.Basic

**The machine.** The state that a run works on: the functions known by name, the stack of the active
calls, the lines printed so far and the options. A machine may echo: then each line also goes to
standard output at the moment it is printed, and the machine keeps the text written there.

An `Action` is a computation on a machine. It has three kinds of outcome: it is done with a value,
it stops with a fault, or its bound on loops and calls is used up. A fault keeps the machine as it
was left, because what was printed and bound before the fault remains visible. Running out of bound
is no answer at all, so it keeps nothing.
-/

namespace Scriptlet

/-- The settings of a run. -/
structure Options where
  /-- The function that a run starts with. -/
  entry : String := "main"
  /-- The number of calls that may be active at once. -/
  maxCallDepth : Nat := 256
  deriving Repr, DecidableEq

/-- The state of a run. -/
structure Machine where
  functions : List Function
  /-- The active calls. -/
  calls : CallStack
  /-- The printed lines, the oldest first. -/
  console : Array String
  options : Options
  /-- The text written to standard output; `none` if printed lines are not echoed. -/
  echo : Option String

namespace Machine

/-- A machine that has done nothing yet, and does not echo. -/
def new (options : Options) : Machine :=
  ⟨[], .ofList [.toplevel], #[], options, none⟩

/-- A machine that has done nothing yet, and echoes. -/
def echoing (options : Options) : Machine :=
  { new options with echo := some "" }

/-- The frames of the active calls, the newest first. -/
def frames (m : Machine) : List Frame :=
  m.calls.frames

/-- The newest frame; where there is none, a toplevel frame stands in. -/
def top (m : Machine) : Frame :=
  m.calls.top

/-- Replaces the newest frame. -/
@[inline] def mapTop (g : Frame → Frame) (m : Machine) : Machine :=
  { m with calls := m.calls.mapTop g }

theorem frames_mapTop (g : Frame → Frame) (m : Machine) :
    (m.mapTop g).frames = g m.top :: m.frames.tail :=
  CallStack.frames_mapTop g m.calls

theorem top_mapTop (g : Frame → Frame) (m : Machine) : (m.mapTop g).top = g m.top := by
  change (m.mapTop g).frames.headD .toplevel = g m.top
  rw [frames_mapTop]
  rfl

/-- Opens a block in the newest frame. -/
def pushScope (m : Machine) : Machine :=
  m.mapTop Frame.pushScope

/-- Closes the innermost block of the newest frame. -/
def popScope (m : Machine) : Machine :=
  m.mapTop Frame.popScope

/-- Starts a call. -/
def pushFrame (f : Frame) (m : Machine) : Machine :=
  { m with calls := m.calls.push f }

/-- Ends the newest call. -/
def popFrame (m : Machine) : Machine :=
  { m with calls := m.calls.pop }

/-- The function of the given name. -/
def function? (m : Machine) (name : String) : Option Function :=
  m.functions.find? (·.name = name)

/-- Prints a line, and echoes it if the machine does that. -/
def printLine (line : String) (m : Machine) : Machine :=
  { m with
    console := m.console.push line
    echo := m.echo.map fun written => written ++ line ++ "\n" }

end Machine

/-- How an action on a machine ends. -/
inductive Outcome (α : Type) where
  | done (value : α) (m : Machine)
  | fault (cause : Fault) (m : Machine)
  | outOfFuel

/-- A computation on a machine. -/
def Action (α : Type) := Machine → Outcome α

namespace Action

/-- Gives a value and leaves the machine alone. -/
@[inline] protected def pure {α : Type} (a : α) : Action α :=
  fun m => .done a m

/-- Goes on with the value of an action that is done. -/
@[inline] protected def bind {α β : Type} (x : Action α) (k : α → Action β) : Action β :=
  fun m =>
    match x m with
    | .done a m' => k a m'
    | .fault cause m' => .fault cause m'
    | .outOfFuel => .outOfFuel

@[always_inline] instance : Monad Action where
  pure := Action.pure
  bind := Action.bind

@[simp] theorem pure_apply {α : Type} (a : α) (m : Machine) :
    (pure a : Action α) m = .done a m := rfl

/-- What comes after an action sees its value and the machine it left. -/
theorem bind_apply {α β : Type} (x : Action α) (k : α → Action β) (m : Machine) :
    (x >>= k) m =
      match x m with
      | .done a m' => k a m'
      | .fault cause m' => .fault cause m'
      | .outOfFuel => .outOfFuel := rfl

/-- A sequence of two actions is done exactly if both are, the second on the machine that the first
has left. -/
theorem bind_eq_done_iff {α β : Type} {x : Action α} {k : α → Action β} {m m' : Machine} {b : β} :
    (x >>= k) m = .done b m' ↔ ∃ a m₁, x m = .done a m₁ ∧ k a m₁ = .done b m' := by
  rw [bind_apply]
  cases x m with
  | done a m₁ => exact ⟨fun h => ⟨a, m₁, rfl, h⟩, fun ⟨_, _, h, h'⟩ => by cases h; exact h'⟩
  | fault => simp
  | outOfFuel => simp

/-- Stops with a fault. -/
@[inline] def raise {α : Type} (cause : Fault) : Action α :=
  fun m => .fault cause m

/-- Has no answer within its bound. -/
@[inline] def outOfFuel {α : Type} : Action α :=
  fun _ => .outOfFuel

/-- Gives a value or stops with a fault, without regard to the machine. -/
@[inline] def ofExcept {α : Type} : Except Fault α → Action α
  | .ok a => Action.pure a
  | .error cause => raise cause

/-- Changes the machine. -/
@[inline] def modify (g : Machine → Machine) : Action Unit :=
  fun m => .done () (g m)

end Action

end Scriptlet
