import Scriptlet.Value.Basic

/-!
# Scriptlet.Machine.Store

**Bindings, scopes and frames.** Where variables live. A scope binds names, each once; a frame
belongs to one call and stacks the scopes of the blocks that are open in it, the innermost first. A
name means its binding in the innermost scope that has one.

Reading goes through `Frame.lookup?` and writing through `Frame.set` and `Frame.declare?`. All three
walk the scopes in the same order.
-/

namespace Scriptlet

/-- A variable: the type it was declared with and its value. -/
structure Binding where
  type : Ty
  value : Value
  deriving DecidableEq

/-- The bindings of one block. -/
abbrev Scope := List (String × Binding)

namespace Scope

/-- The binding of a name. -/
def find? (s : Scope) (x : String) : Option Binding :=
  s.lookup x

/-- Replaces the value of a name that the scope binds. -/
def set (x : String) (v : Value) : Scope → Scope
  | [] => []
  | (y, b) :: rest => if y = x then (y, { b with value := v }) :: rest else (y, b) :: set x v rest

end Scope

/-- The variables of one call: the scopes of its open blocks, innermost first. -/
structure Frame where
  /-- The name of the function that was called. -/
  function : String
  scopes : List Scope
  deriving DecidableEq

namespace Frame

/-- A frame with one empty scope. -/
def fresh (function : String) : Frame :=
  ⟨function, [[]]⟩

/-- The frame that stands below all calls. -/
def toplevel : Frame :=
  fresh "<toplevel>"

/-- The binding that a name has in the frame. -/
def lookup? (f : Frame) (x : String) : Option Binding :=
  f.scopes.findSome? (·.find? x)

/-- Replaces the value of a name in the innermost of the scopes that binds it. -/
def setIn (x : String) (v : Value) : List Scope → List Scope
  | [] => []
  | s :: rest => if (s.find? x).isSome then s.set x v :: rest else s :: setIn x v rest

/-- Replaces the value that a name has in the frame. -/
def set (f : Frame) (x : String) (v : Value) : Frame :=
  { f with scopes := setIn x v f.scopes }

/-- Binds a name in the innermost scope, unless that scope binds it already. A frame without scopes
gets one. -/
def declare? (f : Frame) (x : String) (b : Binding) : Option Frame :=
  match f.scopes with
  | [] => some { f with scopes := [[(x, b)]] }
  | s :: rest =>
    if (s.find? x).isSome then none else some { f with scopes := ((x, b) :: s) :: rest }

/-- Opens a block. -/
def pushScope (f : Frame) : Frame :=
  { f with scopes := [] :: f.scopes }

/-- Closes the innermost block; without one nothing changes. -/
def popScope (f : Frame) : Frame :=
  { f with scopes := f.scopes.tail }

/-- The bindings of the outermost scope. -/
def outermost (f : Frame) : Scope :=
  f.scopes.getLast?.getD []

end Frame

end Scriptlet
