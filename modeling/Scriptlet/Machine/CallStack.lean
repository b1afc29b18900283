import Scriptlet.Machine.Store

/-!
# Scriptlet.Machine.CallStack

**The active calls.** Calls nest, and each has a frame of its own. A call stack keeps their frames,
the newest first, together with their number, so that the limit on nested calls is tested without
walking down the frames. The number follows from the frames: two stacks with the same frames are
equal, and every operation is fixed by what it does to the frames.
-/

namespace Scriptlet

/-- The frames of the active calls. -/
structure CallStack where
  /-- The frames, the newest first. -/
  frames : List Frame
  /-- The number of frames. -/
  depth : Nat
  depth_eq : depth = frames.length

namespace CallStack

/-- The stack of the given frames, the newest first. -/
def ofList (frames : List Frame) : CallStack :=
  ⟨frames, frames.length, rfl⟩

/-- The newest frame; where there is none, a toplevel frame stands in. -/
def top (c : CallStack) : Frame :=
  c.frames.headD .toplevel

/-- Replaces the newest frame. -/
@[inline] def mapTop (g : Frame → Frame) : CallStack → CallStack
  | ⟨[], _, _⟩ => ⟨[g .toplevel], 1, rfl⟩
  | ⟨f :: rest, n, h⟩ => ⟨g f :: rest, n, h⟩

/-- Puts a new frame on top. -/
def push (f : Frame) (c : CallStack) : CallStack :=
  ⟨f :: c.frames, c.depth + 1, congrArg (· + 1) c.depth_eq⟩

/-- Takes the newest frame off; without one nothing changes. -/
def pop (c : CallStack) : CallStack :=
  ⟨c.frames.tail, c.depth - 1, by rw [c.depth_eq, List.length_tail]⟩

/-- The frames fix the stack. -/
@[ext] theorem ext {c d : CallStack} (h : c.frames = d.frames) : c = d := by
  obtain ⟨fs, n, hn⟩ := c
  obtain ⟨gs, k, hk⟩ := d
  subst h hn hk
  rfl

@[simp] theorem frames_ofList (fs : List Frame) : (ofList fs).frames = fs := rfl

@[simp] theorem frames_push (f : Frame) (c : CallStack) : (c.push f).frames = f :: c.frames := rfl

@[simp] theorem frames_pop (c : CallStack) : c.pop.frames = c.frames.tail := rfl

@[simp] theorem frames_mapTop (g : Frame → Frame) (c : CallStack) :
    (c.mapTop g).frames = g c.top :: c.frames.tail := by
  obtain ⟨_ | ⟨f, rest⟩, n, h⟩ := c <;> rfl

/-- The newest call ends and leaves the stack as it was before the call. -/
@[simp] theorem pop_push (f : Frame) (c : CallStack) : (c.push f).pop = c :=
  ext rfl

end CallStack

end Scriptlet
