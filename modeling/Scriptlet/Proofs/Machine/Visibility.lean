import Scriptlet.Proofs.Machine.Agreement
import Scriptlet.Proofs.Machine.Store

/-!
# Scriptlet.Proofs.Machine.Visibility

**Expressions see visible bindings.** A name means its binding in the innermost scope of the newest
frame that has one. What an expression does depends on these bindings only: two machines that show
the same bindings, however they are spread over scopes, go through an evaluation alike and show the
same bindings after it (`SameView`). Bindings that are hidden by one of the same name further in
stay as they are (`KeepsHidden`), and so do all bindings of other frames.
-/

namespace Scriptlet

/-! ### Hidden bindings -/

namespace Frame

variable {f f' f₁ : Frame} {i : Nat} {x : String}

/-- The scopes of `f'` bind the names that those of `f` do, and what is hidden is the same. -/
structure KeepsHidden (f f' : Frame) : Prop where
  context : f'.context = f.context
  hidden : ∀ i x, f.Hides i x → f'.binding? i x = f.binding? i x

theorem map_type_binding? (f : Frame) (i : Nat) (x : String) :
    (f.binding? i x).map Binding.type = f.context[i]?.bind (·.lookup x) := by
  rw [binding?, context, List.getElem?_map]
  cases f.scopes[i]? with
  | none => rfl
  | some s => exact (Scope.lookup_types s x).symm

/-- What hides a binding is fixed by the names that the scopes bind. -/
theorem Hides.of_context (h : f.Hides i x) (hcontext : f'.context = f.context) : f'.Hides i x := by
  obtain ⟨j, hj, hsome⟩ := h
  refine ⟨j, hj, ?_⟩
  rw [← Option.isSome_map (f := Binding.type), map_type_binding?] at hsome ⊢
  rwa [hcontext]

namespace KeepsHidden

theorem refl (f : Frame) : f.KeepsHidden f :=
  ⟨rfl, fun _ _ _ => rfl⟩

theorem trans (h : f.KeepsHidden f₁) (h' : f₁.KeepsHidden f') : f.KeepsHidden f' where
  context := h'.context.trans h.context
  hidden i x hx := (h'.hidden i x (hx.of_context h.context)).trans (h.hidden i x hx)

theorem set (f : Frame) (x : String) (v : Value) : f.KeepsHidden (f.set x v) where
  context := context_set f x v
  hidden _ _ hy := binding?_set hy

end KeepsHidden

end Frame

namespace Machine

/-- The frames of `m'` are those of `m`, except for visible bindings of the newest one. -/
structure KeepsHidden (m m' : Machine) : Prop where
  below : m'.frames.tail = m.frames.tail
  top : m.top.KeepsHidden m'.top

namespace KeepsHidden

variable {m m' m₁ : Machine}

theorem of_calls (h : m'.calls = m.calls) : m.KeepsHidden m' := by
  refine ⟨congrArg (·.frames.tail) h, ?_⟩
  have htop : m'.top = m.top := congrArg CallStack.top h
  rw [htop]
  exact .refl m.top

theorem trans (h : m.KeepsHidden m₁) (h' : m₁.KeepsHidden m') : m.KeepsHidden m' :=
  ⟨h'.below.trans h.below, h.top.trans h'.top⟩

theorem mapTop {g : Frame → Frame} (hg : m.top.KeepsHidden (g m.top)) :
    m.KeepsHidden (m.mapTop g) where
  below := by rw [frames_mapTop, List.tail_cons]
  top := by rwa [top_mapTop]

theorem assign (x : String) (v : Value) (m : Machine) :
    (Action.assign x v m).Leaves m.KeepsHidden := by
  rw [Action.assign]
  split
  · exact mapTop (.refl m.top)
  · split
    · exact mapTop (.refl m.top)
    · exact mapTop (.set m.top x _)

end KeepsHidden

end Machine

/-- An expression reaches no hidden binding. -/
theorem Expr.eval_keepsHidden (fuel : Nat) (e : Expr) (m : Machine) :
    (e.eval (callWithin fuel) m).Leaves m.KeepsHidden :=
  e.eval_leaves (fun _ => .of_calls rfl) .trans Machine.KeepsHidden.assign
    (fun lines m => .of_calls (m.calls_printLines lines)) fuel m

/-! ### The same view -/

namespace Machine

/-- The machines show the same bindings, and they have printed the same since `start`. -/
structure SameView (start : Machine × Machine) (m m' : Machine) : Prop where
  function? : ∀ name, m'.function? name = m.function? name
  options : m'.options = m.options
  count : m'.frames.length = m.frames.length
  lookup? : ∀ x, m'.top.lookup? x = m.top.lookup? x
  printed : PrintSame start.1 start.2 m m'

namespace SameView

variable {start : Machine × Machine} {m m' : Machine}

theorem mapTop {g : Frame → Frame} (h : SameView start m m')
    (hg : ∀ x, (g m'.top).lookup? x = (g m.top).lookup? x) :
    SameView start (m.mapTop g) (m'.mapTop g) where
  function? := h.function?
  options := h.options
  count := by
    rw [frames_mapTop, frames_mapTop, List.length_cons, List.length_cons, List.length_tail,
      List.length_tail, h.count]
  lookup? := by rwa [top_mapTop, top_mapTop]
  printed := h.printed

/-- A write is seen by both machines, and leaves what else they see alone. -/
theorem set (x : String) (v : Value) (h : SameView start m m') :
    SameView start (m.mapTop (·.set x v)) (m'.mapTop (·.set x v)) :=
  h.mapTop fun y => by rw [Frame.lookup?_set, Frame.lookup?_set, h.lookup? x, h.lookup? y]

theorem printLine (line : String) (h : SameView start m m') :
    SameView start (m.printLine line) (m'.printLine line) :=
  ⟨h.function?, h.options, h.count, h.lookup?, h.printed.printLine line⟩

/-- Evaluation cannot tell two machines with the same view apart. -/
theorem eval_agrees (start : Machine × Machine) (fuel : Nat) (e : Expr) :
    (e.eval (callWithin fuel)).AgreesWith (SameView start) (e.eval (callWithin fuel)) := by
  have hK : Action.Congruence fun _ x x' => x.AgreesWith (SameView start) x' :=
    Action.congruence_agrees (fun x h => h.lookup? x) (fun h => h.mapTop h.lookup?) set
  exact hK.eval (callWithin_agrees (fun name h => h.function? name) options count printLine fuel) e

end SameView

end Machine

/-- **Expressions depend on visible bindings only.** Let two machines have the same function under
every name, the same options and as many frames, and let every name have the same binding in both,
or none, when it is looked up. Then an expression ends in the same way in both: with the same value,
with the same fault or out of fuel. It prints the same lines in both, and after it every name has
the same binding in both again. In each of them the bindings that are hidden by a scope further in
stay as they are, and so do the frames below the newest one. -/
theorem eval_sees_visible {m m' : Machine}
    (hfunction : ∀ name, m'.function? name = m.function? name)
    (hoptions : m'.options = m.options) (hcount : m'.frames.length = m.frames.length)
    (hlookup : ∀ x, m'.top.lookup? x = m.top.lookup? x) (fuel : Nat) (e : Expr) :
    (e.eval (callWithin fuel) m).Agree
      (fun m₁ m₁' =>
        (∃ lines, m₁.console = m.console ++ lines ∧ m₁'.console = m'.console ++ lines) ∧
        (∀ x, m₁'.top.lookup? x = m₁.top.lookup? x) ∧ m.KeepsHidden m₁ ∧ m'.KeepsHidden m₁')
      (e.eval (callWithin fuel) m') := by
  have hview : Machine.SameView (m, m') m m' :=
    ⟨hfunction, hoptions, hcount, hlookup, .refl m m'⟩
  have hagree := Machine.SameView.eval_agrees (m, m') fuel e m m' hview
  exact Outcome.Agree.with_leaves hagree (e.eval_keepsHidden fuel m) (e.eval_keepsHidden fuel m')
    fun _ _ hkept hkept' h => ⟨h.printed, h.lookup?, hkept, hkept'⟩

/-- Visible bindings in one scope, and the same ones over three scopes, with another one hidden. The
argument of the call steps the visible variable. -/
theorem eval_sees_visible_shadow :
    ∃ (f : Function) (e : Expr) (m m' m₁ m₁' : Machine) (lines : Array String),
      f = ⟨.int, "f", [⟨.int, "n"⟩], [.eval (.call "print" [.var "n"]), .ret (.var "n")]⟩ ∧
      e = .binary (.call "f" [.step .increment .after (.var "x")]) .sub
        (.binary (.var "x") .mul (.var "y")) ∧
      m = ⟨[f], .ofList [⟨"g", [[("y", ⟨.int, .int 5⟩), ("x", ⟨.int, .int 2⟩)]]⟩], #[], {}, none⟩ ∧
      m' = ⟨[f], .ofList [⟨"h", [[], [("x", ⟨.int, .int 2⟩)],
        [("x", ⟨.bool, .bool true⟩), ("y", ⟨.int, .int 5⟩)]]⟩], #["before"], {}, none⟩ ∧
      e.eval (callWithin 2) m = .done (.int (-13)) m₁ ∧
      e.eval (callWithin 2) m' = .done (.int (-13)) m₁' ∧
      m₁.console = m.console ++ lines ∧ m₁'.console = m'.console ++ lines ∧
      (∀ x, m₁'.top.lookup? x = m₁.top.lookup? x) ∧
      m'.top.Hides 2 "x" ∧ m₁'.top.binding? 2 "x" = some ⟨.bool, .bool true⟩ := by
  let f : Function :=
    ⟨.int, "f", [⟨.int, "n"⟩], [.eval (.call "print" [.var "n"]), .ret (.var "n")]⟩
  let e : Expr := .binary (.call "f" [.step .increment .after (.var "x")]) .sub
    (.binary (.var "x") .mul (.var "y"))
  let m : Machine :=
    ⟨[f], .ofList [⟨"g", [[("y", ⟨.int, .int 5⟩), ("x", ⟨.int, .int 2⟩)]]⟩], #[], {}, none⟩
  let m' : Machine :=
    ⟨[f], .ofList [⟨"h", [[], [("x", ⟨.int, .int 2⟩)],
      [("x", ⟨.bool, .bool true⟩), ("y", ⟨.int, .int 5⟩)]]⟩], #["before"], {}, none⟩
  have hlookup : ∀ x, m'.top.lookup? x = m.top.lookup? x := by
    intro x
    change Frame.lookup? ⟨"h", _⟩ x = Frame.lookup? ⟨"g", _⟩ x
    simp only [Frame.lookup?_cons, Scope.find?_cons]
    by_cases hx : x = "x"
    · subst hx
      rfl
    · by_cases hy : x = "y"
      · subst hy
        rfl
      · simp only [if_neg hx, if_neg hy]
        rfl
  obtain ⟨m₁, hrun⟩ : ∃ m₁, e.eval (callWithin 2) m = .done (.int (-13)) m₁ := ⟨_, rfl⟩
  obtain ⟨m₁', hrun'⟩ : ∃ m₁', e.eval (callWithin 2) m' = .done (.int (-13)) m₁' := ⟨_, rfl⟩
  have hhides : m'.top.Hides 2 "x" := ⟨1, by decide, rfl⟩
  have hagree := @eval_sees_visible m m' (fun _ => rfl) rfl rfl hlookup 2 e
  rw [hrun, hrun'] at hagree
  obtain ⟨-, ⟨lines, hlines, hlines'⟩, hview, -, hkept⟩ := hagree
  exact ⟨f, e, m, m', m₁, m₁', lines, rfl, rfl, rfl, rfl, hrun, hrun', hlines, hlines', hview,
    hhides, hkept.top.hidden 2 "x" hhides⟩

end Scriptlet
