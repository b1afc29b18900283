import Scriptlet.Proofs.Machine.Outcome
import Scriptlet.Proofs.Typing.Values

/-!
# Scriptlet.Proofs.Typing.State

**Typed machines.** At a point of a function whose context is known, the newest frame has that
context and is sound. What a typed program does to variables keeps this, and none of it is a fault.

The frames below the newest one, the functions and the options are the same at every point of a
call. So they are parameters of the invariant, and a caller finds its own frame as it left it.
-/

namespace Scriptlet

/-- The faults that typing does not rule out. -/
def Residual (o : Options) (cause : Fault) (_ : Machine) : Prop :=
  cause = .divisionByZero ∨ cause = .overflow ∨ cause = .callDepthExceeded o.maxCallDepth

/-- The machine runs the program `p` at a point with the context `Γ`, above the frames `below`. -/
structure Machine.Typed (p : Program) (o : Options) (below : List Frame) (Γ : Context)
    (m : Machine) : Prop where
  functions : m.functions = p
  options : m.options = o
  frames : m.frames = m.top :: below
  context : m.top.context = Γ
  sound : m.top.Sound

variable {p : Program} {o : Options} {below : List Frame} {Γ Γ' : Context} {m : Machine}

namespace Machine

namespace Typed

/-- The newest frame can be replaced by a sound one, which brings its own context. -/
theorem mapTop (h : m.Typed p o below Γ) (g : Frame → Frame) (hcontext : (g m.top).context = Γ')
    (hsound : (g m.top).Sound) : (m.mapTop g).Typed p o below Γ' where
  functions := h.functions
  options := h.options
  frames := by rw [frames_mapTop, top_mapTop, h.frames, List.tail_cons]
  context := by rw [top_mapTop, hcontext]
  sound := by rw [top_mapTop]; exact hsound

theorem pushScope (h : m.Typed p o below Γ) : m.pushScope.Typed p o below ([] :: Γ) :=
  h.mapTop _ (congrArg ([] :: ·) h.context) h.sound.pushScope

theorem popScope (h : m.Typed p o below Γ) : m.popScope.Typed p o below Γ.tail := by
  refine h.mapTop _ ?_ h.sound.popScope
  rw [← h.context, Frame.context, Frame.context, ← List.map_tail]
  rfl

/-- A call starts above the frames of its caller. -/
theorem pushFrame {f : Frame} (h : m.Typed p o below Γ) (hsound : f.Sound) :
    (m.pushFrame f).Typed p o m.frames f.context where
  functions := h.functions
  options := h.options
  frames := rfl
  context := rfl
  sound := hsound

/-- A call that ends uncovers the frame of its caller. -/
theorem popFrame {m' : Machine} (h : m.Typed p o below Γ) (h' : m'.Typed p o m.frames Γ') :
    m'.popFrame.Typed p o below Γ := by
  have hframes : m'.popFrame.frames = m.frames := congrArg List.tail h'.frames
  have htop : m'.popFrame.top = m.top := congrArg (·.headD .toplevel) hframes
  exact ⟨h'.functions, h'.options, by rw [hframes, htop, h.frames], by rw [htop, h.context],
    by rw [htop]; exact h.sound⟩

/-- A variable of the context has a binding of its type. -/
theorem lookup? {x : String} {t : Ty} (h : m.Typed p o below Γ) (hx : Γ.type? x = some t) :
    ∃ b, m.top.lookup? x = some b ∧ b.type = t ∧ b.value.type = t := by
  rw [← h.context, Frame.type?_context, Option.map_eq_some_iff] at hx
  obtain ⟨b, hb, rfl⟩ := hx
  exact ⟨b, hb, rfl, (h.sound.lookup? hb).type_eq⟩

end Typed

end Machine

namespace Action

/-! ### Variables -/

theorem lookup_typed {x : String} {t : Ty} (hx : Γ.type? x = some t)
    (h : m.Typed p o below Γ) :
    (lookup x m).Meets (fun b m' => b.type = t ∧ b.value.type = t ∧ m'.Typed p o below Γ)
      (Residual o) := by
  obtain ⟨b, hb, htype, hvalue⟩ := h.lookup? hx
  simp only [lookup, h.frames, hb]
  exact ⟨htype, hvalue, h⟩

theorem assign_typed {x : String} {t : Ty} {v : Value} (hx : Γ.type? x = some t)
    (hv : t.accepts v.type) (h : m.Typed p o below Γ) :
    (assign x v m).Meets (fun _ m' => m'.Typed p o below Γ) (Residual o) := by
  obtain ⟨b, hb, rfl, -⟩ := h.lookup? hx
  obtain ⟨w, hw, htype⟩ := Value.conform_of_accepts (.variable x) hv
  simp only [assign, hb, hw]
  refine h.mapTop _ ((Frame.context_set _ x w).trans h.context) (h.sound.set fun b' hb' => ?_)
  rw [hb] at hb'
  cases hb'
  exact htype

theorem declare_typed {x : String} {t : Ty} {v : Value} (ht : t ≠ .void)
    (hΓ : Γ.declare? x t = some Γ') (hv : t.accepts v.type) (h : m.Typed p o below Γ) :
    (declare x t v m).Meets (fun _ m' => m'.Typed p o below Γ') (Residual o) := by
  obtain ⟨w, hw, htype⟩ := Value.conform_of_accepts (.variable x) hv
  rw [← h.context, ← Frame.context_declare? m.top x ⟨t, w⟩, Option.map_eq_some_iff] at hΓ
  obtain ⟨f, hf, hcontext⟩ := hΓ
  simp only [declare, if_neg ht, hw, hf]
  exact h.mapTop _ hcontext (h.sound.declare? ⟨ht, htype⟩ hf)

/-! ### Values -/

/-- A typed computation on values leaves the machine alone. -/
theorem ofExcept_typed {t : Ty} {x : Except Fault Value} (hx : Computes t x)
    (h : m.Typed p o below Γ) :
    (ofExcept x m).Meets (fun v m' => v.type = t ∧ m'.Typed p o below Γ) (Residual o) := by
  refine meets_ofExcept (fun v hv => ?_) fun cause hcause => ?_
  · subst hv
    exact ⟨hx, h⟩
  · subst hcause
    exact hx.imp_right .inl

end Action

end Scriptlet
