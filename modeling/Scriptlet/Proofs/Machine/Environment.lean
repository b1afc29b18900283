import Scriptlet.Proofs.Machine.Store
import Scriptlet.Proofs.Machine.Transparency
import Scriptlet.Proofs.Typing.Values
import Scriptlet.Session

/-!
# Scriptlet.Proofs.Machine.Environment

**Laws of declaring, assigning and looking up.** When a declaration or an assignment succeeds, what
can be looked up after it, and what else it changes. Both turn an unfit value away before they touch
the machine, so a failure leaves it as it was, and the first condition that is not met says which
fault it is (`DeclareFault`, `AssignFault`).

An assignment replaces one binding, that of the name in the innermost scope that has one
(`Frame.Rebinds`). A declaration adds one to the innermost scope (`Frame.extend`), and it goes when
the block is closed (`Machine.OpenedFrom`).
-/

namespace Scriptlet

/-- A value that does not fit is turned away. -/
theorem Value.conform_of_not_accepts {t : Ty} {v : Value} (slot : Slot) (h : ¬ t.accepts v.type) :
    v.conform slot t = .error (.typeMismatch (.unfit slot t v.type)) := by
  have hne : v.type ≠ t := by
    rintro rfl
    exact h (Ty.accepts_self v.type)
  rw [conform.eq_def]
  split
  · exact absurd (Ty.accepts_iff.2 (.inr ⟨rfl, rfl⟩)) h
  · exact if_neg hne

/-! ### Frames -/

/-- A write to a scope replaces the value of the binding that is found there. -/
theorem Scope.exists_of_find? {s : Scope} {x : String} {b : Binding} (v : Value)
    (h : s.find? x = some b) :
    ∃ before after : Scope, before.find? x = none ∧ s = before ++ (x, b) :: after ∧
      s.set x v = before ++ (x, { b with value := v }) :: after := by
  induction s with
  | nil => cases h
  | cons d rest ih =>
    obtain ⟨y, c⟩ := d
    rw [find?_cons] at h
    rw [set]
    by_cases hxy : x = y
    · rw [if_pos hxy, Option.some.injEq] at h
      subst hxy h
      exact ⟨[], rest, rfl, rfl, if_pos rfl⟩
    · rw [if_neg hxy] at h
      obtain ⟨before, after, hbefore, rfl, hset⟩ := ih h
      refine ⟨(y, c) :: before, after, ?_, rfl, ?_⟩
      · rw [find?_cons, if_neg hxy, hbefore]
      · rw [if_neg (Ne.symm hxy), hset]
        rfl

namespace Frame

variable {f : Frame} {x : String} {b : Binding}

/-- The frames have the same scopes but for one binding, `b` in the first frame and `b'` in the
second: that of `x` in the innermost scope that has one. -/
inductive Rebinds (x : String) (b b' : Binding) : Frame → Frame → Prop
  | intro (function : String) (inner outer : List Scope) (before after : Scope)
    (hinner : ∀ s ∈ inner, s.find? x = none) (hbefore : before.find? x = none) :
    Rebinds x b b' ⟨function, inner ++ (before ++ (x, b) :: after) :: outer⟩
      ⟨function, inner ++ (before ++ (x, b') :: after) :: outer⟩

/-- A write replaces the value of the visible binding and nothing else. -/
theorem rebinds_set (v : Value) (h : f.lookup? x = some b) :
    Rebinds x b { b with value := v } f (f.set x v) := by
  obtain ⟨function, scopes⟩ := f
  induction scopes with
  | nil => cases h
  | cons s rest ih =>
    rw [lookup?_cons] at h
    rw [set_cons]
    cases hs : s.find? x with
    | some c =>
      rw [hs, Option.some_or, Option.some.injEq] at h
      subst h
      obtain ⟨before, after, hbefore, rfl, hset⟩ := Scope.exists_of_find? v hs
      rw [if_pos Option.isSome_some, hset]
      exact .intro function [] rest before after nofun hbefore
    | none =>
      rw [hs, Option.none_or] at h
      rw [if_neg (by simp)]
      -- the scope in front does not bind the name, so it joins those that the write passes
      generalize set ⟨function, rest⟩ x v = f' at ih
      cases ih h with
      | intro _ inner outer before after hinner hbefore =>
        have hpassed : ∀ s' ∈ s :: inner, s'.find? x = none :=
          List.forall_mem_cons.2 ⟨hs, hinner⟩
        exact .intro function (s :: inner) outer before after hpassed hbefore

/-- The frame with one more binding, in front of those of the innermost scope. A frame without
scopes gets one. -/
def extend (x : String) (b : Binding) (f : Frame) : Frame :=
  { f with scopes := ((x, b) :: f.scopes.headD []) :: f.scopes.tail }

theorem declare?_of_free (b : Binding) (h : f.binding? 0 x = none) :
    f.declare? x b = some (f.extend x b) := by
  obtain ⟨function, _ | ⟨s, rest⟩⟩ := f
  · rfl
  · have hs : ¬ (s.find? x).isSome := Option.not_isSome_iff_eq_none.2 h
    exact if_neg hs

theorem declare?_of_bound (b : Binding) (h : (f.binding? 0 x).isSome) : f.declare? x b = none := by
  obtain ⟨function, _ | ⟨s, rest⟩⟩ := f
  · cases h
  · exact if_pos h

/-- **What is visible after a declaration**: the new binding, and all other names as before. -/
theorem lookup?_extend (f : Frame) (x y : String) (b : Binding) :
    (f.extend x b).lookup? y = if y = x then some b else f.lookup? y := by
  rw [extend, lookup?_cons, Scope.find?_cons]
  by_cases hyx : y = x
  · rw [if_pos hyx, if_pos hyx, Option.some_or]
  · rw [if_neg hyx, if_neg hyx]
    obtain ⟨function, _ | ⟨s, rest⟩⟩ := f
    · rfl
    · exact (lookup?_cons function s rest y).symm

end Frame

/-! ### Declaring and assigning -/

namespace Machine

/-- The binding that is found when a name is looked up. -/
def binding? (m : Machine) (x : String) : Option Binding :=
  match Action.lookup x m with
  | .done b _ => some b
  | _ => none

theorem binding?_eq (m : Machine) (x : String) : m.binding? x = m.top.lookup? x := by
  rw [binding?, Action.lookup_eq_top]
  cases m.top.lookup? x <;> rfl

/-- The machine `m'` has another newest frame than `m` at most. -/
def SameButTop (m m' : Machine) : Prop :=
  m' = m.mapTop fun _ => m'.top

theorem sameButTop_mapTop (g : Frame → Frame) (m : Machine) : m.SameButTop (m.mapTop g) := by
  rw [SameButTop, top_mapTop]
  exact mapTop_congr rfl

end Machine

/-- The fault of a declaration, by the first condition that is not met: the type has values, the
value fits it, and the innermost scope does not bind the name. -/
inductive DeclareFault (m : Machine) (x : String) (t : Ty) (v : Value) : Fault → Prop
  | void (h : t = .void) : DeclareFault m x t v (.typeMismatch (.voidVariable x))
  | unfit (hvoid : t ≠ .void) (h : ¬ t.accepts v.type) :
    DeclareFault m x t v (.typeMismatch (.unfit (.variable x) t v.type))
  | repeated (hvoid : t ≠ .void) (hfits : t.accepts v.type) (h : (m.top.binding? 0 x).isSome) :
    DeclareFault m x t v (.duplicateDeclaration x)

/-- The fault of an assignment, by the first condition that is not met: the name has a binding, and
the value fits its type. -/
inductive AssignFault (m : Machine) (x : String) (v : Value) : Fault → Prop
  | undefined (h : m.binding? x = none) : AssignFault m x v (.undefinedVariable x)
  | unfit {b : Binding} (hb : m.binding? x = some b) (h : ¬ b.type.accepts v.type) :
    AssignFault m x v (.typeMismatch (.unfit (.variable x) b.type v.type))

theorem DeclareFault.declare_eq {m : Machine} {x : String} {t : Ty} {v : Value} {cause : Fault}
    (h : DeclareFault m x t v cause) : Action.declare x t v m = .fault cause m := by
  cases h with
  | void h => exact if_pos h
  | unfit hvoid h => rw [Action.declare, if_neg hvoid, Value.conform_of_not_accepts _ h]
  | repeated hvoid hfits h =>
    obtain ⟨w, hw, -⟩ := Value.conform_of_accepts (.variable x) hfits
    rw [Action.declare, if_neg hvoid, hw]
    dsimp only
    rw [Frame.declare?_of_bound _ h]

theorem AssignFault.assign_eq {m : Machine} {x : String} {v : Value} {cause : Fault}
    (h : AssignFault m x v cause) (hm : m.frames ≠ []) : Action.assign x v m = .fault cause m := by
  cases h with
  | undefined h =>
    rw [Machine.binding?_eq] at h
    rw [Action.assign, h, Machine.mapTop_id hm]
  | unfit hb h =>
    rw [Machine.binding?_eq] at hb
    rw [Action.assign, hb, Machine.mapTop_id hm]
    dsimp only
    rw [Value.conform_of_not_accepts _ h]

namespace Action

variable {m m' : Machine} {x : String} {t : Ty} {v w : Value} {b : Binding}

theorem lookup_eq_done {b : Binding} (h : lookup x m = .done b m') :
    m' = m ∧ m.top.lookup? x = some b := by
  rw [lookup_eq_top] at h
  cases hb : m.top.lookup? x with
  | none =>
    rw [hb] at h
    cases h
  | some c =>
    rw [hb] at h
    cases h
    exact ⟨rfl, rfl⟩

theorem declare_of_free (hvoid : t ≠ .void) (hw : v.conform (.variable x) t = .ok w)
    (hfree : m.top.binding? 0 x = none) :
    declare x t v m = .done () (m.mapTop (.extend x ⟨t, w⟩)) := by
  rw [declare, if_neg hvoid, hw]
  dsimp only
  rw [Frame.declare?_of_free _ hfree]
  exact congrArg (Outcome.done ()) (Machine.mapTop_congr rfl)

theorem assign_of_conform (hb : m.binding? x = some b)
    (hw : v.conform (.variable x) b.type = .ok w) :
    assign x v m = .done () (m.mapTop (·.set x w)) := by
  rw [Machine.binding?_eq] at hb
  rw [assign, hb]
  dsimp only
  rw [hw]

theorem assign_eq_done (h : assign x v m = .done () m') :
    ∃ b w, m.top.lookup? x = some b ∧ v.conform (.variable x) b.type = .ok w ∧
      m' = m.mapTop (·.set x w) := by
  rw [assign] at h
  split at h
  · cases h
  · rename_i b hb
    split at h
    · cases h
    · rename_i w hw
      cases h
      exact ⟨b, w, hb, hw, rfl⟩

/-- **What a declaration does**: it adds a binding to the innermost scope, or it stops with the
fault of the first condition that is not met and leaves the machine alone. -/
theorem declare_cases (x : String) (t : Ty) (v : Value) (m : Machine) :
    (∃ w, t ≠ .void ∧ t.accepts v.type ∧ m.top.binding? 0 x = none ∧
      v.conform (.variable x) t = .ok w ∧
      declare x t v m = .done () (m.mapTop (.extend x ⟨t, w⟩))) ∨
    ∃ cause, DeclareFault m x t v cause ∧ declare x t v m = .fault cause m := by
  have hfault {cause : Fault} (h : DeclareFault m x t v cause) :
      ∃ cause, DeclareFault m x t v cause ∧ declare x t v m = .fault cause m :=
    ⟨cause, h, h.declare_eq⟩
  by_cases hvoid : t = .void
  · exact .inr (hfault (.void hvoid))
  by_cases hfits : t.accepts v.type
  · cases hfree : m.top.binding? 0 x with
    | none =>
      obtain ⟨w, hw, -⟩ := Value.conform_of_accepts (.variable x) hfits
      exact .inl ⟨w, hvoid, hfits, rfl, hw, declare_of_free hvoid hw hfree⟩
    | some b => exact .inr (hfault (.repeated hvoid hfits (hfree ▸ Option.isSome_some)))
  · exact .inr (hfault (.unfit hvoid hfits))

/-- **What an assignment does** while a call is active: it writes to the visible binding, or it
stops with the fault of the first condition that is not met and leaves the machine alone. -/
theorem assign_cases (hm : m.frames ≠ []) (x : String) (v : Value) :
    (∃ b w, m.binding? x = some b ∧ b.type.accepts v.type ∧
      v.conform (.variable x) b.type = .ok w ∧ assign x v m = .done () (m.mapTop (·.set x w))) ∨
    ∃ cause, AssignFault m x v cause ∧ assign x v m = .fault cause m := by
  have hfault {cause : Fault} (h : AssignFault m x v cause) :
      ∃ cause, AssignFault m x v cause ∧ assign x v m = .fault cause m :=
    ⟨cause, h, h.assign_eq hm⟩
  cases hb : m.binding? x with
  | none => exact .inr (hfault (.undefined hb))
  | some b =>
    by_cases hfits : b.type.accepts v.type
    · obtain ⟨w, hw, -⟩ := Value.conform_of_accepts (.variable x) hfits
      exact .inl ⟨b, w, rfl, hfits, hw, assign_of_conform hb hw⟩
    · exact .inr (hfault (.unfit hb hfits))

theorem declare_eq_fault_iff {cause : Fault} :
    declare x t v m = .fault cause m' ↔ m' = m ∧ DeclareFault m x t v cause := by
  refine ⟨fun h => ?_, fun ⟨hm', hcause⟩ => hm' ▸ hcause.declare_eq⟩
  obtain ⟨w, -, -, -, -, hdone⟩ | ⟨cause', hcause', hfault⟩ := declare_cases x t v m
  · cases hdone.symm.trans h
  · cases hfault.symm.trans h
    exact ⟨rfl, hcause'⟩

theorem assign_eq_fault_iff (hm : m.frames ≠ []) {cause : Fault} :
    assign x v m = .fault cause m' ↔ m' = m ∧ AssignFault m x v cause := by
  refine ⟨fun h => ?_, fun ⟨hm', hcause⟩ => hm' ▸ hcause.assign_eq hm⟩
  obtain ⟨b, w, -, -, -, hdone⟩ | ⟨cause', hcause', hfault⟩ := assign_cases hm x v
  · cases hdone.symm.trans h
  · cases hfault.symm.trans h
    exact ⟨rfl, hcause'⟩

end Action

/-! ### Blocks -/

namespace Machine

variable {m m' : Machine}

/-- In `m'` a block is open, and closing it gives `m`. -/
structure OpenedFrom (m m' : Machine) : Prop where
  scopes_ne : m'.top.scopes ≠ []
  popScope : m'.popScope = m

namespace OpenedFrom

theorem pushScope (hm : m.frames ≠ []) : m.OpenedFrom m.pushScope where
  scopes_ne := by
    rw [Machine.pushScope, top_mapTop]
    exact List.cons_ne_nil _ _
  popScope := popScope_pushScope hm

theorem extend (h : m.OpenedFrom m') (x : String) (b : Binding) :
    m.OpenedFrom (m'.mapTop (.extend x b)) where
  scopes_ne := by
    rw [top_mapTop]
    exact List.cons_ne_nil _ _
  popScope := by
    rw [Machine.popScope, mapTop_mapTop, ← h.popScope]
    exact mapTop_congr rfl

/-- What is declared in a block goes when it is closed. -/
theorem declare (h : m.OpenedFrom m') (fuel : Nat) (x : String) (t : Ty) (v : Value) :
    ∃ m₁, (Command.declare x t v).after fuel m' = some m₁ ∧ m.OpenedFrom m₁ := by
  simp only [Command.after, Command.perform, Action.bind_apply]
  obtain ⟨w, -, -, -, -, hdone⟩ | ⟨cause, -, hfault⟩ := Action.declare_cases x t v m'
  · rw [hdone]
    exact ⟨_, rfl, h.extend x ⟨t, w⟩⟩
  · rw [hfault]
    exact ⟨m', rfl, h⟩

end OpenedFrom

end Machine

/-- A session that opens a block, declares variables in it and closes it. -/
def blockSession (ds : List (String × Ty × Value)) : List Command :=
  .pushScope :: (ds.map fun d => .declare d.1 d.2.1 d.2.2) ++ [.popScope]

/-- Declarations in a block, whether they succeed or not, are gone after it. -/
theorem sessionAfter_blockSession {m : Machine} (hm : m.frames ≠ []) (fuel : Nat)
    (ds : List (String × Ty × Value)) : sessionAfter fuel (blockSession ds) m = some m := by
  have hrest : ∀ m', m.OpenedFrom m' →
      sessionAfter fuel ((ds.map fun d => .declare d.1 d.2.1 d.2.2) ++ [.popScope]) m' =
        some m := by
    induction ds with
    | nil =>
      intro m' h
      exact congrArg some h.popScope
    | cons d ds ih =>
      intro m' h
      obtain ⟨m₁, hafter, h₁⟩ := h.declare fuel d.1 d.2.1 d.2.2
      exact Option.bind_eq_some_iff.2 ⟨m₁, hafter, ih m₁ h₁⟩
  exact hrest m.pushScope (.pushScope hm)

/-- **Laws of the environment.** Let a call be active.

A declaration succeeds exactly if its type is not `void`, the value fits the type and the innermost
scope does not bind the name. Then the name is found with that type and the converted value, every
other name is found as before, and all but the newest frame is the same. Declarations in a block are
gone when it is closed, and the machine is the one before the block.

An assignment succeeds exactly if the name is found with a type that the value fits. Then it is
found with the same type and the converted value, and that one binding, in the innermost scope that
has one, is all that changed.

Where one of them fails the machine is the one before it, and the first condition that is not met
says which fault it is. -/
theorem environment_laws {m : Machine} (hm : m.frames ≠ []) (x : String) (v : Value) :
    (∀ t,
      ((∃ m', Action.declare x t v m = .done () m') ↔
        t ≠ .void ∧ t.accepts v.type ∧ m.top.binding? 0 x = none) ∧
      (∀ m', Action.declare x t v m = .done () m' →
        (∃ w, v.conform (.variable x) t = .ok w ∧ m'.binding? x = some ⟨t, w⟩) ∧
        (∀ y, y ≠ x → m'.binding? y = m.binding? y) ∧ m.SameButTop m') ∧
      ∀ cause m', Action.declare x t v m = .fault cause m' ↔
        m' = m ∧ DeclareFault m x t v cause) ∧
    (∀ fuel ds, sessionAfter fuel (blockSession ds) m = some m) ∧
    ((∃ m', Action.assign x v m = .done () m') ↔
      ∃ b, m.binding? x = some b ∧ b.type.accepts v.type) ∧
    (∀ m', Action.assign x v m = .done () m' →
      ∃ b w, m.binding? x = some b ∧ v.conform (.variable x) b.type = .ok w ∧
        m'.binding? x = some ⟨b.type, w⟩ ∧ m.SameButTop m' ∧
        Frame.Rebinds x b ⟨b.type, w⟩ m.top m'.top) ∧
    ∀ cause m', Action.assign x v m = .fault cause m' ↔ m' = m ∧ AssignFault m x v cause := by
  refine ⟨fun t => ⟨⟨fun ⟨m', h⟩ => ?declares, fun ⟨hvoid, hfits, hfree⟩ => ?declared⟩,
      fun m' h => ?found, fun cause m' => Action.declare_eq_fault_iff⟩,
    fun fuel ds => sessionAfter_blockSession hm fuel ds,
    ⟨fun ⟨m', h⟩ => ?assigns, fun ⟨b, hb, hfits⟩ => ?assigned⟩,
    fun m' h => ?rebinds, fun cause m' => Action.assign_eq_fault_iff hm⟩
  case declares =>
    obtain ⟨w, hvoid, hfits, hfree, -, -⟩ | ⟨cause, -, hfault⟩ := Action.declare_cases x t v m
    · exact ⟨hvoid, hfits, hfree⟩
    · cases hfault.symm.trans h
  case declared =>
    obtain ⟨w, hw, -⟩ := Value.conform_of_accepts (.variable x) hfits
    exact ⟨_, Action.declare_of_free hvoid hw hfree⟩
  case found =>
    obtain ⟨w, -, -, -, hw, hdone⟩ | ⟨cause, -, hfault⟩ := Action.declare_cases x t v m
    · cases hdone.symm.trans h
      have hlookup (y : String) : (m.mapTop (.extend x ⟨t, w⟩)).binding? y =
          if y = x then some ⟨t, w⟩ else m.binding? y := by
        rw [Machine.binding?_eq, Machine.binding?_eq, Machine.top_mapTop, Frame.lookup?_extend]
      exact ⟨⟨w, hw, (hlookup x).trans (if_pos rfl)⟩, fun y hyx => (hlookup y).trans (if_neg hyx),
        Machine.sameButTop_mapTop _ m⟩
    · cases hfault.symm.trans h
  case assigns =>
    obtain ⟨b, w, hb, hfits, -, -⟩ | ⟨cause, -, hfault⟩ := Action.assign_cases hm x v
    · exact ⟨b, hb, hfits⟩
    · cases hfault.symm.trans h
  case assigned =>
    obtain ⟨w, hw, -⟩ := Value.conform_of_accepts (.variable x) hfits
    exact ⟨_, Action.assign_of_conform hb hw⟩
  case rebinds =>
    obtain ⟨b, w, hb, -, hw, hdone⟩ | ⟨cause, -, hfault⟩ := Action.assign_cases hm x v
    · cases hdone.symm.trans h
      have hlookup : m.top.lookup? x = some b := (m.binding?_eq x).symm.trans hb
      refine ⟨b, w, hb, hw, ?_, Machine.sameButTop_mapTop _ m, ?_⟩
      · rw [Machine.binding?_eq, Machine.top_mapTop, Frame.lookup?_set, if_pos rfl, hlookup]
        rfl
      · rw [Machine.top_mapTop]
        exact Frame.rebinds_set w hlookup
    · cases hfault.symm.trans h

/-- A float that hides a boolean of the same name. An integer is assigned to the float, a second
declaration of the name is turned away, and one of another name hides that name. -/
theorem environment_laws_shadow :
    ∃ m m₁ m₂ : Machine,
      m = { Machine.new {} with calls := .ofList [⟨"main", [[("x", ⟨.float, .float 1.5⟩)],
        [("x", ⟨.bool, .bool true⟩), ("y", ⟨.int, .int 5⟩)]]⟩] } ∧
      m.frames ≠ [] ∧
      Action.assign "x" (.int 2) m = .done () m₁ ∧
      m₁.binding? "x" = some ⟨.float, .float (Value.promote 2)⟩ ∧
      Frame.Rebinds "x" ⟨.float, .float 1.5⟩ ⟨.float, .float (Value.promote 2)⟩ m.top m₁.top ∧
      Action.declare "x" .int (.int 2) m = .fault (.duplicateDeclaration "x") m ∧
      Action.declare "y" .float (.int 2) m = .done () m₂ ∧
      m₂.binding? "y" = some ⟨.float, .float (Value.promote 2)⟩ ∧
      m₂.binding? "x" = m.binding? "x" ∧
      sessionAfter 0 (blockSession [("x", .int, .int 1), ("x", .void, .int 1)]) m = some m := by
  let m : Machine := { Machine.new {} with
    calls := .ofList [⟨"main", [[("x", ⟨.float, .float 1.5⟩)],
      [("x", ⟨.bool, .bool true⟩), ("y", ⟨.int, .int 5⟩)]]⟩] }
  have hm : m.frames ≠ [] := List.cons_ne_nil _ _
  obtain ⟨hx, hblock, hassign, hassigned, -⟩ := environment_laws hm "x" (.int 2)
  obtain ⟨hy, -⟩ := environment_laws hm "y" (.int 2)
  obtain ⟨-, -, hrepeated⟩ := hx .int
  obtain ⟨hdeclare, hdeclared, -⟩ := hy .float
  obtain ⟨m₁, h₁⟩ := hassign.2 ⟨⟨.float, .float 1.5⟩, rfl, rfl⟩
  obtain ⟨b, w, hb, hw, hfound, -, hrebinds⟩ := hassigned m₁ h₁
  cases hb
  cases hw
  obtain ⟨m₂, h₂⟩ := hdeclare.2 ⟨nofun, rfl, rfl⟩
  obtain ⟨⟨w', hw', hfound'⟩, hothers, -⟩ := hdeclared m₂ h₂
  cases hw'
  exact ⟨m, m₁, m₂, rfl, hm, h₁, hfound, hrebinds,
    (hrepeated _ m).2 ⟨rfl, .repeated nofun rfl rfl⟩, h₂, hfound', hothers "x" (by decide),
    hblock 0 _⟩

end Scriptlet
