import Scriptlet.Machine.Store

/-!
# Scriptlet.Proofs.Machine.Context

**Contexts.** A context lists the variables that are in reach at a point of a function: their names
and declared types, block by block. A frame has the context of its scopes. Assignments keep the
context of a frame, and a declaration does to it what it does to the frame.

A frame is sound if every variable holds a value of its declared type, which is never `void`.
-/

namespace Scriptlet

/-- The declared variables of the open blocks, the innermost block first. -/
abbrev Context := List (List (String × Ty))

namespace Context

/-- The declared type that a name has in the innermost of the blocks that declare it. -/
def type? (Γ : Context) (x : String) : Option Ty :=
  Γ.findSome? (·.lookup x)

/-- Declares a name in the innermost block, unless that block declares it already. -/
def declare? (Γ : Context) (x : String) (t : Ty) : Option Context :=
  match Γ with
  | [] => some [[(x, t)]]
  | γ :: rest => if (γ.lookup x).isSome then none else some (((x, t) :: γ) :: rest)

/-- A declaration in a block leaves the blocks around it alone. -/
theorem tail_declare? {Γ Γ' : Context} {γ : List (String × Ty)} {x : String} {t : Ty}
    (h : declare? (γ :: Γ) x t = some Γ') : ∃ γ', Γ' = γ' :: Γ := by
  rw [declare?] at h
  split at h
  · cases h
  · cases h
    exact ⟨_, rfl⟩

end Context

/-! ### The context of a frame -/

/-- The declared variables of a scope. -/
def Scope.types (s : Scope) : List (String × Ty) :=
  s.map fun d => (d.1, d.2.type)

/-- The declared variables of a frame. -/
def Frame.context (f : Frame) : Context :=
  f.scopes.map Scope.types

namespace Scope

theorem lookup_types (s : Scope) (x : String) :
    s.types.lookup x = (s.find? x).map Binding.type := by
  induction s with
  | nil => rfl
  | cons d rest ih =>
    rw [types, List.map_cons, find?, List.lookup_cons, List.lookup_cons]
    cases x == d.1 with
    | true => rfl
    | false => exact ih

theorem types_set (x : String) (v : Value) (s : Scope) : (s.set x v).types = s.types := by
  induction s with
  | nil => rfl
  | cons d rest ih =>
    rw [set]
    split
    · rfl
    · exact congrArg ((d.1, d.2.type) :: ·) ih

end Scope

namespace Frame

/-- A name has the type of its binding. -/
theorem type?_context (f : Frame) (x : String) :
    f.context.type? x = (f.lookup? x).map Binding.type := by
  rw [Context.type?, lookup?, context]
  induction f.scopes with
  | nil => rfl
  | cons s rest ih =>
    rw [List.map_cons, List.findSome?_cons, List.findSome?_cons, Scope.lookup_types]
    cases s.find? x with
    | none => exact ih
    | some b => rfl

theorem context_set (f : Frame) (x : String) (v : Value) : (f.set x v).context = f.context := by
  rw [context, set, context]
  induction f.scopes with
  | nil => rfl
  | cons s rest ih =>
    rw [setIn]
    split
    · rw [List.map_cons, List.map_cons, Scope.types_set]
    · rw [List.map_cons, List.map_cons, ih]

/-- A frame takes a declaration exactly if its context does. -/
theorem context_declare? (f : Frame) (x : String) (b : Binding) :
    (f.declare? x b).map context = f.context.declare? x b.type := by
  obtain ⟨name, _ | ⟨s, rest⟩⟩ := f
  · rfl
  · simp only [declare?, context, Context.declare?, List.map_cons, Scope.lookup_types,
      Option.isSome_map]
    split
    · rfl
    · rfl

end Frame

/-! ### Sound bindings -/

/-- The variable holds a value of its declared type. -/
structure Binding.Sound (b : Binding) : Prop where
  not_void : b.type ≠ .void
  type_eq : b.value.type = b.type

/-- Every variable of the scope is sound. -/
def Scope.Sound (s : Scope) : Prop :=
  ∀ d ∈ s, d.2.Sound

/-- Every variable of the frame is sound. -/
def Frame.Sound (f : Frame) : Prop :=
  ∀ s ∈ f.scopes, s.Sound

namespace Scope.Sound

variable {s : Scope} {x : String} {v : Value} {b : Binding}

theorem find? (h : s.Sound) (hb : s.find? x = some b) : b.Sound := by
  rw [Scope.find?, List.lookup_eq_some_iff] at hb
  obtain ⟨before, after, rfl, -⟩ := hb
  exact h _ (List.mem_append_right _ (List.mem_cons_self ..))

theorem cons (h : s.Sound) (hb : b.Sound) : Scope.Sound ((x, b) :: s) :=
  List.forall_mem_cons.2 ⟨hb, h⟩

/-- A value of the right type can be assigned. -/
theorem set (h : s.Sound) (hv : ∀ b, s.find? x = some b → v.type = b.type) :
    (s.set x v).Sound := by
  induction s with
  | nil => exact h
  | cons d rest ih =>
    obtain ⟨y, b⟩ := d
    obtain ⟨hb, hrest⟩ := List.forall_mem_cons.1 h
    rw [Scope.find?, List.lookup_cons] at hv
    rw [Scope.set]
    split
    · rename_i hyx
      rw [beq_iff_eq.2 hyx.symm] at hv
      exact cons hrest ⟨hb.not_void, hv b rfl⟩
    · rename_i hyx
      rw [beq_eq_false_iff_ne.2 fun heq => hyx heq.symm] at hv
      exact cons (ih hrest hv) hb

end Scope.Sound

namespace Frame.Sound

variable {f f' : Frame} {x : String} {v : Value} {b : Binding}

theorem lookup? (h : f.Sound) (hb : f.lookup? x = some b) : b.Sound := by
  obtain ⟨s, hs, hfind⟩ := List.exists_of_findSome?_eq_some hb
  exact (h s hs).find? hfind

/-- A value of the right type can be assigned. -/
theorem set (h : f.Sound) (hv : ∀ b, f.lookup? x = some b → v.type = b.type) :
    (f.set x v).Sound := by
  -- the induction is on the scopes, which a frame only wraps
  obtain ⟨name, scopes⟩ := f
  change ∀ b, scopes.findSome? (·.find? x) = some b → v.type = b.type at hv
  change ∀ s ∈ scopes, s.Sound at h
  change ∀ s ∈ setIn x v scopes, s.Sound
  induction scopes with
  | nil => exact h
  | cons s rest ih =>
    obtain ⟨hs, hrest⟩ := List.forall_mem_cons.1 h
    rw [List.findSome?_cons] at hv
    rw [setIn]
    cases hfind : s.find? x with
    | none =>
      rw [hfind] at hv
      exact List.forall_mem_cons.2 ⟨hs, ih hv hrest⟩
    | some b =>
      rw [hfind] at hv
      refine List.forall_mem_cons.2 ⟨hs.set fun b' hb' => ?_, hrest⟩
      rw [hfind] at hb'
      exact hv b' hb'

theorem declare? (h : f.Sound) (hb : b.Sound) (hf : f.declare? x b = some f') : f'.Sound := by
  obtain ⟨name, _ | ⟨s, rest⟩⟩ := f
  · cases hf
    exact List.forall_mem_cons.2 ⟨List.forall_mem_cons.2 ⟨hb, nofun⟩, nofun⟩
  · obtain ⟨hs, hrest⟩ := List.forall_mem_cons.1 h
    simp only [Frame.declare?] at hf
    split at hf
    · cases hf
    · cases hf
      exact List.forall_mem_cons.2 ⟨hs.cons hb, hrest⟩

theorem pushScope (h : f.Sound) : f.pushScope.Sound :=
  List.forall_mem_cons.2 ⟨nofun, h⟩

theorem popScope (h : f.Sound) : f.popScope.Sound :=
  fun s hs => h s (List.mem_of_mem_tail hs)

end Frame.Sound

end Scriptlet
