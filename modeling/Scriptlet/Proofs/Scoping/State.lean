import Scriptlet.Proofs.Machine.Context
import Scriptlet.Proofs.Machine.Outcome
import Scriptlet.Proofs.Scoping.Rules

/-!
# Scriptlet.Proofs.Scoping.State

**Machines with known names.** At a point of a function where the declared names of the open blocks
are known, the scopes of the newest frame bind exactly these. So a variable in reach is found there,
and a name that the innermost block has not declared is free.

Values are of no account for that. Everything that can go wrong with them is a fault of another
kind, which `NoNameFault` says of each computation on values.
-/

namespace Scriptlet

/-! ### Faults -/

/-- Whether a fault is that a variable is not declared, or declared already. -/
def Fault.isNameFault : Fault → Bool
  | undefinedVariable _ | duplicateDeclaration _ => true
  | _ => false

/-- A fault that well-scoped programs can have. -/
def OtherFault (cause : Fault) (_ : Machine) : Prop :=
  cause.isNameFault = false

/-- The computation has a value or stops with another fault than a name fault. -/
def NoNameFault {α : Type} : Except Fault α → Prop
  | .ok _ => True
  | .error cause => cause.isNameFault = false

theorem NoNameFault.bind {α β : Type} {x : Except Fault α} {k : α → Except Fault β}
    (hx : NoNameFault x) (hk : ∀ a, NoNameFault (k a)) : NoNameFault (x >>= k) := by
  cases x with
  | ok a => exact hk a
  | error cause => exact hx

theorem NoNameFault.error {α : Type} {x : Except Fault α} {cause : Fault} (hx : NoNameFault x)
    (h : x = .error cause) : cause.isNameFault = false := by
  subst h
  exact hx

namespace Value

theorem conform_noNameFault (slot : Slot) (t : Ty) (v : Value) :
    NoNameFault (v.conform slot t) := by
  rw [conform.eq_def]
  split
  · trivial
  · split
    · trivial
    · rfl

theorem initial_noNameFault (t : Ty) : NoNameFault (initial t) := by
  cases t with
  | void => rfl
  | _ => trivial

theorem toBool_noNameFault (place : TestPlace) (v : Value) : NoNameFault (v.toBool place) := by
  cases v with
  | bool b => trivial
  | _ => rfl

theorem ofExact_noNameFault (n : Int) : NoNameFault (ofExact n) := by
  rw [ofExact]
  split
  · trivial
  · rfl

theorem intArithmetic_noNameFault (op : BinOp) (a b : Int64) :
    NoNameFault (intArithmetic op a b) := by
  cases op with
  | add => exact ofExact_noNameFault _
  | sub => exact ofExact_noNameFault _
  | mul => exact ofExact_noNameFault _
  | div =>
    simp only [intArithmetic]
    split
    · rfl
    · exact ofExact_noNameFault _
  | _ => rfl

theorem floatArithmetic_noNameFault (op : BinOp) (x y : Float) :
    NoNameFault (floatArithmetic op x y) := by
  cases op with
  | add => trivial
  | sub => trivial
  | mul => trivial
  | div =>
    simp only [floatArithmetic]
    split
    · rfl
    · trivial
  | _ => rfl

theorem arithmetic_noNameFault (op : BinOp) (l r : Value) : NoNameFault (arithmetic op l r) := by
  rw [arithmetic.eq_def]
  split
  · exact intArithmetic_noNameFault op _ _
  · exact floatArithmetic_noNameFault op _ _
  · exact floatArithmetic_noNameFault op _ _
  · exact floatArithmetic_noNameFault op _ _
  · split
    · trivial
    · rfl
  · rfl

theorem comparison_noNameFault (op : BinOp) (l r : Value) : NoNameFault (comparison op l r) := by
  rw [comparison.eq_def]
  split
  · trivial
  · trivial
  · trivial
  · trivial
  · trivial
  · split
    · trivial
    · rfl
  · rfl

theorem logic_noNameFault (op : BinOp) (l r : Value) : NoNameFault (logic op l r) := by
  refine (toBool_noNameFault _ l).bind fun a => (toBool_noNameFault _ r).bind fun b => ?_
  cases op with
  | and => trivial
  | or => trivial
  | _ => rfl

theorem binary_noNameFault (op : BinOp) (l r : Value) : NoNameFault (binary op l r) := by
  rw [binary]
  split
  · exact arithmetic_noNameFault op l r
  · exact comparison_noNameFault op l r
  · exact logic_noNameFault op l r

theorem step_noNameFault (s : Step) (v : Value) : NoNameFault (v.step s) := by
  cases v with
  | int n =>
    cases s with
    | increment => exact ofExact_noNameFault _
    | decrement => exact ofExact_noNameFault _
  | float x =>
    cases s with
    | increment => trivial
    | decrement => trivial
  | _ => rfl

end Value

namespace Function

theorem checkParams_noNameFault (function : String) (seen : List String) (ps : List Param) :
    NoNameFault (checkParams function seen ps) := by
  induction ps generalizing seen with
  | nil => trivial
  | cons q rest ih =>
    rw [checkParams]
    split
    · rfl
    · split
      · rfl
      · exact ih _

theorem bindParams_noNameFault (ps : List Param) (vs : List Value) :
    NoNameFault (bindParams ps vs) := by
  induction ps generalizing vs with
  | nil => trivial
  | cons q rest ih =>
    cases vs with
    | nil => trivial
    | cons v vs =>
      exact (Value.conform_noNameFault _ _ v).bind fun _ => (ih vs).bind fun _ => trivial

theorem enter_noNameFault (f : Function) (args : List Value) : NoNameFault (f.enter args) := by
  rw [enter]
  split
  · rfl
  · exact (checkParams_noNameFault _ _ _).bind fun _ =>
      (bindParams_noNameFault _ _).bind fun _ => trivial

theorem resultOf_noNameFault (f : Function) (flow : Flow) : NoNameFault (f.resultOf flow) := by
  cases flow with
  | next => trivial
  | returned v => exact Value.conform_noNameFault _ _ v

end Function

/-! ### Frames -/

/-- The names that the scopes of a frame bind. -/
def Frame.names (f : Frame) : Blocks :=
  f.context.map (·.map Prod.fst)

namespace Frame

theorem names_set (f : Frame) (x : String) (v : Value) : (f.set x v).names = f.names := by
  rw [names, context_set, names]

theorem names_pushScope (f : Frame) : f.pushScope.names = [] :: f.names := rfl

theorem names_popScope (f : Frame) : f.popScope.names = f.names.tail := by
  rw [names, names, context, context, ← List.map_tail, ← List.map_tail]
  rfl

/-- A name in reach is bound. -/
theorem isSome_lookup? {f : Frame} {x : String} (h : x ∈ f.names.flatten) :
    (f.lookup? x).isSome := by
  obtain ⟨γ, hγ, hx⟩ := List.mem_flatten.1 h
  obtain ⟨types, htypes, rfl⟩ := List.mem_map.1 hγ
  obtain ⟨d, hd, rfl⟩ := List.mem_map.1 hx
  have hfound : (types.lookup d.1).isSome := List.lookup_isSome_iff.2 ⟨d, hd, beq_self_eq_true _⟩
  have htype : (f.context.type? d.1).isSome := List.findSome?_isSome_iff.2 ⟨types, htypes, hfound⟩
  rwa [type?_context, Option.isSome_map] at htype

/-- A name that the innermost scope does not bind can be declared in it. -/
theorem exists_declare? {f : Frame} {x : String} {Γ : Blocks} {γ : List String}
    (h : f.names = γ :: Γ) (hx : x ∉ γ) (b : Binding) :
    ∃ f', f.declare? x b = some f' ∧ f'.names = (x :: γ) :: Γ := by
  obtain ⟨types, context, hcontext, rfl, rfl⟩ := List.map_eq_cons_iff.1 h
  have hfree : types.lookup x = none := by
    refine List.lookup_eq_none_iff.2 fun d hd => bne_iff_ne.2 ?_
    rintro rfl
    exact hx (List.mem_map_of_mem hd)
  have hdeclare : f.context.declare? x b.type = some (((x, b.type) :: types) :: context) := by
    rw [hcontext, Context.declare?, hfree]
    rfl
  rw [← context_declare?, Option.map_eq_some_iff] at hdeclare
  obtain ⟨f', hf', hcontext'⟩ := hdeclare
  refine ⟨f', hf', ?_⟩
  rw [names, hcontext']
  rfl

end Frame

namespace Function

theorem bindParams_names {ps : List Param} {vs : List Value} {scope : Scope}
    (hlength : vs.length = ps.length) (h : bindParams ps vs = .ok scope) :
    scope.map Prod.fst = ps.map Param.name := by
  induction ps generalizing vs scope with
  | nil =>
    cases h
    rfl
  | cons q rest ih =>
    cases vs with
    | nil => cases hlength
    | cons v vs =>
      obtain ⟨w, s, -, hbind, rfl⟩ := bindParams_cons_eq_ok h
      exact congrArg (q.name :: ·) (ih (Nat.succ.inj hlength) hbind)

/-- A call that starts has an argument for every parameter. -/
theorem length_of_enter {f : Function} {args : List Value} {frame : Frame}
    (h : f.enter args = .ok frame) : args.length = f.params.length := by
  rw [enter] at h
  split at h
  · cases h
  · exact Decidable.not_not.1 ‹_›

/-- The body of a function starts with the parameters as the names of its block. -/
theorem enter_names {f : Function} {args : List Value} {frame : Frame}
    (h : f.enter args = .ok frame) : frame.names = [f.params.map Param.name] := by
  obtain ⟨-, scope, hbind, rfl⟩ := enter_eq_ok h
  rw [← bindParams_names (length_of_enter h) hbind, Frame.names, Frame.context, List.map_map]
  simp [Scope.types]

end Function

/-! ### Machines -/

/-- The functions of the machine are well scoped, and its newest frame, above the frames `below`,
binds the names `Γ`. -/
structure Machine.WellScoped (below : List Frame) (Γ : Blocks) (m : Machine) : Prop where
  functions : ∀ f ∈ m.functions, f.wellScoped
  frames : m.frames = m.top :: below
  names : m.top.names = Γ

variable {below : List Frame} {Γ Γ' : Blocks} {γ : List String} {m m' : Machine} {x : String}

namespace Machine.WellScoped

/-- The newest frame can be replaced by one that brings its own names. -/
theorem mapTop (h : m.WellScoped below Γ) (g : Frame → Frame) (hnames : (g m.top).names = Γ') :
    (m.mapTop g).WellScoped below Γ' where
  functions := h.functions
  frames := by rw [frames_mapTop, top_mapTop, h.frames, List.tail_cons]
  names := by rw [top_mapTop, hnames]

theorem pushScope (h : m.WellScoped below Γ) : m.pushScope.WellScoped below ([] :: Γ) :=
  h.mapTop _ (by rw [Frame.names_pushScope, h.names])

theorem popScope (h : m.WellScoped below Γ) : m.popScope.WellScoped below Γ.tail :=
  h.mapTop _ (by rw [Frame.names_popScope, h.names])

/-- A call starts above the frames of its caller. -/
theorem pushFrame {f : Frame} (h : m.WellScoped below Γ) (hnames : f.names = Γ') :
    (m.pushFrame f).WellScoped m.frames Γ' :=
  ⟨h.functions, rfl, hnames⟩

/-- A call that ends uncovers the frame of its caller. -/
theorem popFrame (h : m.WellScoped below Γ) (h' : m'.WellScoped m.frames Γ') :
    m'.popFrame.WellScoped below Γ := by
  have hframes : m'.popFrame.frames = m.frames := congrArg List.tail h'.frames
  have htop : m'.popFrame.top = m.top := congrArg (·.headD .toplevel) hframes
  exact ⟨h'.functions, by rw [hframes, htop, h.frames], by rw [htop, h.names]⟩

/-- A variable in reach has a binding. -/
theorem exists_lookup? (h : m.WellScoped below Γ) (hx : x ∈ Γ.flatten) :
    ∃ b, m.top.lookup? x = some b := by
  rw [← h.names] at hx
  exact Option.isSome_iff_exists.1 (Frame.isSome_lookup? hx)

end Machine.WellScoped

/-! ### Variables -/

namespace Action

theorem lookup_wellScoped (hx : x ∈ Γ.flatten) (h : m.WellScoped below Γ) :
    (lookup x m).Meets (fun _ m' => m'.WellScoped below Γ) OtherFault := by
  obtain ⟨b, hb⟩ := h.exists_lookup? hx
  simp only [lookup, h.frames, hb]
  exact h

theorem assign_wellScoped (hx : x ∈ Γ.flatten) (v : Value) (h : m.WellScoped below Γ) :
    (assign x v m).Meets (fun _ m' => m'.WellScoped below Γ) OtherFault := by
  obtain ⟨b, hb⟩ := h.exists_lookup? hx
  simp only [assign, hb]
  cases hconform : v.conform (.variable x) b.type with
  | error cause => exact (Value.conform_noNameFault _ _ v).error hconform
  | ok w => exact h.mapTop _ ((Frame.names_set _ x w).trans h.names)

theorem declare_wellScoped (hx : x ∉ γ) (t : Ty) (v : Value) (h : m.WellScoped below (γ :: Γ)) :
    (declare x t v m).Meets (fun _ m' => m'.WellScoped below ((x :: γ) :: Γ)) OtherFault := by
  rw [declare]
  split
  · rfl
  · cases hconform : v.conform (.variable x) t with
    | error cause => exact (Value.conform_noNameFault _ _ v).error hconform
    | ok w =>
      obtain ⟨f, hf, hnames⟩ := Frame.exists_declare? h.names hx ⟨t, w⟩
      simp only [hf]
      exact h.mapTop _ hnames

/-- A computation on values leaves the machine alone. -/
theorem ofExcept_wellScoped {α : Type} {r : Except Fault α} (hr : NoNameFault r)
    (h : m.WellScoped below Γ) :
    (ofExcept r m).Meets (fun _ m' => m'.WellScoped below Γ) OtherFault :=
  meets_ofExcept (fun _ _ => h) fun _ hcause => hr.error hcause

end Action

end Scriptlet
