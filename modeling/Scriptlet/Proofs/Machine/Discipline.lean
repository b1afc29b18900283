import Mathlib.Data.List.Forall2
import Scriptlet.Proofs.Machine.Context
import Scriptlet.Proofs.Machine.Effect

/-!
# Scriptlet.Proofs.Machine.Discipline

**Stack discipline.** Whatever a program does, and however it ends, the stack of calls is as it was
before: the same frames below the newest one, and the newest one with the same number of scopes. In
those no variable is lost or changes its type, and only the innermost scope may have new variables,
which the statements themselves declare. Functions and options stay, and the console only grows.

`Machine.Keeps names` is this relation between two machines. It is an effect (`effect_keeps`), so it
holds of expressions, statements and calls.
-/

namespace Scriptlet

/-- The scope `s'` has the variables of `s`, with the same types, and apart from them only variables
with a name in `names`. -/
structure Scope.Grows (names : List String) (s s' : Scope) : Prop where
  kept : ∀ x b, s.find? x = some b → ∃ b', s'.find? x = some b' ∧ b'.type = b.type
  added : ∀ x b', s'.find? x = some b' → (s.find? x).isSome ∨ x ∈ names

/-- The frame `f'` belongs to the same call as `f` and has the same open blocks. Only the innermost
may have new variables, with names in `names`. -/
structure Frame.Grows (names : List String) (f f' : Frame) : Prop where
  function : f'.function = f.function
  scopes : ∃ s rest s' rest', f.scopes = s :: rest ∧ f'.scopes = s' :: rest' ∧
    s.Grows names s' ∧ List.Forall₂ (Scope.Grows []) rest rest'

namespace Machine

/-- A call is active, and a block is open in it. -/
structure InScope (m : Machine) : Prop where
  frames_ne : m.frames ≠ []
  scopes_ne : m.top.scopes ≠ []

/-- The machine `m'` has the stack of `m`, except that values may differ in the newest frame and
variables with a name in `names` may have been declared in its innermost block. -/
structure Keeps (names : List String) (m m' : Machine) : Prop where
  functions : m'.functions = m.functions
  options : m'.options = m.options
  console : m.console.toList <+: m'.console.toList
  count : m'.frames.length = m.frames.length
  below : m'.frames.tail = m.frames.tail
  top : m.top.Grows names m'.top

end Machine

/-! ### Scopes -/

namespace Scope.Grows

variable {names names' : List String} {s s' s₁ : Scope}

/-- Only the declared variables matter. -/
theorem of_types (h : s'.types = s.types) (names : List String) : s.Grows names s' := by
  have hlookup : ∀ x, (s'.find? x).map Binding.type = (s.find? x).map Binding.type := by
    intro x
    rw [← Scope.lookup_types, ← Scope.lookup_types, h]
  refine ⟨fun x b hb => ?_, fun x b' hb' => .inl ?_⟩
  · have hx := hlookup x
    rwa [hb, Option.map_some, Option.map_eq_some_iff] at hx
  · have hx := hlookup x
    rw [hb', Option.map_some, eq_comm, Option.map_eq_some_iff] at hx
    obtain ⟨b, hb, -⟩ := hx
    rw [hb]
    rfl

theorem refl (names : List String) (s : Scope) : s.Grows names s :=
  of_types rfl names

theorem trans (h : s.Grows names s₁) (h' : s₁.Grows names' s') :
    s.Grows (names ++ names') s' := by
  refine ⟨fun x b hb => ?_, fun x b' hb' => ?_⟩
  · obtain ⟨b₁, hb₁, htype₁⟩ := h.kept x b hb
    obtain ⟨b', hb', htype'⟩ := h'.kept x b₁ hb₁
    exact ⟨b', hb', htype'.trans htype₁⟩
  · rcases h'.added x b' hb' with hsome | hx
    · obtain ⟨b₁, hb₁⟩ := Option.isSome_iff_exists.1 hsome
      exact (h.added x b₁ hb₁).imp_right (List.mem_append_left _)
    · exact .inr (List.mem_append_right _ hx)

/-- A declaration adds its name. -/
theorem cons {x : String} (h : s.find? x = none) (b : Binding) : s.Grows [x] ((x, b) :: s) := by
  refine ⟨fun y c hc => ⟨c, ?_, rfl⟩, fun y c hc => ?_⟩
  · have hne : y ≠ x := by
      rintro rfl
      rw [h] at hc
      cases hc
    rw [Scope.find?, List.lookup_cons, beq_eq_false_iff_ne.2 hne]
    exact hc
  · by_cases hyx : y = x
    · exact .inr (List.mem_singleton.2 hyx)
    · rw [Scope.find?, List.lookup_cons, beq_eq_false_iff_ne.2 hyx] at hc
      exact .inl (Option.isSome_iff_exists.2 ⟨c, hc⟩)

theorem forall₂_trans {ss ss₁ ss' : List Scope} (h : List.Forall₂ (Scope.Grows []) ss ss₁)
    (h' : List.Forall₂ (Scope.Grows []) ss₁ ss') : List.Forall₂ (Scope.Grows []) ss ss' := by
  induction h generalizing ss' with
  | nil => exact h'
  | cons hs _ ih =>
    obtain ⟨s', rest', hs', hrest', rfl⟩ := List.forall₂_cons_left_iff.1 h'
    exact .cons (hs.trans hs') (ih hrest')

end Scope.Grows

/-! ### Frames -/

namespace Frame.Grows

variable {names names' : List String} {f f' f₁ : Frame}

/-- A frame whose variables have the same types keeps its scopes. -/
theorem of_context (hne : f.scopes ≠ []) (hfunction : f'.function = f.function)
    (h : f'.context = f.context) (names : List String) : f.Grows names f' := by
  refine ⟨hfunction, ?_⟩
  obtain ⟨s, rest, hscopes⟩ := List.exists_cons_of_ne_nil hne
  rw [context, context, hscopes, List.map_cons, List.map_eq_cons_iff] at h
  obtain ⟨s', rest', hscopes', hs, hrest⟩ := h
  refine ⟨s, rest, s', rest', hscopes, hscopes', .of_types hs names, ?_⟩
  rw [← List.forall₂_eq_eq_eq, List.forall₂_map_left_iff, List.forall₂_map_right_iff] at hrest
  exact hrest.flip.imp fun _ _ heq => .of_types heq []

theorem refl (hne : f.scopes ≠ []) (names : List String) : f.Grows names f :=
  of_context hne rfl rfl names

theorem trans (h : f.Grows names f₁) (h' : f₁.Grows names' f') :
    f.Grows (names ++ names') f' := by
  refine ⟨h'.function.trans h.function, ?_⟩
  obtain ⟨s, rest, s₁, rest₁, hscopes, hscopes₁, hs, hrest⟩ := h.scopes
  obtain ⟨t₁, rest₂, s', rest', hscopes₂, hscopes', hs', hrest'⟩ := h'.scopes
  rw [hscopes₁] at hscopes₂
  cases hscopes₂
  exact ⟨s, rest, s', rest', hscopes, hscopes', hs.trans hs',
    Scope.Grows.forall₂_trans hrest hrest'⟩

theorem declare? {x : String} {b : Binding} (hne : f.scopes ≠ [])
    (h : f.declare? x b = some f') : f.Grows [x] f' := by
  obtain ⟨name, scopes⟩ := f
  obtain ⟨s, rest, rfl⟩ := List.exists_cons_of_ne_nil hne
  simp only [Frame.declare?] at h
  split at h
  · cases h
  · rename_i hnone
    cases h
    refine ⟨rfl, s, rest, (x, b) :: s, rest, rfl, rfl, .cons (by simpa using hnone) b, ?_⟩
    exact List.forall₂_same.2 fun t _ => .refl [] t

/-- A block that is closed leaves the blocks around it. -/
theorem popScope (hne : f.scopes ≠ []) (h : f.pushScope.Grows names f') :
    f.Grows [] f'.popScope := by
  obtain ⟨hfunction, s, rest, s', rest', hscopes, hscopes', -, hrest⟩ := h
  obtain ⟨t, ts, hts⟩ := List.exists_cons_of_ne_nil hne
  obtain ⟨-, rfl⟩ : [] = s ∧ f.scopes = rest := List.cons.inj hscopes
  rw [hts, List.forall₂_cons_left_iff] at hrest
  obtain ⟨t', ts', ht, hts', rfl⟩ := hrest
  exact ⟨hfunction, t, ts, t', ts', hts, congrArg List.tail hscopes', ht, hts'⟩

theorem scopes_ne (h : f.Grows names f') : f'.scopes ≠ [] := by
  obtain ⟨_, _, _, _, -, hscopes', -, -⟩ := h.scopes
  rw [hscopes']
  exact List.cons_ne_nil _ _

end Frame.Grows

/-! ### Machines -/

namespace Machine

variable {names names' : List String} {m m' m₁ : Machine}

theorem InScope.frames_eq (h : m.InScope) : m.frames = m.top :: m.frames.tail := by
  obtain ⟨f, rest, hframes⟩ := List.exists_cons_of_ne_nil h.frames_ne
  have htop : m.top = f := congrArg (·.headD .toplevel) hframes
  rw [htop, hframes, List.tail_cons]

theorem inScope_pushScope (m : Machine) : m.pushScope.InScope where
  frames_ne := by
    rw [Machine.pushScope, frames_mapTop]
    exact List.cons_ne_nil _ _
  scopes_ne := by
    rw [Machine.pushScope, top_mapTop]
    exact List.cons_ne_nil _ _

namespace Keeps

/-- The newest frame can be replaced by one that grows from it. -/
theorem mapTop (h : m.InScope) {g : Frame → Frame} (hg : m.top.Grows names (g m.top)) :
    m.Keeps names (m.mapTop g) where
  functions := rfl
  options := rfl
  console := List.prefix_rfl
  count := by
    rw [frames_mapTop, List.length_cons, h.frames_eq, List.length_cons, List.tail_cons]
  below := by rw [frames_mapTop, List.tail_cons]
  top := by rwa [top_mapTop]

theorem refl (h : m.InScope) (names : List String) : m.Keeps names m :=
  ⟨rfl, rfl, List.prefix_rfl, rfl, rfl, .refl h.scopes_ne names⟩

theorem trans (h : m.Keeps names m₁) (h' : m₁.Keeps names' m') : m.Keeps (names ++ names') m' where
  functions := h'.functions.trans h.functions
  options := h'.options.trans h.options
  console := h.console.trans h'.console
  count := h'.count.trans h.count
  below := h'.below.trans h.below
  top := h.top.trans h'.top

theorem inScope (h : m.Keeps names m') (hm : m.InScope) : m'.InScope where
  frames_ne hnil := by
    have hcount := h.count
    rw [hnil] at hcount
    exact hm.frames_ne (List.length_eq_zero_iff.1 hcount.symm)
  scopes_ne := h.top.scopes_ne

/-- What is left of a block when it is closed. -/
theorem popScope (h : m.pushScope.Keeps names m') (hm : m.InScope) : m.Keeps [] m'.popScope where
  functions := h.functions
  options := h.options
  console := h.console
  count := by
    have hcount := h.count
    rw [(h.inScope (inScope_pushScope m)).frames_eq, (inScope_pushScope m).frames_eq,
      List.length_cons, List.length_cons, Machine.pushScope, frames_mapTop,
      List.tail_cons] at hcount
    rw [Machine.popScope, frames_mapTop, List.length_cons, hcount, hm.frames_eq, List.length_cons,
      List.tail_cons]
  below := by
    have hbelow := h.below
    rw [Machine.pushScope, frames_mapTop, List.tail_cons] at hbelow
    rw [Machine.popScope, frames_mapTop, List.tail_cons, hbelow]
  top := by
    have htop := h.top
    rw [Machine.pushScope, top_mapTop] at htop
    rw [Machine.popScope, top_mapTop]
    exact htop.popScope hm.scopes_ne

/-- The frames of a caller are as it left them when its call is over. -/
theorem frames_popFrame {frame : Frame} (h : (m.pushFrame frame).Keeps names m') :
    m'.popFrame.frames = m.frames :=
  h.below

theorem popFrame {frame : Frame} (h : (m.pushFrame frame).Keeps names m') (hm : m.InScope) :
    m.Keeps [] m'.popFrame := by
  have hframes : m'.popFrame.frames = m.frames := h.frames_popFrame
  have htop : m'.popFrame.top = m.top := congrArg (·.headD .toplevel) hframes
  exact ⟨h.functions, h.options, h.console, congrArg List.length hframes,
    congrArg List.tail hframes, htop ▸ .refl hm.scopes_ne []⟩

end Keeps

/-- A call starts with one scope, that of its parameters. -/
theorem inScope_enter {f : Function} {args : List Value} {frame : Frame}
    (h : f.enter args = .ok frame) (m : Machine) : (m.pushFrame frame).InScope := by
  obtain ⟨-, scope, -, rfl⟩ := Function.enter_eq_ok h
  exact ⟨List.cons_ne_nil _ _, List.cons_ne_nil _ _⟩

/-- **Stack discipline** as an effect. -/
theorem effect_keeps : Effect fun names m m' => m.InScope → m.Keeps names m' where
  refl names m hm := .refl hm names
  trans h h' hm := (h hm).trans (h' ((h hm).inScope hm))
  assign x v m := by
    have hid : m.InScope → m.Keeps [] (m.mapTop id) := fun hm =>
      .mapTop hm (.refl hm.scopes_ne [])
    rw [Action.assign]
    split
    · exact hid
    · split
      · exact hid
      · rename_i w _
        intro hm
        refine .mapTop hm (.of_context hm.scopes_ne ?_ (Frame.context_set m.top x w) [])
        rfl
  declare x t v m := by
    rw [Action.declare]
    split
    · exact fun hm => .refl hm [x]
    · split
      · exact fun hm => .refl hm [x]
      · split
        · rename_i hf
          exact fun hm => .mapTop hm (.declare? hm.scopes_ne hf)
        · exact fun hm => .refl hm [x]
  block h hm := (h (inScope_pushScope _)).popScope hm
  printLine line m hm := ⟨rfl, rfl, by simp [printLine], rfl, rfl, .refl hm.scopes_ne []⟩
  call henter h hm := (h (inScope_enter henter _)).popFrame hm

end Machine

/-- A call does not reach the frames that are there when it starts. -/
theorem invoke_leaves_frames (fuel : Nat) (f : Function) (args : List Value) (m : Machine) :
    (invoke fuel f args m).Leaves fun m' => m'.frames = m.frames := by
  cases fuel with
  | zero => exact trivial
  | succ n =>
    refine f.activate_leaves rfl fun frame hframe => ?_
    have hbody := Machine.effect_keeps.execAll (Machine.effect_keeps.callWithin n) n f.body
      (m.pushFrame frame)
    exact hbody.mono fun _ h => (h (Machine.inScope_enter hframe m)).frames_popFrame

/-- **Stack discipline.** In a machine where a block of a call is open, everything that can be run
keeps the stack, whether it succeeds or stops with a fault. Only statements add variables, those
that they declare themselves, to the innermost block. A call leaves all frames as they were, with
their values. -/
theorem run_keeps_stack {m : Machine} (hm : m.InScope) (fuel bound : Nat) :
    (∀ e : Expr, (e.eval (callWithin fuel) m).Leaves (m.Keeps [])) ∧
    (∀ s : Stmt, (s.exec (callWithin fuel) bound m).Leaves (m.Keeps s.declared)) ∧
    (∀ ss : List Stmt,
      (Stmt.execAll (callWithin fuel) bound ss m).Leaves (m.Keeps (Stmt.declaredAll ss)) ∧
      (Action.inBlock (Stmt.execAll (callWithin fuel) bound ss) m).Leaves (m.Keeps [])) ∧
    (∀ (name : String) (args : List Value), (callWithin fuel name args m).Leaves (m.Keeps [])) ∧
    ∀ (f : Function) (args : List Value),
      (invoke fuel f args m).Leaves fun m' => m.Keeps [] m' ∧ m'.frames = m.frames := by
  have hR := Machine.effect_keeps
  have hcall := hR.callWithin fuel
  refine ⟨fun e => ?eval, fun s => ?exec, fun ss => ⟨?execAll, ?block⟩, fun name args => ?call,
    fun f args => ?invoke⟩
  case eval => exact (hR.eval hcall e m).mono fun _ h => h hm
  case exec => exact (hR.exec hcall bound s m).mono fun _ h => h hm
  case execAll => exact (hR.execAll hcall bound ss m).mono fun _ h => h hm
  case block =>
    exact (hR.inBlock (hR.execAll hcall bound ss m.pushScope)).mono fun _ h => h hm
  case call => exact (hcall name args m).mono fun _ h => h hm
  case invoke =>
    exact ((hR.invoke fuel f args m).and (invoke_leaves_frames fuel f args m)).mono
      fun _ h => ⟨h.1 hm, h.2⟩

/-- Stack discipline where a division by zero stops a callee, called from a block that declares a
variable of its own. -/
theorem run_keeps_stack_division :
    ∃ (m m' : Machine) (ss : List Stmt),
      ss = [.init .int "x" (.int 1),
        .branch (.bool true) [.init .int "y" (.call "f" [.var "x"])] [], .declare .int "z"] ∧
      m.InScope ∧ Stmt.execAll (callWithin 3) 3 ss m = .fault .divisionByZero m' ∧
      m.Keeps ["x", "z"] m' := by
  let f : Function :=
    ⟨.int, "f", [⟨.int, "n"⟩],
      [.eval (.step .decrement .before (.var "n")), .ret (.binary (.int 1) .div (.var "n"))]⟩
  let ss : List Stmt :=
    [.init .int "x" (.int 1), .branch (.bool true) [.init .int "y" (.call "f" [.var "x"])] [],
      .declare .int "z"]
  let m : Machine := { Machine.new {} with functions := [f] }
  have hm : m.InScope := ⟨List.cons_ne_nil _ _, List.cons_ne_nil _ _⟩
  obtain ⟨-, -, hstatements, -⟩ := run_keeps_stack hm 3 3
  exact ⟨m, _, ss, rfl, hm, rfl, (hstatements ss).1⟩

end Scriptlet
