import Scriptlet.Proofs.Machine.Discipline
import Scriptlet.Proofs.Machine.Environment

/-!
# Scriptlet.Proofs.Machine.Declarations

**What statements declare.** Whatever a part of a program does, and however it ends, the blocks of
the call keep their variables, and only its own declarations may have added some to the innermost
one; what nested blocks or callees declared is gone. This is the effect `Machine.Declares`.
Statements that are done have made all of their declarations, in their order, up to the one that
returned (`EndsAt.context`).
-/

namespace Scriptlet

namespace Stmt

/-- The variables that a statement declares in the block it stands in, with their types. -/
def declarations : Stmt → List (String × Ty)
  | .init t x _ => [(x, t)]
  | .declare t x => [(x, t)]
  | _ => []

/-- The variables that statements declare in the block they stand in. -/
def declarationsAll (ss : List Stmt) : List (String × Ty) :=
  ss.flatMap declarations

theorem declarationsAll_cons (s : Stmt) (ss : List Stmt) :
    declarationsAll (s :: ss) = s.declarations ++ declarationsAll ss := rfl

theorem reverse_declarations (s : Stmt) : s.declarations.reverse = s.declarations := by
  cases s <;> rfl

/-- A statement declares at most one name, so its names are distinct if no other has one of them. -/
theorem nodup_declarations {s : Stmt} {γ : List (String × Ty)}
    (hfree : ∀ d ∈ s.declarations, γ.lookup d.1 = none) (hγ : (γ.map Prod.fst).Nodup) :
    ((s.declarations ++ γ).map Prod.fst).Nodup := by
  have hcons {d : String × Ty} (hd : γ.lookup d.1 = none) : ((d :: γ).map Prod.fst).Nodup := by
    refine List.nodup_cons.2 ⟨fun hmem => ?_, hγ⟩
    obtain ⟨d', hd', heq⟩ := List.mem_map.1 hmem
    exact absurd heq.symm (by simpa using List.lookup_eq_none_iff.1 hd d' hd')
  cases s with
  | init t x e => exact hcons (hfree (x, t) (List.mem_singleton_self _))
  | declare t x => exact hcons (hfree (x, t) (List.mem_singleton_self _))
  | _ => exact hγ

end Stmt

/-! ### Contexts -/

namespace Frame

theorem context_pushScope (f : Frame) : f.pushScope.context = [] :: f.context := rfl

theorem context_popScope (f : Frame) : f.popScope.context = f.context.tail := by
  rw [context, context, ← List.map_tail]
  rfl

theorem context_extend {f : Frame} {γ : List (String × Ty)} {Γ : Context}
    (h : f.context = γ :: Γ) (x : String) (b : Binding) :
    (f.extend x b).context = ((x, b.type) :: γ) :: Γ := by
  obtain ⟨s, rest, hscopes, rfl, rfl⟩ := List.map_eq_cons_iff.1 h
  rw [context, extend, hscopes]
  rfl

theorem lookup_of_free {f : Frame} {γ : List (String × Ty)} {Γ : Context} {x : String}
    (h : f.context = γ :: Γ) (hx : f.binding? 0 x = none) : γ.lookup x = none := by
  obtain ⟨s, rest, hscopes, rfl, rfl⟩ := List.map_eq_cons_iff.1 h
  rw [binding?, hscopes] at hx
  have hs : s.find? x = none := hx
  rw [Scope.lookup_types, hs]
  rfl

theorem scopes_ne_of_context {f : Frame} {γ : List (String × Ty)} {Γ : Context}
    (h : f.context = γ :: Γ) : f.scopes ≠ [] := by
  obtain ⟨s, rest, hscopes, -, -⟩ := List.map_eq_cons_iff.1 h
  rw [hscopes]
  exact List.cons_ne_nil _ _

end Frame

namespace Machine

variable {m m' m₁ : Machine} {names names' : List String}

/-- The blocks of the newest frame of `m'` have the variables of those of `m`. Only the innermost
may have more, with names in `names`. The frames below are the same. -/
structure Declares (names : List String) (m m' : Machine) : Prop where
  frames_ne : m'.frames ≠ []
  below : m'.frames.tail = m.frames.tail
  context : ∃ added γ Γ, m.top.context = γ :: Γ ∧ m'.top.context = (added ++ γ) :: Γ ∧
    ∀ d ∈ added, d.1 ∈ names

theorem InScope.exists_context (hm : m.InScope) : ∃ γ Γ, m.top.context = γ :: Γ := by
  obtain ⟨s, rest, hscopes⟩ := List.exists_cons_of_ne_nil hm.scopes_ne
  rw [Frame.context, hscopes]
  exact ⟨_, _, rfl⟩

namespace Declares

theorem of_context (hm : m.InScope) (hne : m'.frames ≠ []) (hbelow : m'.frames.tail = m.frames.tail)
    (hcontext : m'.top.context = m.top.context) (names : List String) : m.Declares names m' := by
  obtain ⟨γ, Γ, hγ⟩ := hm.exists_context
  exact ⟨hne, hbelow, [], γ, Γ, hγ, hcontext.trans hγ, nofun⟩

theorem refl (hm : m.InScope) (names : List String) : m.Declares names m :=
  of_context hm hm.frames_ne rfl rfl names

theorem inScope (h : m.Declares names m') : m'.InScope := by
  obtain ⟨added, γ, Γ, -, hcontext, -⟩ := h.context
  exact ⟨h.frames_ne, Frame.scopes_ne_of_context hcontext⟩

theorem trans (h : m.Declares names m₁) (h' : m₁.Declares names' m') :
    m.Declares (names ++ names') m' := by
  refine ⟨h'.frames_ne, h'.below.trans h.below, ?_⟩
  obtain ⟨added, γ, Γ, hγ, hγ₁, hadded⟩ := h.context
  obtain ⟨added', γ', Γ', hγ', hγ'', hadded'⟩ := h'.context
  obtain ⟨rfl, rfl⟩ := List.cons.inj (hγ₁.symm.trans hγ')
  refine ⟨added' ++ added, γ, Γ, hγ, by rw [hγ'', List.append_assoc], fun d hd => ?_⟩
  rcases List.mem_append.1 hd with hd | hd
  · exact List.mem_append_right _ (hadded' d hd)
  · exact List.mem_append_left _ (hadded d hd)

/-- The newest frame can be replaced by one with the same variables. -/
theorem mapTop (hm : m.InScope) {g : Frame → Frame} (hg : (g m.top).context = m.top.context)
    (names : List String) : m.Declares names (m.mapTop g) := by
  refine of_context hm ?_ ?_ ?_ names
  · rw [frames_mapTop]
    exact List.cons_ne_nil _ _
  · rw [frames_mapTop, List.tail_cons]
  · rw [top_mapTop, hg]

theorem extend (hm : m.InScope) (x : String) (b : Binding) :
    m.Declares [x] (m.mapTop (.extend x b)) := by
  obtain ⟨γ, Γ, hγ⟩ := hm.exists_context
  refine ⟨?_, by rw [frames_mapTop, List.tail_cons], [(x, b.type)], γ, Γ, hγ, ?_, ?_⟩
  · rw [frames_mapTop]
    exact List.cons_ne_nil _ _
  · rw [top_mapTop]
    exact Frame.context_extend hγ x b
  · exact List.forall_mem_singleton.2 (List.mem_singleton_self x)

/-- Without declarations the variables are the same. -/
theorem context_eq (h : m.Declares [] m') : m'.top.context = m.top.context := by
  obtain ⟨added, γ, Γ, hγ, hγ', hadded⟩ := h.context
  have hnil : added = [] :=
    List.eq_nil_iff_forall_not_mem.2 fun d hd => absurd (hadded d hd) List.not_mem_nil
  rw [hnil, List.nil_append] at hγ'
  exact hγ'.trans hγ.symm

/-- What a block declares is gone when it is closed. -/
theorem popScope (hm : m.InScope) (h : m.pushScope.Declares names m') :
    m.Declares [] m'.popScope := by
  obtain ⟨added, γ, Γ, hγ, hγ', -⟩ := h.context
  have hbelow := h.below
  rw [Machine.pushScope, top_mapTop, Frame.context_pushScope] at hγ
  rw [Machine.pushScope, frames_mapTop, List.tail_cons] at hbelow
  obtain ⟨-, rfl⟩ := List.cons.inj hγ
  refine of_context hm ?_ ?_ ?_ []
  · rw [Machine.popScope, frames_mapTop]
    exact List.cons_ne_nil _ _
  · rw [Machine.popScope, frames_mapTop, List.tail_cons, hbelow]
  · rw [Machine.popScope, top_mapTop, Frame.context_popScope, hγ', List.tail_cons]

/-- What a callee declares is gone when its frame is taken off. -/
theorem popFrame {frame : Frame} (hm : m.InScope) (h : (m.pushFrame frame).Declares names m') :
    m.Declares [] m'.popFrame := by
  have hframes : m'.popFrame.frames = m.frames := h.below
  have htop : m'.popFrame.top = m.top := congrArg (·.headD .toplevel) hframes
  exact of_context hm (hframes ▸ hm.frames_ne) (congrArg List.tail hframes)
    (congrArg Frame.context htop) []

end Declares

/-- **Declarations** as an effect. -/
theorem effect_declares : Effect fun names m m' => m.InScope → m.Declares names m' where
  refl names m hm := .refl hm names
  trans h h' hm := (h hm).trans (h' (h hm).inScope)
  assign x v m := by
    rw [Action.assign]
    split
    · exact fun hm => .mapTop hm rfl []
    · split
      · exact fun hm => .mapTop hm rfl []
      · rename_i w _
        exact fun hm => .mapTop hm (Frame.context_set m.top x w) []
  declare x t v m := by
    obtain ⟨w, -, -, -, -, hdone⟩ | ⟨cause, -, hfault⟩ := Action.declare_cases x t v m
    · rw [hdone]
      exact fun hm => .extend hm x ⟨t, w⟩
    · rw [hfault]
      exact fun hm => .refl hm [x]
  block h hm := .popScope hm (h (inScope_pushScope _))
  printLine line m hm := by
    have hframes : (m.printLine line).frames ≠ [] := hm.frames_ne
    exact .of_context hm hframes rfl rfl []
  call henter h hm := .popFrame hm (h (inScope_enter henter _))

end Machine

/-! ### Statements that are done -/

/-- Whether a statement has blocks of its own. -/
def Stmt.hasBlock : Stmt → Bool
  | .branch .. | .loop .. => true
  | _ => false

/-- How a statement without blocks is done. -/
inductive Stmt.Performs (call : CallHandler) (m : Machine) : Stmt → Flow → Machine → Prop
  | init {t : Ty} {x : String} {e : Expr} {v : Value} {m₁ m' : Machine}
    (heval : e.eval call m = .done v m₁) (hdeclare : Action.declare x t v m₁ = .done () m') :
    Performs call m (.init t x e) .next m'
  | declare {t : Ty} {x : String} {v : Value} {m' : Machine} (hinitial : Value.initial t = .ok v)
    (hdeclare : Action.declare x t v m = .done () m') : Performs call m (.declare t x) .next m'
  | assign {x : String} {e : Expr} {b : Binding} {v : Value} {m₁ m' : Machine}
    (hb : m.top.lookup? x = some b) (heval : e.eval call m = .done v m₁)
    (hassign : Action.assign x v m₁ = .done () m') : Performs call m (.assign x e) .next m'
  | eval {e : Expr} {v : Value} {m' : Machine} (heval : e.eval call m = .done v m') :
    Performs call m (.eval e) .next m'
  | ret {e : Expr} {v : Value} {m' : Machine} (heval : e.eval call m = .done v m') :
    Performs call m (.ret e) (.returned v) m'

theorem Stmt.performs_of_exec {call : CallHandler} {bound : Nat} {s : Stmt} {m m' : Machine}
    {flow : Flow} (hs : s.hasBlock = false) (h : s.exec call bound m = .done flow m') :
    s.Performs call m flow m' := by
  cases s with
  | init t x e =>
    obtain ⟨v, m₁, heval, h₁⟩ := Action.bind_eq_done_iff.1 h
    obtain ⟨_, m₂, hdeclare, hnext⟩ := Action.bind_eq_done_iff.1 h₁
    cases hnext
    exact .init heval hdeclare
  | declare t x =>
    obtain ⟨v, m₁, hinitial, h₁⟩ := Action.bind_eq_done_iff.1 h
    obtain ⟨rfl, hv⟩ := Action.ofExcept_eq_done hinitial
    obtain ⟨_, m₂, hdeclare, hnext⟩ := Action.bind_eq_done_iff.1 h₁
    cases hnext
    exact .declare hv hdeclare
  | assign x e =>
    obtain ⟨b, m₀, hlookup, h₀⟩ := Action.bind_eq_done_iff.1 h
    obtain ⟨rfl, hb⟩ := Action.lookup_eq_done hlookup
    obtain ⟨v, m₁, heval, h₁⟩ := Action.bind_eq_done_iff.1 h₀
    obtain ⟨_, m₂, hassign, hnext⟩ := Action.bind_eq_done_iff.1 h₁
    cases hnext
    exact .assign hb heval hassign
  | eval e =>
    obtain ⟨v, m₁, heval, hnext⟩ := Action.bind_eq_done_iff.1 h
    cases hnext
    exact .eval heval
  | branch c yes no => cases hs
  | loop c body => cases hs
  | ret e =>
    obtain ⟨v, m₁, heval, hreturned⟩ := Action.bind_eq_done_iff.1 h
    cases hreturned
    exact .ret heval

section Done

variable {n bound : Nat} {m m' : Machine} {γ : List (String × Ty)} {Γ : Context} {x : String}
  {t : Ty} {v : Value}

/-- Evaluating declares nothing. -/
theorem Expr.eval_declares {e : Expr} (h : e.eval (callWithin n) m = .done v m') (hm : m.InScope) :
    m.Declares [] m' := by
  have heval := Machine.effect_declares.eval (Machine.effect_declares.callWithin n) e m
  rw [h] at heval
  exact heval hm

theorem Expr.test_declares {c : Expr} {place : TestPlace} {holds : Bool}
    (h : c.test (callWithin n) place m = .done holds m') (hm : m.InScope) : m.Declares [] m' := by
  have htest := Machine.effect_declares.test (Machine.effect_declares.callWithin n) c place m
  rw [h] at htest
  exact htest hm

/-- A declaration that is done has added its variable. -/
theorem Action.declare_context (h : declare x t v m = .done () m') (hm : m.InScope)
    (hγ : m.top.context = γ :: Γ) :
    m'.InScope ∧ m'.top.context = ((x, t) :: γ) :: Γ ∧ γ.lookup x = none := by
  obtain ⟨w, -, -, hfree, -, hdone⟩ | ⟨cause, -, hfault⟩ := declare_cases x t v m
  · cases hdone.symm.trans h
    refine ⟨(Machine.Declares.extend hm x ⟨t, w⟩).inScope, ?_, Frame.lookup_of_free hγ hfree⟩
    rw [Machine.top_mapTop]
    exact Frame.context_extend hγ x ⟨t, w⟩
  · cases hfault.symm.trans h

/-- A statement that is done has added what it declares. A declaration does not return. -/
theorem Stmt.exec_context {s : Stmt} {flow : Flow}
    (h : s.exec (callWithin n) bound m = .done flow m') (hm : m.InScope)
    (hγ : m.top.context = γ :: Γ) :
    m'.InScope ∧ m'.top.context = (s.declarations ++ γ) :: Γ ∧
      (∀ d ∈ s.declarations, γ.lookup d.1 = none) ∧ (s.declarations ≠ [] → flow = .next) := by
  have hother (hs : s.declared = []) : m'.InScope ∧ m'.top.context = γ :: Γ := by
    have hexec := Machine.effect_declares.exec (Machine.effect_declares.callWithin n) bound s m
    rw [h, hs] at hexec
    exact ⟨(hexec hm).inScope, (hexec hm).context_eq.trans hγ⟩
  cases s with
  | init t x e =>
    cases Stmt.performs_of_exec rfl h with
    | init heval hdeclare =>
      have hkept := Expr.eval_declares heval hm
      obtain ⟨hm', hcontext, hfree⟩ :=
        Action.declare_context hdeclare hkept.inScope (hkept.context_eq.trans hγ)
      exact ⟨hm', hcontext, List.forall_mem_singleton.2 hfree, fun _ => rfl⟩
  | declare t x =>
    cases Stmt.performs_of_exec rfl h with
    | declare hinitial hdeclare =>
      obtain ⟨hm', hcontext, hfree⟩ := Action.declare_context hdeclare hm hγ
      exact ⟨hm', hcontext, List.forall_mem_singleton.2 hfree, fun _ => rfl⟩
  | assign x e => exact ⟨(hother rfl).1, (hother rfl).2, nofun, fun hne => absurd rfl hne⟩
  | eval e => exact ⟨(hother rfl).1, (hother rfl).2, nofun, fun hne => absurd rfl hne⟩
  | branch c yes no => exact ⟨(hother rfl).1, (hother rfl).2, nofun, fun hne => absurd rfl hne⟩
  | loop c body => exact ⟨(hother rfl).1, (hother rfl).2, nofun, fun hne => absurd rfl hne⟩
  | ret e => exact ⟨(hother rfl).1, (hother rfl).2, nofun, fun hne => absurd rfl hne⟩

end Done

/-! ### Lists of statements -/

/-- Statements end at the index of the one that returns, or at their number if none does. -/
inductive Stmt.EndsAt (call : CallHandler) (bound : Nat) :
    List Stmt → Machine → Nat → Flow → Machine → Prop
  | off (m : Machine) : EndsAt call bound [] m 0 .next m
  | returned {s : Stmt} {rest : List Stmt} {m m' : Machine} {v : Value}
    (h : s.exec call bound m = .done (.returned v) m') :
    EndsAt call bound (s :: rest) m 0 (.returned v) m'
  | next {s : Stmt} {rest : List Stmt} {m m₁ m' : Machine} {k : Nat} {flow : Flow}
    (h : s.exec call bound m = .done .next m₁) (hrest : EndsAt call bound rest m₁ k flow m') :
    EndsAt call bound (s :: rest) m (k + 1) flow m'

namespace Stmt.EndsAt

variable {call : CallHandler} {n bound k : Nat} {ss : List Stmt} {m m' : Machine} {flow : Flow}

theorem exists_of_execAll (h : execAll call bound ss m = .done flow m') :
    ∃ k, EndsAt call bound ss m k flow m' := by
  induction ss generalizing m with
  | nil =>
    cases h
    exact ⟨0, .off _⟩
  | cons s rest ih =>
    rw [execAll] at h
    obtain ⟨flow₁, m₁, hs, hrest⟩ := Action.bind_eq_done_iff.1 h
    cases flow₁ with
    | next =>
      obtain ⟨k, hk⟩ := ih hrest
      exact ⟨k + 1, .next hs hk⟩
    | returned v =>
      cases hrest
      exact ⟨0, .returned hs⟩

/-- **What statements have declared** when they are done: what those before the one that returned
declare, the latest first. No name is declared twice. -/
theorem context (h : EndsAt (callWithin n) bound ss m k flow m') (hm : m.InScope)
    {γ : List (String × Ty)} {Γ : Context} (hγ : m.top.context = γ :: Γ)
    (hnodup : (γ.map Prod.fst).Nodup) :
    m'.top.context = ((declarationsAll (ss.take k)).reverse ++ γ) :: Γ ∧
      (((declarationsAll (ss.take k)).reverse ++ γ).map Prod.fst).Nodup := by
  induction h generalizing γ with
  | off m => exact ⟨hγ, hnodup⟩
  | @returned s rest m m' v hs =>
    obtain ⟨-, hcontext, -, hnext⟩ := exec_context hs hm hγ
    have hnone : s.declarations = [] := by
      by_contra hne
      cases hnext hne
    rw [hnone] at hcontext
    exact ⟨hcontext, hnodup⟩
  | @next s rest m m₁ m' k flow hs _ ih =>
    obtain ⟨hm₁, hcontext, hfree, -⟩ := exec_context hs hm hγ
    have hnodup₁ := nodup_declarations hfree hnodup
    rw [List.take_succ_cons, declarationsAll_cons, List.reverse_append, reverse_declarations,
      List.append_assoc]
    exact ih hm₁ hcontext hnodup₁

end Stmt.EndsAt

end Scriptlet
