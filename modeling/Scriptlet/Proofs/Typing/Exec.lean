import Scriptlet.Proofs.Typing.State

/-!
# Scriptlet.Proofs.Typing.Exec

**Typed expressions and statements.** A well-typed expression evaluates to a value of its type, and
a well-typed statement leaves the context that its rule says or returns a value that fits. Both are
by induction on the syntax. The calls that an expression makes are answered by a handler, of which
it is only used that it is typed itself.
-/

namespace Scriptlet

variable {p : Program} {o : Options} {below : List Frame} {Γ Γ' : Context} {m : Machine}

/-- Calls with accepted arguments give a value of the result type. -/
def CallHandler.Typed (p : Program) (o : Options) (call : CallHandler) : Prop :=
  ∀ {below : List Frame} {Γ : Context} {m : Machine} {name : String} {vs : List Value} {t : Ty},
    p.resultType? name (vs.map Value.type) = some t → m.Typed p o below Γ →
      (call name vs m).Meets (fun v m' => v.type = t ∧ m'.Typed p o below Γ) (Residual o)

/-! ### Expressions -/

section Syntax

variable {call : CallHandler}

theorem stepVariable_typed {s : Step} {place : Placement} {e : Expr} {t : Ty}
    (ht : (Expr.step s place e).type? p Γ = some t) (h : m.Typed p o below Γ) :
    (stepVariable s place e m).Meets (fun v m' => v.type = t ∧ m'.Typed p o below Γ)
      (Residual o) := by
  cases e with
  | var x =>
    obtain ⟨hx, hnumber⟩ := Option.filter_eq_some_iff.1 ht
    refine Action.meets_bind (Action.lookup_typed hx h) fun b m₁ hb => ?_
    obtain ⟨-, hvalue, h₁⟩ := hb
    subst hvalue
    refine Action.meets_bind (Action.ofExcept_typed (Value.step_computes s hnumber) h₁)
      fun v m₂ hv => ?_
    obtain ⟨hv, h₂⟩ := hv
    have haccepts : b.value.type.accepts v.type := hv ▸ Ty.accepts_self _
    refine Action.meets_bind (Action.assign_typed hx haccepts h₂) fun _ m₃ h₃ => ?_
    cases place with
    | before => exact ⟨hv, h₃⟩
    | after => exact ⟨rfl, h₃⟩
  | _ => cases ht

namespace Expr

mutual

/-- **Typed evaluation.** A well-typed expression evaluates to a value of its type. -/
theorem eval_typed (hcall : call.Typed p o) :
    ∀ (e : Expr) {t : Ty} {m : Machine}, e.type? p Γ = some t → m.Typed p o below Γ →
      (e.eval call m).Meets (fun v m' => v.type = t ∧ m'.Typed p o below Γ) (Residual o)
  | .int n, _, _, ht, h => by
    cases ht
    exact ⟨rfl, h⟩
  | .float x, _, _, ht, h => by
    cases ht
    exact ⟨rfl, h⟩
  | .str s, _, _, ht, h => by
    cases ht
    exact ⟨rfl, h⟩
  | .bool b, _, _, ht, h => by
    cases ht
    exact ⟨rfl, h⟩
  | .var x, _, _, ht, h =>
    Action.meets_bind (Action.lookup_typed ht h) fun _ _ hb => hb.2
  | .call f args, _, _, ht, h => by
    obtain ⟨ts, hts, ht⟩ := Option.bind_eq_some_iff.1 ht
    refine Action.meets_bind (evalAll_typed hcall args hts h) fun vs m₁ hvs => ?_
    obtain ⟨rfl, h₁⟩ := hvs
    exact hcall ht h₁
  | .binary l op r, _, _, ht, h => by
    obtain ⟨a, hl, ht⟩ := Option.bind_eq_some_iff.1 ht
    obtain ⟨b, hr, ht⟩ := Option.bind_eq_some_iff.1 ht
    refine Action.meets_bind (eval_typed hcall l hl h) fun v m₁ hv => ?_
    obtain ⟨rfl, h₁⟩ := hv
    refine Action.meets_bind (eval_typed hcall r hr h₁) fun w m₂ hw => ?_
    obtain ⟨rfl, h₂⟩ := hw
    exact Action.ofExcept_typed (Value.binary_computes ht) h₂
  | .step s place e, _, _, ht, h => stepVariable_typed ht h

/-- The values of well-typed expressions have their types. -/
theorem evalAll_typed (hcall : call.Typed p o) :
    ∀ (es : List Expr) {ts : List Ty} {m : Machine}, types? p Γ es = some ts →
      m.Typed p o below Γ →
      (evalAll call es m).Meets (fun vs m' => vs.map Value.type = ts ∧ m'.Typed p o below Γ)
        (Residual o)
  | [], _, _, hts, h => by
    cases hts
    exact ⟨rfl, h⟩
  | e :: rest, _, _, hts, h => by
    obtain ⟨t, ht, hts⟩ := Option.bind_eq_some_iff.1 hts
    obtain ⟨ts, hrest, rfl⟩ := Option.map_eq_some_iff.1 hts
    refine Action.meets_bind (eval_typed hcall e ht h) fun v m₁ hv => ?_
    obtain ⟨rfl, h₁⟩ := hv
    refine Action.meets_bind (evalAll_typed hcall rest hrest h₁) fun vs m₂ hvs => ?_
    obtain ⟨rfl, h₂⟩ := hvs
    exact ⟨rfl, h₂⟩

end

/-- An expression that fits evaluates to a value that is accepted. -/
theorem eval_fits (hcall : call.Typed p o) {e : Expr} {declared : Ty}
    (he : e.fits p Γ declared) (h : m.Typed p o below Γ) :
    (e.eval call m).Meets (fun v m' => declared.accepts v.type ∧ m'.Typed p o below Γ)
      (Residual o) := by
  obtain ⟨t, ht, haccepts⟩ := (Option.any_eq_true ..).1 he
  refine (eval_typed hcall e ht h).mono (fun v m₁ hv => ?_) fun _ _ hcause => hcause
  exact ⟨hv.1 ▸ haccepts, hv.2⟩

/-- A condition is a boolean. -/
theorem test_typed (hcall : call.Typed p o) {c : Expr} (place : TestPlace)
    (hc : c.type? p Γ = some .bool) (h : m.Typed p o below Γ) :
    (c.test call place m).Meets (fun _ m' => m'.Typed p o below Γ) (Residual o) := by
  refine Action.meets_bind (eval_typed hcall c hc h) fun v m₁ hv => ?_
  obtain ⟨b, hb⟩ := Value.toBool_of_type place hv.1
  rw [hb]
  exact hv.2

end Expr

/-! ### Statements -/

/-- What is left by a statement of a function with the given result: the context `Γ` for the next
one, which cannot be if the statement is bound to return, or a value that fits the result. -/
def Ends (p : Program) (o : Options) (below : List Frame) (result : Ty) (Γ : Context)
    (returns : Bool) : Flow → Machine → Prop
  | .next, m => returns = false ∧ m.Typed p o below Γ
  | .returned v, m => result.accepts v.type ∧ ∃ Γ', m.Typed p o below Γ'

variable {result : Ty} {bound : Nat}

theorem Ends.mono {returns returns' : Bool} {flow : Flow}
    (h : Ends p o below result Γ returns flow m)
    (himp : returns = false → returns' = false) : Ends p o below result Γ returns' flow m := by
  cases flow with
  | next => exact ⟨himp h.1, h.2⟩
  | returned v => exact h

namespace Stmt

/-! ### Contexts of blocks -/

/-- A statement declares variables in the innermost block only. -/
theorem check?_tail {γ : List (String × Ty)} {s : Stmt}
    (h : s.check? p result (γ :: Γ) = some Γ') : ∃ γ', Γ' = γ' :: Γ := by
  cases s with
  | init t x e =>
    obtain ⟨-, h⟩ := Option.ite_none_right_eq_some.1 h
    exact Context.tail_declare? h
  | declare t x =>
    obtain ⟨-, h⟩ := Option.ite_none_right_eq_some.1 h
    exact Context.tail_declare? h
  | assign x e =>
    obtain ⟨-, ⟨⟩⟩ := Option.ite_none_right_eq_some.1 h
    exact ⟨γ, rfl⟩
  | eval e =>
    obtain ⟨-, ⟨⟩⟩ := Option.ite_none_right_eq_some.1 h
    exact ⟨γ, rfl⟩
  | branch c yes no =>
    obtain ⟨-, ⟨⟩⟩ := Option.ite_none_right_eq_some.1 h
    exact ⟨γ, rfl⟩
  | loop c body =>
    obtain ⟨-, ⟨⟩⟩ := Option.ite_none_right_eq_some.1 h
    exact ⟨γ, rfl⟩
  | ret e =>
    obtain ⟨-, ⟨⟩⟩ := Option.ite_none_right_eq_some.1 h
    exact ⟨γ, rfl⟩

theorem checkAll?_tail {γ : List (String × Ty)} {ss : List Stmt}
    (h : checkAll? p result (γ :: Γ) ss = some Γ') : ∃ γ', Γ' = γ' :: Γ := by
  induction ss generalizing γ with
  | nil =>
    cases h
    exact ⟨γ, rfl⟩
  | cons s rest ih =>
    obtain ⟨Γ₁, hs, hrest⟩ := Option.bind_eq_some_iff.1 h
    obtain ⟨γ₁, rfl⟩ := check?_tail hs
    exact ih hrest

/-- A typed block leaves the context around it. -/
theorem inBlock_typed {body : Action Flow} {returns : Bool} {ss : List Stmt}
    (hcheck : checkAll? p result ([] :: Γ) ss = some Γ')
    (hbody : ∀ {m : Machine}, m.Typed p o below ([] :: Γ) →
      (body m).Meets (Ends p o below result Γ' returns) (Residual o))
    (h : m.Typed p o below Γ) :
    (Action.inBlock body m).Meets (Ends p o below result Γ returns) (Residual o) := by
  obtain ⟨γ', rfl⟩ := checkAll?_tail hcheck
  refine Action.meets_inBlock ((hbody h.pushScope).mono (fun flow m₁ hends => ?_)
    fun _ _ hcause => hcause)
  cases flow with
  | next => exact ⟨hends.1, hends.2.popScope⟩
  | returned v =>
    -- a return may leave from any depth, so of its context only the existence is known
    obtain ⟨haccepts, Γ'', h₁⟩ := hends
    exact ⟨haccepts, _, h₁.popScope⟩

/-! ### Execution -/

mutual

/-- **Typed execution.** A well-typed statement leaves the context that its rule says. -/
theorem exec_typed (hcall : call.Typed p o) :
    ∀ (s : Stmt) {Γ Γ' : Context} {m : Machine}, s.check? p result Γ = some Γ' →
      m.Typed p o below Γ →
      (s.exec call bound m).Meets (Ends p o below result Γ' s.returns) (Residual o)
  | .init t x e, _, _, _, hcheck, h => by
    obtain ⟨⟨ht, he⟩, hΓ⟩ := Option.ite_none_right_eq_some.1 hcheck
    refine Action.meets_bind (Expr.eval_fits hcall he h) fun v m₁ hv => ?_
    refine Action.meets_bind (Action.declare_typed ht hΓ hv.1 hv.2) fun _ m₂ h₂ => ?_
    exact ⟨rfl, h₂⟩
  | .declare t x, _, _, _, hcheck, h => by
    obtain ⟨ht, hΓ⟩ := Option.ite_none_right_eq_some.1 hcheck
    obtain ⟨v, hv, htype⟩ := Value.initial_of_ne_void ht
    have hcomputes : Computes t (Value.initial t) := hv ▸ htype
    refine Action.meets_bind (Action.ofExcept_typed hcomputes h) fun w m₁ hw => ?_
    have haccepts : t.accepts w.type := hw.1 ▸ Ty.accepts_self _
    refine Action.meets_bind (Action.declare_typed ht hΓ haccepts hw.2) fun _ m₂ h₂ => ?_
    exact ⟨rfl, h₂⟩
  | .assign x e, _, _, _, hcheck, h => by
    obtain ⟨hx, ⟨⟩⟩ := Option.ite_none_right_eq_some.1 hcheck
    obtain ⟨t, ht, he⟩ := (Option.any_eq_true ..).1 hx
    -- the variable is looked up before the value is there, and again to store it
    refine Action.meets_bind (Action.lookup_typed ht h) fun b m₁ hb => ?_
    refine Action.meets_bind (Expr.eval_fits hcall he hb.2.2) fun v m₂ hv => ?_
    refine Action.meets_bind (Action.assign_typed ht hv.1 hv.2) fun _ m₃ h₃ => ?_
    exact ⟨rfl, h₃⟩
  | .eval e, _, _, _, hcheck, h => by
    obtain ⟨he, ⟨⟩⟩ := Option.ite_none_right_eq_some.1 hcheck
    obtain ⟨t, ht⟩ := Option.isSome_iff_exists.1 he
    refine Action.meets_bind (Expr.eval_typed hcall e ht h) fun v m₁ hv => ?_
    exact ⟨rfl, hv.2⟩
  | .branch c yes no, _, _, _, hcheck, h => by
    obtain ⟨⟨hc, hyes, hno⟩, ⟨⟩⟩ := Option.ite_none_right_eq_some.1 hcheck
    obtain ⟨Γyes, hyes⟩ := Option.isSome_iff_exists.1 hyes
    obtain ⟨Γno, hno⟩ := Option.isSome_iff_exists.1 hno
    refine Action.meets_bind (Expr.test_typed hcall .ifCondition hc h) fun holds m₁ h₁ => ?_
    cases holds with
    | true =>
      refine (inBlock_typed hyes (execAll_typed hcall yes hyes) h₁).mono
        (fun flow m₂ hends => hends.mono fun hreturns => ?_) fun _ _ hcause => hcause
      rw [returns, hreturns, Bool.false_and]
    | false =>
      refine (inBlock_typed hno (execAll_typed hcall no hno) h₁).mono
        (fun flow m₂ hends => hends.mono fun hreturns => ?_) fun _ _ hcause => hcause
      rw [returns, hreturns, Bool.and_false]
  | .loop c body, _, _, _, hcheck, h => by
    -- the context around the loop is its invariant: the condition keeps it, and a pass through the
    -- body ends with it again
    obtain ⟨⟨hc, hbody⟩, ⟨⟩⟩ := Option.ite_none_right_eq_some.1 hcheck
    obtain ⟨Γbody, hbody⟩ := Option.isSome_iff_exists.1 hbody
    refine meets_iterate (fun m₁ h₁ => Expr.test_typed hcall .whileCondition hc h₁)
      (fun m₁ h₁ => ?_) (fun m₁ h₁ => ⟨rfl, h₁⟩) bound h
    refine (inBlock_typed hbody (execAll_typed hcall body hbody) h₁).mono
      (fun flow m₂ hends => ?_) fun _ _ hcause => hcause
    cases flow with
    | next => exact ⟨fun _ => hends.2, fun hne => absurd rfl hne⟩
    | returned v => exact ⟨nofun, fun _ => hends⟩
  | .ret e, _, _, _, hcheck, h => by
    obtain ⟨he, ⟨⟩⟩ := Option.ite_none_right_eq_some.1 hcheck
    refine Action.meets_bind (Expr.eval_fits hcall he h) fun v m₁ hv => ?_
    exact ⟨hv.1, _, hv.2⟩

/-- A list of well-typed statements leaves the context that their rules say. -/
theorem execAll_typed (hcall : call.Typed p o) :
    ∀ (ss : List Stmt) {Γ Γ' : Context} {m : Machine}, checkAll? p result Γ ss = some Γ' →
      m.Typed p o below Γ →
      (execAll call bound ss m).Meets (Ends p o below result Γ' (anyReturns ss)) (Residual o)
  | [], _, _, _, hcheck, h => by
    cases hcheck
    exact ⟨rfl, h⟩
  | s :: rest, _, _, _, hcheck, h => by
    obtain ⟨Γ₁, hs, hrest⟩ := Option.bind_eq_some_iff.1 hcheck
    refine Action.meets_bind (exec_typed hcall s hs h) fun flow m₁ hends => ?_
    cases flow with
    | next =>
      refine (execAll_typed hcall rest hrest hends.2).mono
        (fun flow m₂ hends' => hends'.mono fun hreturns => ?_) fun _ _ hcause => hcause
      rw [anyReturns, hends.1, hreturns, Bool.false_or]
    | returned v => exact hends

end

end Stmt

end Syntax

end Scriptlet
