import Scriptlet.Proofs.Typing.Rules

/-!
# Scriptlet.Proofs.Typing.Values

**Operators on typed values.** An operator whose operands have types that it accepts gives a value
of the type that the rules say. What is left to go wrong is arithmetic itself: a division by zero
and an integer result that is out of range.
-/

namespace Scriptlet

/-- The computation gives a value of type `t`, or it stops with a fault of arithmetic. -/
def Computes (t : Ty) : Except Fault Value → Prop
  | .ok v => v.type = t
  | .error cause => cause = .divisionByZero ∨ cause = .overflow

namespace Ty

theorem accepts_self (t : Ty) : t.accepts t := by
  rw [accepts, decide_eq_true rfl, Bool.true_or]

theorem accepts_iff {declared given : Ty} :
    declared.accepts given ↔ given = declared ∨ declared = .float ∧ given = .int := by
  rw [accepts, Bool.or_eq_true, Bool.and_eq_true, decide_eq_true_iff, decide_eq_true_iff,
    decide_eq_true_iff]

end Ty

namespace Value

/-! ### Storing -/

/-- A value that fits is stored as a value of the declared type. -/
theorem conform_of_accepts {t : Ty} {v : Value} (slot : Slot) (h : t.accepts v.type) :
    ∃ w, v.conform slot t = .ok w ∧ w.type = t := by
  rcases Ty.accepts_iff.1 h with heq | ⟨rfl, hint⟩
  · subst heq
    cases v with
    | int n => exact ⟨.int n, rfl, rfl⟩
    | float x => exact ⟨.float x, rfl, rfl⟩
    | bool b => exact ⟨.bool b, rfl, rfl⟩
    | str s => exact ⟨.str s, rfl, rfl⟩
    | void => exact ⟨.void, rfl, rfl⟩
  · cases v with
    | int n => exact ⟨.float (promote n), rfl, rfl⟩
    | float x => cases hint
    | bool b => cases hint
    | str s => cases hint
    | void => cases hint

/-- Every type but `void` has an initial value. -/
theorem initial_of_ne_void {t : Ty} (h : t ≠ .void) : ∃ v, initial t = .ok v ∧ v.type = t := by
  cases t with
  | int => exact ⟨_, rfl, rfl⟩
  | bool => exact ⟨_, rfl, rfl⟩
  | float => exact ⟨_, rfl, rfl⟩
  | string => exact ⟨_, rfl, rfl⟩
  | void => exact absurd rfl h

theorem toBool_of_type {v : Value} (place : TestPlace) (h : v.type = .bool) :
    ∃ b, v.toBool place = .ok b := by
  cases v with
  | bool b => exact ⟨b, rfl⟩
  | _ => cases h

/-! ### Arithmetic -/

theorem ofExact_computes (n : Int) : Computes .int (ofExact n) := by
  rw [ofExact]
  split
  · rfl
  · exact .inr rfl

theorem intArithmetic_computes {op : BinOp} (h : op.operatorClass = .arithmetic) (a b : Int64) :
    Computes .int (intArithmetic op a b) := by
  cases op with
  | add => exact ofExact_computes _
  | sub => exact ofExact_computes _
  | mul => exact ofExact_computes _
  | div =>
    simp only [intArithmetic]
    split
    · exact .inl rfl
    · exact ofExact_computes _
  | _ => cases h

theorem floatArithmetic_computes {op : BinOp} (h : op.operatorClass = .arithmetic) (x y : Float) :
    Computes .float (floatArithmetic op x y) := by
  cases op with
  | add => rfl
  | sub => rfl
  | mul => rfl
  | div =>
    simp only [floatArithmetic]
    split
    · exact .inl rfl
    · rfl
  | _ => cases h

theorem arithmetic_computes {op : BinOp} {l r : Value} {t : Ty}
    (hop : op.operatorClass = .arithmetic) (h : op.type? l.type r.type = some t) :
    Computes t (arithmetic op l r) := by
  rw [BinOp.type?.eq_def, hop] at h
  cases l <;> cases r <;> try cases h
  case int.int a b => exact intArithmetic_computes hop a b
  case int.float a y => exact floatArithmetic_computes hop (promote a) y
  case float.int x b => exact floatArithmetic_computes hop x (promote b)
  case float.float x y => exact floatArithmetic_computes hop x y
  case str.str s t =>
    simp only [type] at h
    split at h
    · rename_i hadd
      cases h
      rw [arithmetic, if_pos hadd]
      rfl
    · cases h

/-! ### Comparison and logic -/

theorem comparison_computes {op : BinOp} {l r : Value} {t : Ty}
    (hop : op.operatorClass = .comparison) (h : op.type? l.type r.type = some t) :
    Computes t (comparison op l r) := by
  rw [BinOp.type?.eq_def, hop] at h
  cases l <;> cases r <;> try cases h
  case int.int => rfl
  case int.float => rfl
  case float.int => rfl
  case float.float => rfl
  case str.str => rfl
  case bool.bool a b =>
    simp only [type] at h
    split at h
    · rename_i heq
      cases h
      rw [comparison, if_pos heq]
      rfl
    · cases h

theorem logic_computes {op : BinOp} {l r : Value} {t : Ty}
    (hop : op.operatorClass = .logic) (h : op.type? l.type r.type = some t) :
    Computes t (logic op l r) := by
  rw [BinOp.type?.eq_def, hop] at h
  cases l <;> cases r <;> try cases h
  case bool.bool a b =>
    cases op with
    | and => rfl
    | or => rfl
    | _ => cases hop

/-! ### All operators -/

/-- **Typed operations.** A binary operation on values of accepted types computes a value of the
type of the operation. -/
theorem binary_computes {op : BinOp} {l r : Value} {t : Ty}
    (h : op.type? l.type r.type = some t) : Computes t (binary op l r) := by
  rw [binary]
  cases hop : op.operatorClass with
  | arithmetic => exact arithmetic_computes hop h
  | comparison => exact comparison_computes hop h
  | logic => exact logic_computes hop h

/-- A step computes a number of the same type. -/
theorem step_computes {v : Value} (s : Step) (h : v.type.isNumber) :
    Computes v.type (v.step s) := by
  cases v with
  | int n =>
    cases s with
    | increment => exact ofExact_computes _
    | decrement => exact ofExact_computes _
  | float x =>
    cases s with
    | increment => rfl
    | decrement => rfl
  | _ => cases h

end Value

end Scriptlet
