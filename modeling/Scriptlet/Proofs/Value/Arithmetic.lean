import Mathlib.Algebra.Ring.Int.Defs
import Scriptlet.Proofs.Machine.Stepping

/-!
# Scriptlet.Proofs.Value.Arithmetic

**Integer arithmetic is exact or a fault.** An operation on two integers gives the result that it
has in the unbounded integers, if that is an integer of 64 bits, and a fault otherwise. A quotient
goes toward zero. There is none if the divisor is zero, and it is out of range in one case only.

For expressions of integer literals the same holds of the whole. Their operations are performed in a
fixed order, the operands from left to right and then the operator. `Expr.operations` lists them in
this order, with the operands that they have in the unbounded integers. If none of them fails, the
value is the one in the unbounded integers, and otherwise the first that fails stops the evaluation
with its fault.
-/

namespace Scriptlet

/-! ### Range -/

/-- An integer of 64 bits has this value. -/
def InRange (n : Int) : Prop :=
  -2 ^ 63 ≤ n ∧ n ≤ 2 ^ 63 - 1

instance (n : Int) : Decidable (InRange n) :=
  inferInstanceAs (Decidable (_ ∧ _))

theorem inRange_toInt (a : Int64) : InRange a.toInt :=
  ⟨a.le_toInt, Int.le_sub_one_of_lt a.toInt_lt⟩

/-- The quotient of the smallest integer by minus one is the only one that is out of range. -/
theorem inRange_tdiv_iff (a b : Int64) :
    InRange (a.toInt.tdiv b.toInt) ↔ ¬ (a = Int64.minValue ∧ b = -1) := by
  constructor
  · rintro h ⟨rfl, rfl⟩
    revert h
    decide
  · intro h
    obtain ⟨hmin, hmax⟩ := inRange_toInt a
    rw [InRange]
    by_cases hone : b.toInt.natAbs = 1
    · obtain hb | hb : b.toInt = 1 ∨ b.toInt = -1 := by omega
      · rw [hb, Int.tdiv_one]
        exact ⟨hmin, hmax⟩
      · have ha : a.toInt ≠ -2 ^ 63 := fun ha =>
          h ⟨Int64.toInt_inj.1 (ha.trans Int64.toInt_minValue.symm), Int64.toInt_inj.1 hb⟩
        rw [hb, Int.tdiv_neg, Int.tdiv_one]
        omega
    · -- a divisor with another absolute value at least halves the dividend, or it is zero
      have hquotient : (a.toInt.tdiv b.toInt).natAbs = a.toInt.natAbs / b.toInt.natAbs :=
        Int.natAbs_tdiv a.toInt b.toInt
      have hle : a.toInt.natAbs / b.toInt.natAbs ≤ a.toInt.natAbs / 2 := by
        obtain hzero | htwo : b.toInt.natAbs = 0 ∨ 2 ≤ b.toInt.natAbs := by omega
        · rw [hzero, Nat.div_zero]
          exact Nat.zero_le _
        · exact Nat.div_le_div_left htwo (by decide)
      omega

/-! ### Operations on values -/

/-- The computation gives the integer `n`, or an overflow if `n` is out of range. -/
def ExactOrOverflow (n : Int) (x : Except Fault Value) : Prop :=
  (InRange n → ∃ k : Int64, k.toInt = n ∧ x = .ok (.int k)) ∧ (¬ InRange n → x = .error .overflow)

/-- The integer `q` is the quotient of `a` by `b`, toward zero: what remains is smaller than the
divisor and has the sign of the dividend. -/
def IsQuotient (a b q : Int) : Prop :=
  ∃ r, a = q * b + r ∧ r.natAbs < b.natAbs ∧ (r = 0 ∨ r.sign = a.sign)

theorem isQuotient_tdiv {a b : Int} (hb : b ≠ 0) : IsQuotient a b (a.tdiv b) := by
  refine ⟨a.tmod b, ?_, ?_, ?_⟩
  · rw [Int.mul_comm, Int.mul_tdiv_add_tmod]
  · rw [Int.natAbs_tmod]
    exact Nat.mod_lt _ (Int.natAbs_pos.2 hb)
  · have hsign := Int.sign_tmod a b
    split at hsign
    · exact .inl (Int.sign_eq_zero_iff_zero.1 hsign)
    · exact .inr hsign

namespace Value

theorem ofExact_exact (n : Int) : ExactOrOverflow n (ofExact n) := by
  have hrange : -9223372036854775808 ≤ n ∧ n ≤ 9223372036854775807 ↔ InRange n := by
    rw [InRange]
    omega
  rw [ofExact, Decimal.int64?]
  refine ⟨fun h => ?_, fun h => ?_⟩
  · rw [if_pos (hrange.2 h)]
    exact ⟨_, Int64.toInt_ofInt_of_le h.1 (Int.lt_of_le_sub_one h.2), rfl⟩
  · rw [if_neg (mt hrange.1 h)]

theorem div_of_ne_zero (a : Int64) {b : Int64} (hb : b ≠ 0) :
    Value.binary .div (.int a) (.int b) = ofExact (a.toInt.tdiv b.toInt) :=
  if_neg hb

/-- **What a division does**: it fails if the divisor is zero and in one further case, and gives the
quotient toward zero in all others. -/
theorem div_cases (a b : Int64) :
    (b = 0 ∧ Value.binary .div (.int a) (.int b) = .error .divisionByZero) ∨
    (b ≠ 0 ∧ (a = Int64.minValue ∧ b = -1) ∧
      Value.binary .div (.int a) (.int b) = .error .overflow) ∨
    (b ≠ 0 ∧ ¬ (a = Int64.minValue ∧ b = -1) ∧ ∃ q : Int64,
      Value.binary .div (.int a) (.int b) = .ok (.int q) ∧ IsQuotient a.toInt b.toInt q.toInt) := by
  by_cases hb : b = 0
  · exact .inl ⟨hb, if_pos hb⟩
  · have hquotient : IsQuotient a.toInt b.toInt (a.toInt.tdiv b.toInt) :=
      isQuotient_tdiv fun hzero => hb (Int64.toInt_inj.1 hzero)
    obtain ⟨hfits, hoverflow⟩ := ofExact_exact (a.toInt.tdiv b.toInt)
    rw [div_of_ne_zero a hb]
    by_cases hlimit : a = Int64.minValue ∧ b = -1
    · exact .inr (.inl ⟨hb, hlimit, hoverflow fun h => (inRange_tdiv_iff a b).1 h hlimit⟩)
    · obtain ⟨q, hq, hok⟩ := hfits ((inRange_tdiv_iff a b).2 hlimit)
      exact .inr (.inr ⟨hb, hlimit, q, hok, hq ▸ hquotient⟩)

end Value

/-! ### Operations in the unbounded integers -/

/-- The result of an arithmetic operator in the unbounded integers. -/
def BinOp.exact : BinOp → Int → Int → Int
  | .add, a, b => a + b
  | .sub, a, b => a - b
  | .mul, a, b => a * b
  | .div, a, b => a.tdiv b
  | _, _, _ => 0

/-- An operator with its operands in the unbounded integers. -/
structure Operation where
  op : BinOp
  left : Int
  right : Int

/-- What makes an operation fail: it divides by zero, or its result is out of range. -/
def Operation.fault? (o : Operation) : Option Fault :=
  if o.op = .div ∧ o.right = 0 then some .divisionByZero
  else if InRange (o.op.exact o.left o.right) then none
  else some .overflow

namespace Value

/-- **An operation on two integers** gives its exact result, unless it fails. -/
theorem binary_int {op : BinOp} (hop : op.operatorClass = .arithmetic) (a b : Int64) :
    (Operation.fault? ⟨op, a.toInt, b.toInt⟩ = none ∧
      ∃ k : Int64, k.toInt = op.exact a.toInt b.toInt ∧
        Value.binary op (.int a) (.int b) = .ok (.int k)) ∨
    ∃ cause, Operation.fault? ⟨op, a.toInt, b.toInt⟩ = some cause ∧
      Value.binary op (.int a) (.int b) = .error cause := by
  by_cases hzero : op = .div ∧ b.toInt = 0
  · obtain ⟨rfl, hb⟩ := hzero
    exact .inr ⟨.divisionByZero, if_pos ⟨rfl, hb⟩, if_pos (Int64.toInt_inj.1 hb)⟩
  · have hexact : Value.binary op (.int a) (.int b) = ofExact (op.exact a.toInt b.toInt) := by
      cases op with
      | add => rfl
      | sub => rfl
      | mul => rfl
      | div => exact div_of_ne_zero a fun hb => hzero ⟨rfl, congrArg Int64.toInt hb⟩
      | _ => cases hop
    obtain ⟨hfits, hoverflow⟩ := ofExact_exact (op.exact a.toInt b.toInt)
    rw [hexact, Operation.fault?, if_neg hzero]
    by_cases hrange : InRange (op.exact a.toInt b.toInt)
    · exact .inl ⟨if_pos hrange, hfits hrange⟩
    · exact .inr ⟨.overflow, if_neg hrange, hoverflow hrange⟩

end Value

/-! ### Expressions -/

namespace Expr

/-- The expression is made of integer literals and arithmetic operators. -/
inductive Arithmetic : Expr → Prop
  | int (n : Int64) : Arithmetic (.int n)
  | binary {l r : Expr} {op : BinOp} (hl : Arithmetic l) (hop : op.operatorClass = .arithmetic)
    (hr : Arithmetic r) : Arithmetic (.binary l op r)

/-- The value of an arithmetic expression in the unbounded integers. -/
def exactValue : Expr → Int
  | .int n => n.toInt
  | .binary l op r => op.exact l.exactValue r.exactValue
  | _ => 0

/-- The operations of an arithmetic expression in the order of their evaluation. -/
def operations : Expr → List Operation
  | .binary l op r => l.operations ++ r.operations ++ [⟨op, l.exactValue, r.exactValue⟩]
  | _ => []

/-- **The first operation that fails decides.** Without one the value is exact. -/
theorem Arithmetic.eval_cases {e : Expr} (he : e.Arithmetic) (call : CallHandler) (m : Machine) :
    (e.operations.findSome? Operation.fault? = none ∧
      ∃ k : Int64, k.toInt = e.exactValue ∧ e.eval call m = .done (.int k) m) ∨
    ∃ cause, e.operations.findSome? Operation.fault? = some cause ∧
      e.eval call m = .fault cause m := by
  induction he with
  | int n => exact .inl ⟨rfl, n, rfl, rfl⟩
  | @binary l r op _ hop _ ihl ihr =>
    rw [operations, List.findSome?_append, List.findSome?_append]
    obtain ⟨hl, a, ha, hleft⟩ | ⟨cause, hl, hleft⟩ := ihl
    case inr => exact .inr ⟨cause, by rw [hl]; rfl, Action.bind_of_fault hleft⟩
    obtain ⟨hr, b, hb, hright⟩ | ⟨cause, hr, hright⟩ := ihr
    case inr =>
      refine .inr ⟨cause, by rw [hl, hr]; rfl, ?_⟩
      exact (Action.bind_of_done hleft).trans (Action.bind_of_fault hright)
    have heval : (Expr.binary l op r).eval call m =
        Action.ofExcept (Value.binary op (.int a) (.int b)) m :=
      (Action.bind_of_done hleft).trans (Action.bind_of_done hright)
    rw [hl, hr, Option.or_none, Option.none_or, List.findSome?_singleton, ← ha, ← hb, heval,
      exactValue, ← ha, ← hb]
    obtain ⟨hfault, k, hk, hop⟩ | ⟨cause, hfault, hop⟩ := Value.binary_int hop a b
    · exact .inl ⟨hfault, k, hk, by rw [hop]; rfl⟩
    · exact .inr ⟨cause, hfault, by rw [hop]; rfl⟩

end Expr

/-- **Integer arithmetic is exact or a fault.** The sum, the difference and the product of two
integers are exact, or an overflow if they are out of range. A division by zero is a fault, the
quotient of the smallest integer by minus one is an overflow, and every other division gives the
quotient toward zero.

An expression of integer literals has an integer as its value exactly if none of its operations in
the unbounded integers divides by zero or has a result out of range, and then its value is the one
in the unbounded integers. Otherwise the first of the operations that does stops the evaluation,
with the fault for it. -/
theorem int_arithmetic_exact :
    (∀ a b : Int64,
      ExactOrOverflow (a.toInt + b.toInt) (Value.binary .add (.int a) (.int b)) ∧
      ExactOrOverflow (a.toInt - b.toInt) (Value.binary .sub (.int a) (.int b)) ∧
      ExactOrOverflow (a.toInt * b.toInt) (Value.binary .mul (.int a) (.int b)) ∧
      (Value.binary .div (.int a) (.int b) = .error .divisionByZero ↔ b = 0) ∧
      (Value.binary .div (.int a) (.int b) = .error .overflow ↔ a = Int64.minValue ∧ b = -1) ∧
      (b ≠ 0 → ¬ (a = Int64.minValue ∧ b = -1) → ∃ q : Int64,
        Value.binary .div (.int a) (.int b) = .ok (.int q) ∧
        IsQuotient a.toInt b.toInt q.toInt)) ∧
    ∀ e : Expr, e.Arithmetic → ∀ (call : CallHandler) (m : Machine),
      (∀ n m', e.eval call m = .done (.int n) m' ↔
        m' = m ∧ (∀ o ∈ e.operations, o.fault? = none) ∧ n.toInt = e.exactValue) ∧
      (¬ (∀ o ∈ e.operations, o.fault? = none) → ∃ before o after cause,
        e.operations = before ++ o :: after ∧ (∀ o' ∈ before, o'.fault? = none) ∧
        o.fault? = some cause ∧ e.eval call m = .fault cause m) := by
  refine ⟨fun a b => ⟨Value.ofExact_exact _, Value.ofExact_exact _, Value.ofExact_exact _, ?_⟩,
    fun e he call m => ?_⟩
  · obtain ⟨rfl, hdiv⟩ | ⟨hb, hlimit, hdiv⟩ | ⟨hb, hlimit, q, hdiv, hq⟩ := Value.div_cases a b
    · rw [hdiv]
      exact ⟨⟨fun _ => rfl, fun _ => rfl⟩, ⟨nofun, fun h => nomatch h.2⟩, fun h => absurd rfl h⟩
    · rw [hdiv]
      exact ⟨⟨nofun, fun h => absurd h hb⟩, ⟨fun _ => hlimit, fun _ => rfl⟩,
        fun _ h => absurd hlimit h⟩
    · rw [hdiv]
      exact ⟨⟨nofun, fun h => absurd h hb⟩, ⟨nofun, fun h => absurd h hlimit⟩,
        fun _ _ => ⟨q, rfl, hq⟩⟩
  · obtain ⟨hnone, k, hk, hdone⟩ | ⟨cause, hsome, hfault⟩ := he.eval_cases call m
    · rw [List.findSome?_eq_none_iff] at hnone
      refine ⟨fun n m' => ⟨fun h => ?_, fun ⟨hm', _, hn⟩ => ?_⟩, fun h => absurd hnone h⟩
      · cases hdone.symm.trans h
        exact ⟨rfl, hnone, hk⟩
      · rw [hdone, hm', Int64.toInt_inj.1 (hn.trans hk.symm)]
    · obtain ⟨before, o, after, hsplit, ho, hbefore⟩ := List.findSome?_eq_some_iff.1 hsome
      refine ⟨fun n m' => ⟨fun h => ?_, fun ⟨_, hnone, _⟩ => ?_⟩,
        fun _ => ⟨before, o, after, cause, hsplit, hbefore, ho, hfault⟩⟩
      · cases hfault.symm.trans h
      · rw [List.findSome?_eq_none_iff.2 hnone] at hsome
        cases hsome

/-- The quotient of the smallest integer by minus one stands in front of a division by zero, and the
overflow is found first. Halved first, the same integer can be negated, and the rest of a division
is dropped toward zero. -/
theorem int_arithmetic_exact_limit :
    ∃ (e e' : Expr) (n : Int64) (o : Operation),
      e = .binary (.binary (.int Int64.minValue) .div (.int (-1))) .add
        (.binary (.int 1) .div (.int 0)) ∧
      e' = .binary (.binary (.binary (.int Int64.minValue) .div (.int 2)) .div (.int (-1))) .sub
        (.binary (.int (-7)) .div (.int 2)) ∧
      e.Arithmetic ∧ e'.Arithmetic ∧ o = ⟨.div, -2 ^ 63, -1⟩ ∧ o.fault? = some .overflow ∧
      n.toInt = 2 ^ 62 + 3 ∧
      ∀ (call : CallHandler) (m : Machine), e.eval call m = .fault .overflow m ∧
        e'.eval call m = .done (.int n) m := by
  let e : Expr := .binary (.binary (.int Int64.minValue) .div (.int (-1))) .add
    (.binary (.int 1) .div (.int 0))
  let e' : Expr :=
    .binary (.binary (.binary (.int Int64.minValue) .div (.int 2)) .div (.int (-1))) .sub
      (.binary (.int (-7)) .div (.int 2))
  have hquotient (a b : Int64) : (Expr.binary (.int a) .div (.int b)).Arithmetic :=
    .binary (.int a) rfl (.int b)
  have he : e.Arithmetic := .binary (hquotient _ _) rfl (hquotient _ _)
  have he' : e'.Arithmetic := .binary (.binary (hquotient _ _) rfl (.int _)) rfl (hquotient _ _)
  have hfault : Operation.fault? ⟨.div, -2 ^ 63, -1⟩ = some .overflow := by decide
  refine ⟨e, e', Int64.ofInt (2 ^ 62 + 3), ⟨.div, -2 ^ 63, -1⟩, rfl, rfl, he, he', rfl, hfault,
    by decide, fun call m => ⟨?_, ?_⟩⟩
  · obtain ⟨before, o, after, cause, hsplit, hbefore, ho, hrun⟩ :=
      (int_arithmetic_exact.2 e he call m).2 (by decide)
    have hfirst : e.operations.head? = some ⟨.div, -2 ^ 63, -1⟩ := rfl
    rw [hsplit] at hfirst
    cases before with
    | nil =>
      cases hfirst
      cases hfault.symm.trans ho
      exact hrun
    | cons o' before =>
      cases hfirst
      cases hfault.symm.trans (hbefore _ List.mem_cons_self)
  · exact ((int_arithmetic_exact.2 e' he' call m).1 _ m).2 ⟨rfl, by decide, by decide⟩

end Scriptlet
