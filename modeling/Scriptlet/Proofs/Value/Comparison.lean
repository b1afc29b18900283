import Scriptlet.Proofs.Decimal.Order
import Scriptlet.Proofs.Text.Utf8
import Scriptlet.Value.Operators

/-!
# Scriptlet.Proofs.Value.Comparison

**Comparisons agree with each other.** A comparison looks at its operands once, to find out how they
are ordered, and the six operators only read the answer in different ways. So their laws are laws of
`Value.order?`, which says how two values are ordered, and of `accepts`, which says what an operator
makes of it.

Numbers are ordered as integers if both are, and else as floats; only a NaN is not ordered. Texts
have the order of their scalar values, and the bytes of their encodings have it too.
-/

namespace Scriptlet

/-- The operator that asks the same of its operands in the other order. -/
def BinOp.converse : BinOp → BinOp
  | .lt => .gt
  | .gt => .lt
  | .le => .ge
  | .ge => .le
  | op => op

namespace Value

/-! ### Reading an ordering -/

theorem accepts_converse (op : BinOp) (o : Option Ordering) :
    accepts op.converse (o.map Ordering.swap) = accepts op o := by
  cases o with
  | none => cases op <;> rfl
  | some o => cases o <;> cases op <;> rfl

theorem accepts_le (o : Option Ordering) :
    accepts .le o = (accepts .lt o || accepts .eq o) := by
  cases o with
  | none => rfl
  | some o => cases o <;> rfl

theorem accepts_ge (o : Option Ordering) :
    accepts .ge o = (accepts .gt o || accepts .eq o) := by
  cases o with
  | none => rfl
  | some o => cases o <;> rfl

theorem accepts_ne (o : Option Ordering) : accepts .ne o = !accepts .eq o := by
  cases o with
  | none => rfl
  | some o => cases o <;> rfl

theorem accepts_lt_iff {o : Option Ordering} : accepts .lt o ↔ o = some .lt := by
  cases o with
  | none => decide
  | some o => cases o <;> decide

theorem accepts_eq_iff {o : Option Ordering} : accepts .eq o ↔ o = some .eq := by
  cases o with
  | none => decide
  | some o => cases o <;> decide

/-- An ordering is accepted by one of the three strict operators. -/
theorem existsUnique_accepts (o : Ordering) :
    ∃! op : BinOp, (op = .lt ∨ op = .eq ∨ op = .gt) ∧ accepts op (some o) := by
  cases o with
  | lt =>
    refine ⟨.lt, ⟨.inl rfl, rfl⟩, fun op ⟨hop, h⟩ => ?_⟩
    obtain rfl | rfl | rfl := hop
    · rfl
    · cases h
    · cases h
  | eq =>
    refine ⟨.eq, ⟨.inr (.inl rfl), rfl⟩, fun op ⟨hop, h⟩ => ?_⟩
    obtain rfl | rfl | rfl := hop
    · cases h
    · rfl
    · cases h
  | gt =>
    refine ⟨.gt, ⟨.inr (.inr rfl), rfl⟩, fun op ⟨hop, h⟩ => ?_⟩
    obtain rfl | rfl | rfl := hop
    · cases h
    · cases h
    · rfl

/-! ### What is compared -/

/-- The operator compares the two values: each of the six compares numbers and texts, and `==` and
`!=` compare booleans as well. -/
def Comparable (op : BinOp) (l r : Value) : Prop :=
  (l.isNumber ∧ r.isNumber) ∨ (l.type = .string ∧ r.type = .string) ∨
    (op = .eq ∨ op = .ne) ∧ l.type = .bool ∧ r.type = .bool

/-- The comparison gives `true`. -/
def Holds (op : BinOp) (l r : Value) : Prop :=
  comparison op l r = .ok (.bool true)

/-- Whether the value is a NaN. -/
def isNaN : Value → Bool
  | float x => x.isNaN
  | _ => false

/-- How two values are ordered. A NaN is not ordered with anything, nor are values that no operator
compares. -/
def order? : Value → Value → Option Ordering
  | int a, int b => some (compare a.toInt b.toInt)
  | int a, float y => Decimal.order? (promote a) y
  | float x, int b => Decimal.order? x (promote b)
  | float x, float y => Decimal.order? x y
  | str s, str t => some (compare s t)
  | bool a, bool b => some (compare a b)
  | _, _ => none

theorem order?_swap (l r : Value) : r.order? l = (l.order? r).map Ordering.swap := by
  cases l <;> cases r
  case int.int a b => exact congrArg some Std.OrientedOrd.eq_swap
  case int.float a y => exact Decimal.order?_swap _ _
  case float.int x b => exact Decimal.order?_swap _ _
  case float.float x y => exact Decimal.order?_swap _ _
  case str.str s t => exact congrArg some Std.OrientedOrd.eq_swap
  case bool.bool a b => exact congrArg some Std.OrientedOrd.eq_swap
  all_goals rfl

/-- Two numbers, two texts or two booleans. -/
inductive Kindred : Value → Value → Prop
  | ints (a b : Int64) : Kindred (.int a) (.int b)
  | intFloat (a : Int64) (y : Float) : Kindred (.int a) (.float y)
  | floatInt (x : Float) (b : Int64) : Kindred (.float x) (.int b)
  | floats (x y : Float) : Kindred (.float x) (.float y)
  | texts (s t : String) : Kindred (.str s) (.str t)
  | booleans (a b : Bool) : Kindred (.bool a) (.bool b)

theorem Comparable.kindred {op : BinOp} {l r : Value} (h : Comparable op l r) : Kindred l r := by
  obtain ⟨hl, hr⟩ | ⟨hl, hr⟩ | ⟨-, hl, hr⟩ := h
  · cases l with
    | int a =>
      cases r with
      | int b => exact .ints a b
      | float y => exact .intFloat a y
      | _ => cases hr
    | float x =>
      cases r with
      | int b => exact .floatInt x b
      | float y => exact .floats x y
      | _ => cases hr
    | _ => cases hl
  · cases l with
    | str s =>
      cases r with
      | str t => exact .texts s t
      | _ => cases hr
    | _ => cases hl
  · cases l with
    | bool a =>
      cases r with
      | bool b => exact .booleans a b
      | _ => cases hr
    | _ => cases hl

/-- **What a comparison gives**: the operator reads the order of the values. -/
theorem comparison_of_comparable {op : BinOp} {l r : Value} (h : Comparable op l r) :
    comparison op l r = .ok (.bool (accepts op (l.order? r))) := by
  cases h.kindred with
  | booleans a b =>
    obtain ⟨hl, -⟩ | ⟨hl, -⟩ | ⟨hop, -⟩ := h
    · cases hl
    · cases hl
    · exact if_pos hop
  | _ => rfl

theorem comparison_of_not_comparable {op : BinOp} {l r : Value} (h : ¬ Comparable op l r) :
    comparison op l r = .error (.typeMismatch (.incomparable op l.type r.type)) := by
  cases l <;> cases r
  case int.int | int.float | float.int | float.float => exact absurd (.inl ⟨rfl, rfl⟩) h
  case str.str => exact absurd (.inr (.inl ⟨rfl, rfl⟩)) h
  case bool.bool => exact if_neg fun hop => h (.inr (.inr ⟨hop, rfl, rfl⟩))
  all_goals rfl

theorem holds_iff {op : BinOp} {l r : Value} (h : Comparable op l r) :
    Holds op l r ↔ accepts op (l.order? r) := by
  rw [Holds, comparison_of_comparable h, Except.ok.injEq, Value.bool.injEq]

/-! ### Values without an order -/

theorem nearestRank_le (num den : Nat) :
    Decimal.nearestRank num den ≤ Decimal.infinityRank := by
  rw [Decimal.nearestRank]
  split
  · exact Nat.zero_le _
  · exact Nat.min_le_left _ _

theorem isNaN_promote (n : Int64) : (promote n).isNaN = false :=
  Decimal.isNaN_ofRank (nearestRank_le _ _) _

/-- Values of a kind are ordered, unless one of them is a NaN. -/
theorem order?_eq_none_iff {l r : Value} (h : Kindred l r) :
    l.order? r = none ↔ l.isNaN ∨ r.isNaN := by
  have hfalse : ¬ (false = true ∨ false = true) := by decide
  cases h with
  | ints a b => exact iff_of_false nofun hfalse
  | intFloat a y =>
    rw [order?, Decimal.order?_eq_none_iff, isNaN_promote]
    rfl
  | floatInt x b =>
    rw [order?, Decimal.order?_eq_none_iff, isNaN_promote]
    rfl
  | floats x y => exact Decimal.order?_eq_none_iff
  | texts s t => exact iff_of_false nofun hfalse
  | booleans a b => exact iff_of_false nofun hfalse

/-- Numbers are ordered as floats if one of them is a float. -/
theorem order?_of_toFloat {l r : Value} {x y : Float} (hl : l.toFloat = .ok x)
    (hr : r.toFloat = .ok y) (hfloat : l.type = .float ∨ r.type = .float) :
    l.order? r = Decimal.order? x y := by
  cases l with
  | int a =>
    cases hl
    cases r with
    | int b => cases hfloat <;> contradiction
    | float y => cases hr; rfl
    | _ => cases hr
  | float x =>
    cases hl
    cases r with
    | int b => cases hr; rfl
    | float y => cases hr; rfl
    | _ => cases hr
  | _ => cases hl

theorem isNumber_of_toFloat {v : Value} {x : Float} (h : v.toFloat = .ok x) : v.isNumber := by
  cases v with
  | int n => rfl
  | float x => rfl
  | _ => cases h

/-! ### The laws -/

namespace Comparable

theorem symm {op : BinOp} {l r : Value} (h : Comparable op l r) : Comparable op r l :=
  h.imp And.symm (Or.imp And.symm (And.imp_right And.symm))

/-- Values that have an order can be equal. -/
theorem all {l r : Value} (h : Comparable .lt l r) (op : BinOp) : Comparable op l r :=
  h.imp_right (Or.imp_right fun ⟨hop, _⟩ => hop.elim nofun nofun)

theorem ne {l r : Value} (h : Comparable .eq l r) : Comparable .ne l r :=
  h.imp_right (Or.imp_right fun hbool => ⟨.inr rfl, hbool.2⟩)

end Comparable

/-- The operands of a comparison can change places, together with its direction. -/
theorem comparison_converse {op : BinOp} {l r : Value} (h : Comparable op l r)
    (h' : Comparable op.converse r l) : comparison op l r = comparison op.converse r l := by
  rw [comparison_of_comparable h, comparison_of_comparable h', order?_swap l r,
    accepts_converse]

/-- The laws of the comparisons of two values for which there is an order. -/
structure OrderLaws (l r : Value) : Prop where
  lt_eq_gt : comparison .lt l r = comparison .gt r l
  le_eq_ge : comparison .le l r = comparison .ge r l
  le_iff : Holds .le l r ↔ Holds .lt l r ∨ Holds .eq l r
  ge_iff : Holds .ge l r ↔ Holds .gt l r ∨ Holds .eq l r
  /-- Exactly one of three holds. -/
  one_of_three : ¬ (l.isNaN ∨ r.isNaN) →
    ∃! op : BinOp, (op = .lt ∨ op = .eq ∨ op = .gt) ∧ Holds op l r
  /-- Of a NaN all but one are false. -/
  only_ne : l.isNaN ∨ r.isNaN →
    ∀ op : BinOp, op.operatorClass = .comparison → (Holds op l r ↔ op = .ne)

/-- The laws of the comparisons of two values that can be equal. -/
structure EqualityLaws (l r : Value) : Prop where
  eq_symm : comparison .eq l r = comparison .eq r l
  ne_symm : comparison .ne l r = comparison .ne r l
  ne_iff : Holds .ne l r ↔ ¬ Holds .eq l r

theorem orderLaws {l r : Value} (h : Comparable .lt l r) : OrderLaws l r where
  lt_eq_gt := comparison_converse h (h.all .gt).symm
  le_eq_ge := comparison_converse (h.all .le) (h.all .ge).symm
  le_iff := by
    rw [holds_iff (h.all .le), holds_iff h, holds_iff (h.all .eq), accepts_le, Bool.or_eq_true]
  ge_iff := by
    rw [holds_iff (h.all .ge), holds_iff (h.all .gt), holds_iff (h.all .eq), accepts_ge,
      Bool.or_eq_true]
  one_of_three := by
    intro hnan
    obtain ⟨o, ho⟩ := Option.ne_none_iff_exists'.1 (mt (order?_eq_none_iff h.kindred).1 hnan)
    simp only [holds_iff (h.all _), ho]
    exact existsUnique_accepts o
  only_ne := by
    intro hnan op hop
    rw [holds_iff (h.all op), (order?_eq_none_iff h.kindred).2 hnan]
    exact decide_eq_true_iff

theorem equalityLaws {l r : Value} (h : Comparable .eq l r) : EqualityLaws l r where
  eq_symm := comparison_converse h h.symm
  ne_symm := comparison_converse h.ne h.ne.symm
  ne_iff := by
    rw [holds_iff h.ne, holds_iff h, accepts_ne, Bool.not_eq_true', Bool.not_eq_true]

theorem holds_lt_str {s t : String} : Holds .lt (.str s) (.str t) ↔ s < t := by
  rw [holds_iff (.inr (.inl ⟨rfl, rfl⟩)), accepts_lt_iff, order?, Option.some_inj,
    compare_lt_iff_lt]

end Value

open Value

/-- **Comparisons agree with each other.** Each of the six gives a boolean for two numbers and for
two texts, `==` and `!=` also for two booleans, and everything else is a type mismatch that names
the operator and both types. Where there is an order, `<` and `>` as well as `<=` and `>=` say the
same with the operands exchanged, the weak operators add equality to the strict ones, and exactly
one of `<`, `==` and `>` holds; with a NaN only `!=` does. Equality is symmetric and `!=` is its
negation.

The order is that of the integers for two integers and that of the floats if one of two numbers is a
float. On texts it is a strict total order, the lexicographic one by scalar values, which is also
the one by the bytes of UTF-8. -/
theorem comparisons_consistent :
    (∀ (op : BinOp) (l r : Value), op.operatorClass = .comparison →
      (Comparable op l r → ∃ b, comparison op l r = .ok (.bool b)) ∧
      (¬ Comparable op l r →
        comparison op l r = .error (.typeMismatch (.incomparable op l.type r.type)))) ∧
    (∀ l r : Value, Comparable .lt l r → OrderLaws l r) ∧
    (∀ l r : Value, Comparable .eq l r → EqualityLaws l r) ∧
    (∀ a b : Int64, (Holds .lt (.int a) (.int b) ↔ a < b) ∧
      (Holds .eq (.int a) (.int b) ↔ a = b)) ∧
    (∀ (l r : Value) (x y : Float), l.toFloat = .ok x → r.toFloat = .ok y →
      l.type = .float ∨ r.type = .float →
      (Holds .lt l r ↔ x < y) ∧ (Holds .eq l r ↔ x == y)) ∧
    (∀ a b : Bool, Holds .eq (.bool a) (.bool b) ↔ a = b) ∧
    IsStrictTotalOrder String (fun s t => Holds .lt (.str s) (.str t)) ∧
    ∀ s t : String,
      (Holds .lt (.str s) (.str t) ↔ s.toList.map Char.toNat < t.toList.map Char.toNat) ∧
      (Holds .lt (.str s) (.str t) ↔ s.toUTF8.data.toList < t.toUTF8.data.toList) ∧
      (Holds .eq (.str s) (.str t) ↔ s = t) := by
  refine ⟨fun op l r _ => ⟨fun h => ⟨_, comparison_of_comparable h⟩, comparison_of_not_comparable⟩,
    fun l r => orderLaws, fun l r => equalityLaws, fun a b => ?ints,
    fun l r x y hx hy hfloat => ?floats, fun a b => ?bools, ?strict, fun s t => ?texts⟩
  case ints =>
    have hnumbers (op : BinOp) : Comparable op (.int a) (.int b) := .inl ⟨rfl, rfl⟩
    rw [holds_iff (hnumbers .lt), holds_iff (hnumbers .eq), accepts_lt_iff, accepts_eq_iff, order?,
      Option.some_inj, Option.some_inj, compare_lt_iff_lt, compare_eq_iff_eq,
      Int64.lt_iff_toInt_lt, Int64.toInt_inj]
    exact ⟨Iff.rfl, Iff.rfl⟩
  case floats =>
    have hnumbers (op : BinOp) : Comparable op l r :=
      .inl ⟨isNumber_of_toFloat hx, isNumber_of_toFloat hy⟩
    rw [holds_iff (hnumbers .lt), holds_iff (hnumbers .eq), accepts_lt_iff, accepts_eq_iff,
      order?_of_toFloat hx hy hfloat]
    exact ⟨Decimal.order?_eq_lt_iff, Decimal.order?_eq_eq_iff⟩
  case bools =>
    rw [holds_iff (.inr (.inr ⟨.inl rfl, rfl, rfl⟩)), accepts_eq_iff, order?, Option.some_inj,
      compare_eq_iff_eq]
  case strict =>
    have hlt : (fun s t => Holds .lt (.str s) (.str t)) = fun s t : String => s < t :=
      funext₂ fun s t => propext holds_lt_str
    rw [hlt]
    infer_instance
  case texts =>
    refine ⟨holds_lt_str.trans Text.map_toNat_lt_iff.symm,
      holds_lt_str.trans Text.toUTF8_lt_iff.symm, ?_⟩
    rw [holds_iff (.inr (.inl ⟨rfl, rfl⟩)), accepts_eq_iff, order?, Option.some_inj,
      compare_eq_iff_eq]

/-- The integer after `2 ^ 53` becomes the float `2 ^ 53` where it meets a float, and neither is
less than the other. A NaN differs from it. Booleans have no order, but `true` differs from `false`.
Of two characters the one with the larger scalar value is the larger, although the code that it has
in UTF-16 starts with the smaller unit. -/
theorem comparisons_consistent_rounded :
    ∃ i x nan : Value, i = .int 9007199254740993 ∧ x = .float 9007199254740992.0 ∧
      nan = .float (Float.ofBits 0x7FF8000000000000) ∧
      Comparable .lt i x ∧ ¬ (i.isNaN ∨ x.isNaN) ∧ Holds .eq i x ∧ ¬ Holds .lt i x ∧
      comparison .le i x = .ok (.bool true) ∧
      Comparable .lt nan i ∧ nan.isNaN ∧ Holds .ne nan i ∧ ¬ Holds .eq nan i ∧
      Comparable .eq (.bool true) (.bool false) ∧ Holds .ne (.bool true) (.bool false) ∧
      ¬ Comparable .lt (.bool true) (.bool false) ∧
      comparison .lt (.bool true) (.bool false) =
        .error (.typeMismatch (.incomparable .lt .bool .bool)) ∧
      Holds .lt (.str "ｚ") (.str "😀") := by
  let i : Value := .int 9007199254740993
  let x : Value := .float 9007199254740992.0
  let nan : Value := .float (Float.ofBits 0x7FF8000000000000)
  obtain ⟨hdefined, horder, hequality, -, hfloats, hbools, -, htexts⟩ := comparisons_consistent
  have hix : Comparable .lt i x := .inl ⟨rfl, rfl⟩
  have hnumber : ¬ (i.isNaN ∨ x.isNaN) := by decide
  have hnan : Comparable .lt nan i := .inl ⟨rfl, rfl⟩
  have hisNaN : nan.isNaN := rfl
  have hboolean : Comparable .eq (.bool true) (.bool false) := .inr (.inr ⟨.inl rfl, rfl, rfl⟩)
  have hunordered : ¬ Comparable .lt (.bool true) (.bool false) := by
    rintro (⟨h, -⟩ | ⟨h, -⟩ | ⟨h | h, -⟩) <;> cases h
  have heq : Holds .eq i x := (hfloats i x _ _ rfl rfl (.inr rfl)).2.2 rfl
  have hlt : ¬ Holds .lt i x := fun hlt =>
    nomatch ((horder i x hix).one_of_three hnumber).unique ⟨.inl rfl, hlt⟩ ⟨.inr (.inl rfl), heq⟩
  have honly := (horder nan i hnan).only_ne (.inl hisNaN)
  have hnotEq : ¬ Holds .eq nan i := fun h => nomatch (honly .eq rfl).1 h
  have hne : ¬ Holds .eq (.bool true) (.bool false) := fun h => nomatch (hbools _ _).1 h
  exact ⟨i, x, nan, rfl, rfl, rfl, hix, hnumber, heq, hlt,
    (horder i x hix).le_iff.2 (.inr heq), hnan, hisNaN, (honly .ne rfl).2 rfl, hnotEq, hboolean,
    (hequality _ _ hboolean).ne_iff.2 hne, hunordered, (hdefined .lt _ _ rfl).2 hunordered,
    (htexts "ｚ" "😀").1.2 (by decide)⟩

end Scriptlet
