import Scriptlet.Proofs.Decimal.Bits
import Scriptlet.Proofs.Decimal.Nearest

/-!
# Scriptlet.Proofs.Decimal.Order

**Ranks carry the order.** Comparing two floats by their signed ranks is the comparison of the
format: it looks at the signs, then at the exponents and last at the significands, takes the two
zeros to be equal and leaves a NaN unordered.
-/

namespace Scriptlet.Decimal

open Float.Model Float.Model.UnpackedFloat

/-! ### The parts of a word -/

theorem toNat_unpackExponent (w : UInt64) :
    (@unpackExponent Format.binary64 w.toBitVec).toNat = w.toNat / 2 ^ 52 % 2 ^ 11 := by
  simp [unpackExponent, Nat.shiftRight_eq_div_pow]

theorem toNat_unpackMantissa (w : UInt64) :
    (@unpackMantissa Format.binary64 w.toBitVec).toNat = w.toNat % 2 ^ 52 := by
  simp [unpackMantissa]

theorem toNat_unpackSign (w : UInt64) :
    (@unpackSign Format.binary64 w.toBitVec).toNat = w.toNat / 2 ^ 63 := by
  have hbit : w.toNat / 9223372036854775808 < 2 := by
    have hlt := w.toNat_lt
    omega
  simp [unpackSign, Nat.shiftRight_eq_div_pow, Nat.mod_eq_of_lt hbit]

/-! ### Ranks of unpacked numbers -/

/-- The sign of a float, which also a zero has. -/
def signOf (x : Float) : Sign :=
  Sign.ofBitVec (@unpackSign Format.binary64 x.toBits.toBitVec)

theorem signOf_eq (x : Float) : signOf x = if isNegative x then .negative else .positive := by
  have hsign := toNat_unpackSign x.toBits
  have hlt := x.toBits.toNat_lt
  have hzero : @unpackSign Format.binary64 x.toBits.toBitVec = 0#1 ↔ isNegative x = false := by
    rw [← BitVec.toNat_inj, hsign, isNegative, signWeight, BitVec.toNat_ofNat,
      decide_eq_false_iff_not]
    omega
  rw [signOf, Sign.ofBitVec]
  cases hneg : isNegative x with
  | true => rw [if_neg (by rw [hzero, hneg]; decide), if_pos rfl]
  | false => rw [if_pos (hzero.2 hneg), if_neg Bool.false_ne_true]

/-- An unpacked number and its signed rank. -/
inductive Ranked : Float.Model.UnpackedFloat → Int → Prop
  | zero (s : Sign) : Ranked (.zero s) 0
  | infinity (s : Sign) : Ranked (.infinity s) (s.apply infinityRank)
  | finite (s : Sign) {m : Nat} {e : Int} (hm : 0 < m) {r : Nat} (hpos : 0 < r)
    (hr : r < infinityRank) (hsignificand : m = significand r) (hexponent : e = binaryExponent r) :
    Ranked (.finite s m e hm) (s.apply r)

theorem signedRank?_of_le {x : Float} {r : Nat} (hx : x.toBits.toNat % signWeight = r)
    (hr : r ≤ infinityRank) : signedRank? x = some ((signOf x).apply r) := by
  rw [signOf_eq]
  cases hneg : isNegative x <;> simp [signedRank?, magnitudeRank?, hx, hr, hneg, Sign.apply]

theorem signedRank?_of_gt {x : Float} (hx : infinityRank < x.toBits.toNat % signWeight) :
    signedRank? x = none := by
  simp [signedRank?, magnitudeRank?, Nat.not_le.2 hx]

theorem magnitude_eq (w : UInt64) :
    w.toNat % signWeight = (@unpackExponent Format.binary64 w.toBitVec).toNat * 2 ^ 52 +
      (@unpackMantissa Format.binary64 w.toBitVec).toNat := by
  rw [toNat_unpackExponent, toNat_unpackMantissa, signWeight]
  omega

theorem significand_sum {e m : Nat} (he : 0 < e) (hm : m < 2 ^ 52) :
    significand (e * 2 ^ 52 + m) = 2 ^ 52 + m := by
  rw [significand, significandCount]
  split <;> omega

theorem binaryExponent_sum {e m : Nat} (he : 0 < e) (hm : m < 2 ^ 52) :
    binaryExponent (e * 2 ^ 52 + m) = e - 1075 := by
  rw [binaryExponent, significandCount]
  split <;> omega

/-- A float is a NaN without a rank, or its unpacked form has its rank. -/
theorem unpack_cases (x : Float) :
    (signedRank? x = none ∧ x.toModel.unpack = .notANumber) ∨
    ∃ n, signedRank? x = some n ∧ Ranked x.toModel.unpack n := by
  have hmagnitude := magnitude_eq x.toBits
  change _ ∨ ∃ n, _ ∧ Ranked (UnpackedFloat.unpack Format.binary64 x.toBits.toBitVec) n
  change (_ ∧ UnpackedFloat.unpack Format.binary64 x.toBits.toBitVec = _) ∨ _
  fun_cases UnpackedFloat.unpack Format.binary64 x.toBits.toBitVec with
  | case1 m e signVec sign hones hzero =>
    have hrank : x.toBits.toNat % signWeight = infinityRank := by
      rw [hmagnitude, show unpackExponent _ = _ from hones, show unpackMantissa _ = _ from hzero]
      rfl
    exact .inr ⟨_, signedRank?_of_le hrank (Nat.le_refl _), .infinity (signOf x)⟩
  | case2 m e hones hzero =>
    have hpos : m.toNat ≠ 0 := fun h => hzero (BitVec.toNat_inj.1 h)
    refine .inl ⟨signedRank?_of_gt ?_, rfl⟩
    rw [hmagnitude, show unpackExponent _ = _ from hones, infinityRank]
    change _ < 2047 * 2 ^ 52 + m.toNat
    omega
  | case3 m e signVec sign hones hsub hzero =>
    have hrank : x.toBits.toNat % signWeight = 0 := by
      rw [hmagnitude, show unpackExponent _ = _ from hsub, show unpackMantissa _ = _ from hzero]
      rfl
    refine .inr ⟨0, ?_, .zero sign⟩
    rw [signedRank?_of_le hrank (by decide)]
    cases signOf x <;> rfl
  | case4 m e exponent signVec sign hones hsub hzero =>
    have hrank : x.toBits.toNat % signWeight = m.toNat := by
      rw [hmagnitude, show unpackExponent _ = _ from hsub, BitVec.toNat_zero, Nat.zero_mul,
        Nat.zero_add]
    have hlt : m.toNat < significandCount := m.isLt
    have hr : m.toNat < infinityRank := hlt.trans (by decide)
    have hpos : 0 < m.toNat := Nat.pos_of_ne_zero fun h => hzero (BitVec.toNat_inj.1 h)
    refine .inr ⟨_, signedRank?_of_le hrank hr.le, .finite (signOf x) _ hpos hr ?_ ?_⟩
    · rw [significand, if_pos hlt]
    · rw [binaryExponent, if_pos hlt]
      simp only [exponent, hsub]
      rfl
  | case5 m e exponent signVec sign hones hsub =>
    have hrank : x.toBits.toNat % signWeight = e.toNat * 2 ^ 52 + m.toNat := hmagnitude
    have hm : m.toNat < 2 ^ 52 := m.isLt
    have he : e.toNat < 2 ^ 11 := e.isLt
    have hpos : 0 < e.toNat := Nat.pos_of_ne_zero fun h => hsub (BitVec.toNat_inj.1 h)
    have hlt : e.toNat ≠ 2047 := fun h => hones (BitVec.toNat_inj.1 h)
    have hr : e.toNat * 2 ^ 52 + m.toNat < infinityRank := by
      rw [infinityRank]
      omega
    refine .inr ⟨_, signedRank?_of_le hrank hr.le, .finite (signOf x) _ (by omega) hr ?_ ?_⟩
    · rw [significand_sum hpos hm, BitVec.toNat_append,
        ← Nat.shiftLeft_add_eq_or_of_lt hm]
      rfl
    · rw [binaryExponent_sum hpos hm]
      rfl

/-! ### The order of ranks -/

/-- Of two ranks the larger one has the larger exponent, or the same and the larger significand. -/
theorem parts_lt {r t : Nat} (h : r < t) :
    binaryExponent r < binaryExponent t ∨
    binaryExponent r = binaryExponent t ∧ significand r < significand t := by
  by_cases ht : t < significandCount
  · have hr := h.trans ht
    simp only [binaryExponent, significand, if_pos hr, if_pos ht]
    exact .inr ⟨trivial, h⟩
  by_cases hr : r < significandCount
  · simp only [binaryExponent, significand, if_pos hr, if_neg ht]
    simp only [significandCount] at *
    omega
  · simp only [binaryExponent, significand, if_neg hr, if_neg ht]
    simp only [significandCount] at *
    omega

/-- The exponents decide, and the significands if the exponents agree. -/
theorem compare_parts (r t : Nat) :
    (compare (binaryExponent r) (binaryExponent t)).then
      (compare (significand r) (significand t)) = compare (r : Int) (t : Int) := by
  obtain h | rfl | h := Nat.lt_trichotomy r t
  · rw [compare_lt_iff_lt.2 (Int.ofNat_lt.2 h)]
    obtain he | ⟨he, hm⟩ := parts_lt h
    · rw [compare_lt_iff_lt.2 he]
      rfl
    · rw [compare_eq_iff_eq.2 he, compare_lt_iff_lt.2 hm]
      rfl
  · rw [compare_eq_iff_eq.2 rfl, compare_eq_iff_eq.2 rfl, compare_eq_iff_eq.2 rfl]
    rfl
  · rw [compare_gt_iff_gt.2 (Int.ofNat_lt.2 h)]
    obtain he | ⟨he, hm⟩ := parts_lt h
    · rw [compare_gt_iff_gt.2 he]
      rfl
    · rw [compare_eq_iff_eq.2 he.symm, compare_gt_iff_gt.2 hm]
      rfl

theorem compare_neg (a b : Int) : compare (-a) (-b) = (compare a b).swap := by
  rw [← Std.OrientedOrd.eq_swap]
  obtain h | rfl | h := lt_trichotomy a b
  · rw [compare_gt_iff_gt.2 h, compare_gt_iff_gt.2 (neg_lt_neg h)]
  · rw [compare_eq_iff_eq.2 rfl, compare_eq_iff_eq.2 rfl]
  · rw [compare_lt_iff_lt.2 h, compare_lt_iff_lt.2 (neg_lt_neg h)]

theorem some_lt_eq_compare {a b : Int} : some .lt = some (compare a b) ↔ a < b := by
  rw [Option.some_inj, eq_comm, compare_lt_iff_lt]

theorem some_gt_eq_compare {a b : Int} : some .gt = some (compare a b) ↔ b < a := by
  rw [Option.some_inj, eq_comm, compare_gt_iff_gt]

/-- Unpacked numbers are ordered like their ranks. -/
theorem Ranked.compare_eq {f g : Float.Model.UnpackedFloat} {a b : Int} (hf : Ranked f a)
    (hg : Ranked g b) : f.compare g = some (compare a b) := by
  have hinfinity : (0 : Int) < infinityRank := by decide
  cases hf with
  | zero s =>
    cases hg with
    | zero t => rfl
    | infinity t | finite t =>
      cases t <;> simp only [UnpackedFloat.compare, Sign.apply, some_lt_eq_compare,
        some_gt_eq_compare] <;> omega
  | infinity s =>
    cases hg with
    | infinity t => cases s <;> cases t <;> rfl
    | zero t | finite t =>
      cases s <;> cases t <;> simp only [UnpackedFloat.compare, Sign.apply, some_lt_eq_compare,
        some_gt_eq_compare] <;> omega
  | @finite s m e hm r hpos hr hsignificand hexponent =>
    cases hg with
    | zero t | infinity t =>
      cases s <;> cases t <;> simp only [UnpackedFloat.compare, Sign.apply, some_lt_eq_compare,
        some_gt_eq_compare] <;> omega
    | @finite t m' e' hm' r' hpos' hr' hsignificand' hexponent' =>
      have hparts := compare_parts r r'
      rw [← hsignificand, ← hsignificand', ← hexponent, ← hexponent'] at hparts
      cases s with
      | positive =>
        cases t with
        | positive => exact congrArg some hparts
        | negative => exact some_gt_eq_compare.2 (by simp only [Sign.apply]; omega)
      | negative =>
        cases t with
        | positive => exact some_lt_eq_compare.2 (by simp only [Sign.apply]; omega)
        | negative =>
          exact congrArg some ((congrArg Ordering.swap hparts).trans (compare_neg _ _).symm)

theorem Ranked.ne_notANumber {f : Float.Model.UnpackedFloat} {a : Int} (hf : Ranked f a) :
    f ≠ .notANumber := by
  cases hf <;> nofun

/-- **The order of ranks** is that of the format. -/
theorem order?_eq_compare (x y : Float) : order? x y = x.toModel.compare y.toModel := by
  change _ = x.toModel.unpack.compare y.toModel.unpack
  obtain ⟨hx, hnan⟩ | ⟨a, hx, ha⟩ := unpack_cases x
  · rw [order?, hx, hnan, UnpackedFloat.compare]
  · obtain ⟨hy, hnan⟩ | ⟨b, hy, hb⟩ := unpack_cases y
    · rw [order?, hx, hy, hnan, UnpackedFloat.compare]
      exact ha.ne_notANumber
    · rw [order?, hx, hy, ha.compare_eq hb]

theorem order?_eq_lt_iff {x y : Float} : order? x y = some .lt ↔ x < y := by
  rw [order?_eq_compare]
  change _ ↔ decide ((x.toModel.compare y.toModel == some .lt) = true) = true
  rw [decide_eq_true_iff, beq_iff_eq]

theorem order?_eq_eq_iff {x y : Float} : order? x y = some .eq ↔ x == y := by
  rw [order?_eq_compare]
  change _ ↔ (x.toModel.compare y.toModel == some .eq) = true
  rw [beq_iff_eq]

/-- A NaN is what has no rank. -/
theorem signedRank?_eq_none_iff {x : Float} : signedRank? x = none ↔ x.isNaN := by
  change _ ↔ x.toModel.unpack.isNaN
  rw [UnpackedFloat.isNaN_iff]
  obtain ⟨hx, hnan⟩ | ⟨a, hx, ha⟩ := unpack_cases x
  · exact iff_of_true hx hnan
  · rw [hx]
    exact iff_of_false nofun ha.ne_notANumber

theorem order?_eq_none_iff {x y : Float} : order? x y = none ↔ x.isNaN ∨ y.isNaN := by
  rw [← signedRank?_eq_none_iff, ← signedRank?_eq_none_iff, order?]
  cases signedRank? x with
  | none => simp
  | some a =>
    cases signedRank? y with
    | none => simp
    | some b => simp

/-- Operands that change places reverse the order. -/
theorem order?_swap (x y : Float) : order? y x = (order? x y).map Ordering.swap := by
  rw [order?, order?]
  cases signedRank? x with
  | none => cases signedRank? y <;> rfl
  | some a =>
    cases signedRank? y with
    | none => rfl
    | some b => exact congrArg some Std.OrientedOrd.eq_swap

/-- No NaN is made from a rank. -/
theorem isNaN_ofRank {r : Nat} (hr : r ≤ infinityRank) (negative : Bool) :
    (ofRank negative r).isNaN = false := by
  rw [← Bool.not_eq_true, ← signedRank?_eq_none_iff, signedRank?]
  obtain hlt | rfl := Nat.lt_or_eq_of_le hr
  · simp [magnitudeRank?_ofRank hlt]
  · cases negative <;> decide

end Scriptlet.Decimal
