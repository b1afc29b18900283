import Mathlib
import Scriptlet.Decimal.Rank

/-!
# Scriptlet.Proofs.Decimal.Bits

**Floats are their ranks.** A finite float and the pair of its sign and its rank determine each
other. The type `Float` is a bit pattern in the logic, but `Float.ofBits` goes through an unpacked
form, because it replaces every NaN by one of them. So what has to be seen is that the pattern of a
finite number is none of a NaN.

A number that is the same as a finite one is finite, since sameness is equality of ranks with their
signs.
-/

namespace Scriptlet.Decimal

open Float.Model Float.Model.UnpackedFloat

/-- A word of finite magnitude has an exponent that is not all ones. -/
theorem unpackExponent_ne {w : UInt64} (h : w.toNat % signWeight < infinityRank) :
    @unpackExponent Format.binary64 w.toBitVec ≠ -1#_ := by
  intro hones
  have hnat : w.toNat / 2 ^ 52 % 2 ^ 11 = 2047 := by
    have hval := congrArg BitVec.toNat hones
    simpa [unpackExponent, Nat.shiftRight_eq_div_pow] using hval
  simp only [signWeight, infinityRank] at h
  omega

theorem toBits_ofBits {w : UInt64} (h : w.toNat % signWeight < infinityRank) :
    (Float.ofBits w).toBits = w := by
  have hnan : ¬@isNaNBits Format.binary64 w.toBitVec := fun hnan =>
    unpackExponent_ne h (of_decide_eq_true hnan).1
  change UInt64.ofBitVec ((unpack Format.binary64 w.toBitVec).pack Format.binary64) = w
  rw [pack_unpack, if_neg hnan]

theorem toNat_word {r : Nat} (h : r < infinityRank) (negative : Bool) :
    (UInt64.ofNat (if negative then signWeight + r else r)).toNat =
      if negative then signWeight + r else r := by
  simp only [infinityRank] at h
  rw [UInt64.toNat_ofNat']
  cases negative <;> simp only [signWeight, if_true, Bool.false_eq_true, if_false] <;> omega

theorem toNat_toBits_ofRank {r : Nat} (h : r < infinityRank) (negative : Bool) :
    (ofRank negative r).toBits.toNat = if negative then signWeight + r else r := by
  have hword := toNat_word h negative
  rw [ofRank, toBits_ofBits, hword]
  rw [hword]
  simp only [infinityRank] at h ⊢
  cases negative <;> simp only [signWeight, if_true, Bool.false_eq_true, if_false] <;> omega

/-- A finite number has the rank it is made from. -/
theorem magnitudeRank?_ofRank {r : Nat} (h : r < infinityRank) (negative : Bool) :
    magnitudeRank? (ofRank negative r) = some r := by
  rw [magnitudeRank?, toNat_toBits_ofRank h]
  have hmod : (if negative then signWeight + r else r) % signWeight = r := by
    simp only [infinityRank] at h
    cases negative <;> simp only [signWeight, if_true, Bool.false_eq_true, if_false] <;> omega
  rw [hmod]
  exact if_pos (Nat.le_of_lt h)

theorem isNegative_ofRank {r : Nat} (h : r < infinityRank) (negative : Bool) :
    isNegative (ofRank negative r) = negative := by
  rw [isNegative, toNat_toBits_ofRank h]
  simp only [infinityRank] at h
  cases negative with
  | true => simp [signWeight]
  | false =>
    simp only [Bool.false_eq_true, if_false, decide_eq_false_iff_not, signWeight]
    omega

/-- A finite number is made from its sign and its rank. -/
theorem ofRank_magnitudeRank? {x : Float} {r : Nat} (hx : magnitudeRank? x = some r)
    (h : r < infinityRank) : ofRank (isNegative x) r = x := by
  apply Float.toBits_inj.1
  apply UInt64.toNat_inj.1
  rw [toNat_toBits_ofRank h]
  have hlt := x.toBits.toNat_lt
  simp only [magnitudeRank?, Option.ite_none_right_eq_some, Option.some.injEq] at hx
  obtain ⟨-, rfl⟩ := hx
  by_cases hneg : signWeight ≤ x.toBits.toNat
  · simp only [isNegative, hneg, decide_true, if_true]
    simp only [signWeight] at *
    omega
  · simp only [isNegative, hneg, decide_false, Bool.false_eq_true, if_false]
    exact Nat.mod_eq_of_lt (Nat.not_le.1 hneg)

/-- A finite number has a sign and a rank. -/
theorem exists_ofRank_of_isFinite {x : Float} (h : isFinite x) :
    ∃ r < infinityRank, x = ofRank (isNegative x) r := by
  unfold isFinite at h
  split at h
  · rename_i r hr
    have hlt := of_decide_eq_true h
    exact ⟨r, hlt, (ofRank_magnitudeRank? hr hlt).symm⟩
  · cases h

theorem isFinite_ofRank {r : Nat} (hr : r < infinityRank) (negative : Bool) :
    isFinite (ofRank negative r) := by
  simp [isFinite, magnitudeRank?_ofRank hr, hr]

/-! ### Sameness -/

/-- Two numbers are the same if and only if they have one signed rank. -/
theorem sameNumber_iff {x y : Float} :
    sameNumber x y ↔ ∃ n, signedRank? x = some n ∧ signedRank? y = some n := by
  rw [sameNumber, order?]
  cases signedRank? x with
  | none => simp
  | some m =>
    cases signedRank? y with
    | none => simp
    | some n => simpa using eq_comm

theorem signedRank?_ofRank {r : Nat} (hr : r < infinityRank) :
    signedRank? (ofRank false r) = some (r : Int) := by
  simp [signedRank?, magnitudeRank?_ofRank hr, isNegative_ofRank hr]

theorem sameNumber_self {r : Nat} (hr : r < infinityRank) :
    sameNumber (ofRank false r) (ofRank false r) :=
  sameNumber_iff.2 ⟨r, signedRank?_ofRank hr, signedRank?_ofRank hr⟩

/-- What is the same number as a finite one is finite too. -/
theorem isFinite_of_sameNumber {r : Nat} (hr : r < infinityRank) {x : Float}
    (h : sameNumber (ofRank false r) x) : isFinite x := by
  obtain ⟨n, hn, hx⟩ := sameNumber_iff.1 h
  obtain rfl : (r : Int) = n := Option.some.inj ((signedRank?_ofRank hr).symm.trans hn)
  cases hm : magnitudeRank? x with
  | none => simp [signedRank?, hm] at hx
  | some m =>
    have hm' : (if isNegative x then -(m : Int) else m) = r := by
      simpa [signedRank?, hm] using hx
    have hlt : m < infinityRank := by
      split at hm' <;> omega
    simpa [isFinite, hm] using hlt

end Scriptlet.Decimal
