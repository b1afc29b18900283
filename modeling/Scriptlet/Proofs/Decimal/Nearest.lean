import Mathlib.Data.Int.Log
import Mathlib.Data.Rat.Floor
import Mathlib.Tactic.FieldSimp
import Mathlib.Tactic.Linarith
import Mathlib.Tactic.Positivity
import Mathlib.Tactic.Ring
import Scriptlet.Decimal.Shortest

/-!
# Scriptlet.Proofs.Decimal.Nearest

**Rounding depends on the value alone, and is exact on the format.** The rank nearest to a quotient
is a function of the quotient as a rational number, so a common factor of numerator and denominator
does not matter (`nearestRank_mul`). The value of a finite rank is nearest to that rank
(`nearestRank_value`). Together they are what lets a decimal that stands for the value of a rank be
read as that rank, however it is written.
-/

namespace Scriptlet.Decimal

/-! ### The scale of a quotient -/

/-- Only the difference of the two parts of an exponent counts. -/
theorem two_pow_toNat (q : Int) : (2 : ℚ) ^ q.toNat = 2 ^ q * 2 ^ (-q).toNat := by
  have hsum : (q.toNat : Int) = q + (-q).toNat := by omega
  rw [← zpow_natCast, ← zpow_natCast, hsum, zpow_add₀ (by norm_num)]

/-- A quotient is too small for 53 bits at a scale exactly if its logarithm is. -/
theorem short_iff {a b : Nat} (ha : 0 < a) (hb : 0 < b) (q : Int) :
    a * Nat.pow 2 (-q).toNat < b * Nat.pow 2 q.toNat * significandCount ↔
      Int.log 2 (a / b : ℚ) < q + 52 := by
  have hpow : (0 : ℚ) < 2 ^ (-q).toNat := by positivity
  have hb' : (0 : ℚ) < b := by exact_mod_cast hb
  have hcount : (significandCount : ℚ) = 2 ^ (52 : Int) := by norm_num [significandCount]
  have hfactor : (b : ℚ) * (2 ^ q * 2 ^ (-q).toNat) * 2 ^ (52 : Int) =
      2 ^ q * 2 ^ (52 : Int) * b * 2 ^ (-q).toNat := by ring
  rw [← Int.lt_zpow_iff_log_lt (by norm_num) (by positivity), div_lt_iff₀ hb',
    ← Nat.cast_lt (α := ℚ)]
  push_cast [Nat.pow_eq]
  rw [two_pow_toNat q, hcount, zpow_add₀ (by norm_num), hfactor]
  exact mul_lt_mul_iff_left₀ hpow

/-- The lengths of two numbers in bits give the logarithm of their quotient up to one. -/
theorem log_bounds {a b : Nat} (ha : 0 < a) (hb : 0 < b) :
    (a.log2 : Int) - b.log2 - 1 ≤ Int.log 2 (a / b : ℚ) ∧
      Int.log 2 (a / b : ℚ) ≤ (a.log2 : Int) - b.log2 := by
  have hb' : (0 : ℚ) < b := by exact_mod_cast hb
  have hle : ∀ {n : Nat}, 0 < n → ((2 : ℕ) : ℚ) ^ (n.log2 : Int) ≤ n := fun hn => by
    rw [zpow_natCast]
    exact_mod_cast Nat.log2_self_le (Nat.ne_of_gt hn)
  have hlt : ∀ n : Nat, (n : ℚ) < ((2 : ℕ) : ℚ) ^ ((n.log2 : Int) + 1) := fun n => by
    rw [← Nat.cast_one, ← Nat.cast_add, zpow_natCast]
    exact_mod_cast Nat.lt_log2_self
  constructor
  · rw [← Int.zpow_le_iff_le_log (by norm_num) (by positivity), le_div_iff₀ hb']
    calc ((2 : ℕ) : ℚ) ^ ((a.log2 : Int) - b.log2 - 1) * b
        ≤ (2 : ℕ) ^ ((a.log2 : Int) - b.log2 - 1) * (2 : ℕ) ^ ((b.log2 : Int) + 1) := by
          exact mul_le_mul_of_nonneg_left (hlt b).le (zpow_nonneg (by norm_num) _)
      _ = (2 : ℕ) ^ (a.log2 : Int) := by
          rw [← zpow_add₀ (by norm_num)]
          congr 1
          ring
      _ ≤ a := hle ha
  · rw [← Int.lt_add_one_iff, ← Int.lt_zpow_iff_log_lt (by norm_num) (by positivity),
      div_lt_iff₀ hb']
    calc (a : ℚ) < (2 : ℕ) ^ ((a.log2 : Int) + 1) := hlt a
      _ = (2 : ℕ) ^ ((a.log2 : Int) - b.log2 + 1) * (2 : ℕ) ^ (b.log2 : Int) := by
          rw [← zpow_add₀ (by norm_num)]
          congr 1
          ring
      _ ≤ (2 : ℕ) ^ ((a.log2 : Int) - b.log2 + 1) * b := by
          exact mul_le_mul_of_nonneg_left (hle hb) (zpow_nonneg (by norm_num) _)

/-- The scale of a quotient is that of its binary logarithm. -/
theorem scaleExponent_eq {a b : Nat} (ha : 0 < a) (hb : 0 < b) :
    scaleExponent a b = max (Int.log 2 (a / b : ℚ) - 52) (-1074) := by
  obtain ⟨hlow, hhigh⟩ := log_bounds ha hb
  have hshort := short_iff ha hb ((a.log2 : Int) - b.log2 - 52)
  rw [scaleExponent]
  split
  · rename_i h
    have := hshort.1 h
    congr 1
    omega
  · rename_i h
    have := fun hlt => h (hshort.2 hlt)
    congr 1
    omega

/-! ### Rounding -/

theorem roundQuotient_mul (a b : Nat) {c : Nat} (hc : 0 < c) :
    roundQuotient (a * c) (b * c) = roundQuotient a b := by
  have hlt : 2 * (a % b) * c < b * c ↔ 2 * (a % b) < b := Nat.mul_lt_mul_right hc
  have hgt : b * c < 2 * (a % b) * c ↔ b < 2 * (a % b) := Nat.mul_lt_mul_right hc
  simp only [roundQuotient, Nat.mul_div_mul_right a b hc, Nat.mul_mod_mul_right, ← Nat.mul_assoc,
    hlt, hgt]

theorem roundQuotient_self_mul (m : Nat) {b : Nat} (hb : 0 < b) : roundQuotient (m * b) b = m := by
  simp [roundQuotient, Nat.mul_div_cancel m hb, hb]

/-- A common factor of numerator and denominator does not change the nearest rank. -/
theorem nearestRank_mul {a b c : Nat} (hb : 0 < b) (hc : 0 < c) :
    nearestRank (a * c) (b * c) = nearestRank a b := by
  rcases Nat.eq_zero_or_pos a with rfl | ha
  · simp [nearestRank]
  · have hscale : scaleExponent (a * c) (b * c) = scaleExponent a b := by
      have hc' : (c : ℚ) ≠ 0 := by exact_mod_cast hc.ne'
      rw [scaleExponent_eq (Nat.mul_pos ha hc) (Nat.mul_pos hb hc), scaleExponent_eq ha hb]
      push_cast
      rw [mul_div_mul_right _ _ hc']
    have hround : ∀ x y : Nat, roundQuotient (a * c * x) (b * c * y) =
        roundQuotient (a * x) (b * y) := fun x y => by
      rw [Nat.mul_right_comm a, Nat.mul_right_comm b, roundQuotient_mul _ _ hc]
    simp only [nearestRank, hscale, hround, (Nat.mul_pos ha hc).ne', ha.ne', if_false]

/-- A value that needs no rounding at a scale of the format. -/
theorem nearestRank_exact {m : Nat} {q : Int} (hpos : 0 < m) (hm : m < 2 * significandCount)
    (hq : -1074 ≤ q) (hnormal : significandCount ≤ m ∨ q = -1074) :
    nearestRank (m * Nat.pow 2 q.toNat) (Nat.pow 2 (-q).toNat) =
      min infinityRank ((q + 1074).toNat * significandCount + m) := by
  have hden : 0 < Nat.pow 2 (-q).toNat := Nat.pow_pos (by norm_num)
  have hnum : 0 < m * Nat.pow 2 q.toNat := Nat.mul_pos hpos (Nat.pow_pos (by norm_num))
  have hvalue : ((m * Nat.pow 2 q.toNat : ℕ) : ℚ) / (Nat.pow 2 (-q).toNat : ℕ) = m * 2 ^ q := by
    have hpow : (2 : ℚ) ^ (-q).toNat ≠ 0 := by positivity
    push_cast [Nat.pow_eq]
    rw [two_pow_toNat q, ← mul_assoc, mul_div_cancel_right₀ _ hpow]
  -- a full significand puts the logarithm between `q + 52` and `q + 53`, so the scale is `q`; a
  -- smaller one is only allowed at the least scale, where the lower bound is not needed
  have hpos' : (0 : ℚ) < m * 2 ^ q := mul_pos (by exact_mod_cast hpos) (zpow_pos (by norm_num) q)
  have hlow : significandCount ≤ m → q + 52 ≤ Int.log 2 ((m : ℚ) * 2 ^ q) := fun h => by
    have hm' : (2 : ℚ) ^ (52 : Int) ≤ m := by
      calc (2 : ℚ) ^ (52 : Int) = (significandCount : ℚ) := by norm_num [significandCount]
        _ ≤ m := by exact_mod_cast h
    rw [← Int.zpow_le_iff_le_log (by norm_num) hpos', Nat.cast_ofNat, add_comm,
      zpow_add₀ (by norm_num)]
    exact mul_le_mul_of_nonneg_right hm' (zpow_nonneg (by norm_num) q)
  have hhigh : Int.log 2 ((m : ℚ) * 2 ^ q) < q + 53 := by
    have hm' : (m : ℚ) < 2 ^ (53 : Int) := by
      calc (m : ℚ) < (2 * significandCount : ℕ) := by exact_mod_cast hm
        _ = 2 ^ (53 : Int) := by norm_num [significandCount]
    rw [← Int.lt_zpow_iff_log_lt (by norm_num) hpos', Nat.cast_ofNat, add_comm,
      zpow_add₀ (by norm_num)]
    exact mul_lt_mul_of_pos_right hm' (zpow_pos (by norm_num) q)
  have hscale : scaleExponent (m * Nat.pow 2 q.toNat) (Nat.pow 2 (-q).toNat) = q := by
    rw [scaleExponent_eq hnum hden, hvalue]
    rcases hnormal with h | rfl
    · have := hlow h
      omega
    · omega
  have hround : roundQuotient (m * Nat.pow 2 q.toNat * Nat.pow 2 (-q).toNat)
      (Nat.pow 2 (-q).toNat * Nat.pow 2 q.toNat) = m := by
    rw [Nat.mul_assoc, Nat.mul_comm (Nat.pow 2 (-q).toNat)]
    exact roundQuotient_self_mul m (Nat.mul_pos (Nat.pow_pos (by norm_num)) hden)
  simp only [nearestRank, hscale, hround, hnum.ne', if_false]

theorem significand_pos {r : Nat} (hr : 0 < r) : 0 < significand r := by
  rw [significand]
  split
  · exact hr
  · exact Nat.add_pos_left (by norm_num [significandCount]) _

theorem significand_lt (r : Nat) : significand r < 2 * significandCount := by
  rw [significand]
  split
  · omega
  · have := Nat.mod_lt r (show 0 < significandCount by norm_num [significandCount])
    omega

theorem le_binaryExponent (r : Nat) : -1074 ≤ binaryExponent r := by
  rw [binaryExponent]
  split
  · exact Int.le_refl _
  · simp only [significandCount] at *
    omega

/-- A finite rank is its exponent and its significand side by side. -/
theorem rank_eq_sum (r : Nat) :
    (binaryExponent r + 1074).toNat * significandCount + significand r = r := by
  rw [binaryExponent, significand]
  split
  · simp
  · simp only [significandCount] at *
    omega

/-- The value of a finite rank is nearest to that rank. -/
theorem nearestRank_value {r : Nat} (hpos : 0 < r) (hr : r < infinityRank) :
    nearestRank (numerator r) (denominator r) = r := by
  have hnormal : significandCount ≤ significand r ∨ binaryExponent r = -1074 := by
    rw [significand, binaryExponent]
    split
    · exact .inr rfl
    · exact .inl (Nat.le_add_right _ _)
  rw [numerator, denominator, nearestRank_exact (significand_pos hpos) (significand_lt r)
    (le_binaryExponent r) hnormal, rank_eq_sum]
  exact Nat.min_eq_right hr.le

end Scriptlet.Decimal
