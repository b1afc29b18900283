import Scriptlet.Proofs.Decimal.Nearest

/-!
# Scriptlet.Proofs.Decimal.Shortest

**The shortest decimal reads back.** Its rank is the rank it was made for (`rank_shortest`): a grid
point is only taken if that is so, and the exact decimal value of a rank is a common factor away
from the value of the rank. Also, neither its digits nor its exponent are large, which is what the
reading of written exponents needs.
-/

namespace Scriptlet.Decimal

/-! ### The rank of a decimal -/

theorem rank_eq_nearestRank {d : Decimal} (hdigits : d.digits ≠ 0) (hhigh : d.exponent ≤ 400)
    (hlow : -1075 ≤ (d.digits.log2 : Int) + 1 + 3 * d.exponent) :
    d.rank =
      nearestRank (d.digits * Nat.pow 10 d.exponent.toNat) (Nat.pow 10 (-d.exponent).toNat) := by
  rw [rank, if_neg hdigits, if_neg (Int.not_lt.2 hhigh), if_neg (Int.not_lt.2 hlow)]

/-- A power of ten may move from the exponent to the digits. -/
theorem rank_mul_ten_pow (d n : Nat) (hn : n ≤ 400) :
    Decimal.rank ⟨d * 10 ^ (n + 1), -1⟩ = Decimal.rank ⟨d, n⟩ := by
  rcases Nat.eq_zero_or_pos d with rfl | hd
  · simp [rank]
  · have hmul : 0 < d * 10 ^ (n + 1) := Nat.mul_pos hd (Nat.pow_pos (by norm_num))
    rw [rank_eq_nearestRank hmul.ne' (by norm_num) (by simp only; omega),
      rank_eq_nearestRank hd.ne' (by simp only; omega) (by simp only; omega)]
    have hzero : (-(n : Int)).toNat = 0 := by omega
    have hten := nearestRank_mul (a := d * 10 ^ n) (b := 1) (c := 10) (by norm_num) (by norm_num)
    rw [Nat.mul_assoc, ← Nat.pow_succ, Nat.one_mul] at hten
    simp only [hzero, Int.toNat_natCast, Nat.pow_eq, Nat.pow_zero, Int.neg_neg, Nat.mul_one,
      show (-1 : Int).toNat = 0 from rfl, show (1 : Int).toNat = 1 from rfl, Nat.pow_one]
    exact hten

/-- The exact decimal value of a rank has that rank. -/
theorem rank_exactDecimal {r : Nat} (hpos : 0 < r) (hr : r < infinityRank) :
    (exactDecimal r).rank = r := by
  have hsig := significand_pos hpos
  have hexp := le_binaryExponent r
  have hvalue := nearestRank_value hpos hr
  rw [numerator, denominator] at hvalue
  simp only [exactDecimal]
  split
  · rename_i hq
    -- `m / 2 ^ k` is written as `m * 5 ^ k / 10 ^ k`; `5 ^ k` is the common factor
    obtain ⟨k, hk⟩ : ∃ k : Nat, binaryExponent r = -k := ⟨(-binaryExponent r).toNat, by omega⟩
    have hzero : (-(k : Int)).toNat = 0 := by omega
    have hdigits : 0 < significand r * 5 ^ k := Nat.mul_pos hsig (Nat.pow_pos (by norm_num))
    have hlog : 2 * k ≤ (significand r * 5 ^ k).log2 := by
      rw [Nat.le_log2 hdigits.ne', Nat.pow_mul]
      calc (2 ^ 2) ^ k ≤ 5 ^ k := Nat.pow_le_pow_left (by norm_num) k
        _ ≤ significand r * 5 ^ k := Nat.le_mul_of_pos_left _ hsig
    simp only [hk, Int.neg_neg, Int.toNat_natCast, Nat.pow_eq, hzero, Nat.pow_zero,
      Nat.mul_one] at hvalue ⊢
    rw [rank_eq_nearestRank hdigits.ne' (by simp only; omega) (by simp only; omega)]
    simp only [Int.neg_neg, Int.toNat_natCast, Nat.pow_eq, hzero, Nat.pow_zero, Nat.mul_one]
    rw [show 10 ^ k = 2 ^ k * 5 ^ k by rw [← Nat.mul_pow],
      nearestRank_mul (Nat.pow_pos (by norm_num)) (Nat.pow_pos (by norm_num))]
    exact hvalue
  · rename_i hq
    -- an integer, written with all its digits
    have hzero : (-binaryExponent r).toNat = 0 := by omega
    have hdigits : 0 < significand r * Nat.pow 2 (binaryExponent r).toNat :=
      Nat.mul_pos hsig (Nat.pow_pos (by norm_num))
    rw [rank_eq_nearestRank hdigits.ne' (by norm_num) (by simp only; omega)]
    rw [hzero] at hvalue
    simpa using hvalue

/-! ### The search -/

/-- A grid point that is taken reads back, and is next to the value. -/
theorem gridPoint?_eq_some {r : Nat} {k : Int} {digits : Nat} (h : gridPoint? r k = some digits) :
    Decimal.rank ⟨digits, k⟩ = r ∧ digits ≤ numerator r * Nat.pow 10 (-k).toNat + 1 := by
  have hbelow : numerator r * Nat.pow 10 (-k).toNat / (denominator r * Nat.pow 10 k.toNat) ≤
      numerator r * Nat.pow 10 (-k).toNat := Nat.div_le_self _ _
  simp only [gridPoint?] at h
  split at h
  · rename_i hb ha
    split at h
    · cases h
      exact ⟨of_decide_eq_true hb, by omega⟩
    · cases h
      exact ⟨of_decide_eq_true ha, by omega⟩
  · rename_i hb ha
    cases h
    exact ⟨of_decide_eq_true hb, by omega⟩
  · rename_i hb ha
    cases h
    exact ⟨of_decide_eq_true ha, by omega⟩
  · cases h

theorem searchGrids_eq_some {r n : Nat} {k : Int} {d : Decimal} (h : searchGrids r n k = some d) :
    d.rank = r ∧ k - n < d.exponent ∧ d.exponent ≤ k ∧
      d.digits ≤ numerator r * Nat.pow 10 (-d.exponent).toNat + 1 := by
  induction n generalizing k with
  | zero => cases h
  | succ n ih =>
    rw [searchGrids] at h
    split at h
    · rename_i digits hgrid
      cases h
      obtain ⟨hrank, hle⟩ := gridPoint?_eq_some hgrid
      exact ⟨hrank, by simp only; omega, Int.le_refl _, hle⟩
    · obtain ⟨hrank, hlow, hhigh, hle⟩ := ih h
      exact ⟨hrank, by omega, by omega, hle⟩

/-- **The shortest decimal reads back** as the finite rank it was made for. -/
theorem rank_shortest {r : Nat} (hr : r < infinityRank) : (shortest r).rank = r := by
  rw [shortest]
  split
  · rename_i h
    rw [h]
    rfl
  · rename_i h
    cases hsearch : searchGrids r 22 (coarsestGrid r) with
    | none => exact rank_exactDecimal (Nat.pos_of_ne_zero h) hr
    | some d => exact (searchGrids_eq_some hsearch).1

/-! ### Size -/

theorem binaryExponent_le {r : Nat} (hr : r < infinityRank) : binaryExponent r ≤ 971 := by
  simp only [infinityRank] at hr
  rw [binaryExponent]
  split
  · norm_num
  · simp only [significandCount] at *
    omega

theorem log2_numerator_lt {r : Nat} (hpos : 0 < r) :
    (numerator r).log2 < 53 + (binaryExponent r).toNat := by
  have hnum : 0 < numerator r := Nat.mul_pos (significand_pos hpos) (Nat.pow_pos (by norm_num))
  rw [Nat.log2_lt hnum.ne', Nat.pow_add]
  exact Nat.mul_lt_mul_of_pos_right (significand_lt r) (Nat.pow_pos (by norm_num))

theorem coarsestGrid_bounds {r : Nat} (hpos : 0 < r) (hr : r < infinityRank) :
    -330 ≤ coarsestGrid r ∧ coarsestGrid r ≤ 330 := by
  have hlog := log2_numerator_lt hpos
  have hlow := le_binaryExponent r
  have hhigh := binaryExponent_le hr
  have hden : (denominator r).log2 = (-binaryExponent r).toNat := Nat.log2_two_pow
  rw [coarsestGrid, hden]
  omega

/-- A significand times a power of at most ten. -/
theorem significand_mul_pow_lt (r : Nat) {b : Nat} (hb : b ≤ 10) (hpos : 0 < b) (n : Nat) :
    significand r * b ^ n < 10 ^ (16 + n) := by
  have hsig : significand r < 10 ^ 16 :=
    Nat.lt_of_lt_of_le (significand_lt r) (by norm_num [significandCount])
  calc significand r * b ^ n < 10 ^ 16 * b ^ n :=
        Nat.mul_lt_mul_of_pos_right hsig (Nat.pow_pos hpos)
    _ ≤ 10 ^ 16 * 10 ^ n := Nat.mul_le_mul_left _ (Nat.pow_le_pow_left hb n)
    _ = 10 ^ (16 + n) := (Nat.pow_add 10 16 n).symm

theorem length_toDigits_le {d n : Nat} (hn : 0 < n) (h : d < 10 ^ n) :
    (Nat.toDigits 10 d).length ≤ n :=
  (Nat.length_toDigits_le_iff (by norm_num) hn).2 h

theorem length_exactDecimal {r : Nat} (hr : r < infinityRank) :
    (Nat.toDigits 10 (exactDecimal r).digits).length ≤ 2000 := by
  have hlow := le_binaryExponent r
  have hhigh := binaryExponent_le hr
  simp only [exactDecimal]
  split
  · have := length_toDigits_le (by omega)
      (significand_mul_pow_lt r (b := 5) (by norm_num) (by norm_num) (-binaryExponent r).toNat)
    exact this.trans (by omega)
  · have := length_toDigits_le (by omega)
      (significand_mul_pow_lt r (b := 2) (by norm_num) (by norm_num) (binaryExponent r).toNat)
    exact this.trans (by omega)

theorem length_gridPoint {r digits j : Nat} (hr : r < infinityRank) (hj : j ≤ 400)
    (h : digits ≤ numerator r * Nat.pow 10 j + 1) : (Nat.toDigits 10 digits).length ≤ 2000 := by
  have hhigh := binaryExponent_le hr
  have hnum := significand_mul_pow_lt r (b := 2) (by norm_num) (by norm_num)
    (binaryExponent r).toNat
  have hlt : digits < 10 ^ (16 + (binaryExponent r).toNat + j + 1) := by
    calc digits ≤ numerator r * 10 ^ j + 1 := h
      _ ≤ (numerator r + 1) * 10 ^ j := by
          rw [Nat.add_one_mul]
          exact Nat.add_le_add_left (Nat.pow_pos (by norm_num)) _
      _ ≤ 10 ^ (16 + (binaryExponent r).toNat) * 10 ^ j := Nat.mul_le_mul_right _ hnum
      _ = 10 ^ (16 + (binaryExponent r).toNat + j) := (Nat.pow_add ..).symm
      _ < 10 ^ (16 + (binaryExponent r).toNat + j + 1) := Nat.pow_lt_pow_succ (by norm_num)
  exact (length_toDigits_le (by omega) hlt).trans (by omega)

/-- Neither the digits nor the exponent of a shortest decimal are beyond a few thousand places. -/
theorem shortest_bounds {r : Nat} (hr : r < infinityRank) :
    (Nat.toDigits 10 (shortest r).digits).length ≤ 2000 ∧ -2000 ≤ (shortest r).exponent ∧
      (shortest r).exponent ≤ 400 := by
  rw [shortest]
  split
  · decide
  · rename_i h
    cases hsearch : searchGrids r 22 (coarsestGrid r) with
    | none =>
      have hlow := le_binaryExponent r
      refine ⟨length_exactDecimal hr, ?_⟩
      simp only [Option.getD_none, exactDecimal]
      split <;> simp only <;> omega
    | some d =>
      obtain ⟨hlow, hhigh⟩ := coarsestGrid_bounds (Nat.pos_of_ne_zero h) hr
      obtain ⟨-, hgt, hle, hdigits⟩ := searchGrids_eq_some hsearch
      rw [Option.getD_some]
      exact ⟨length_gridPoint hr (by omega) hdigits, by omega, by omega⟩

end Scriptlet.Decimal
