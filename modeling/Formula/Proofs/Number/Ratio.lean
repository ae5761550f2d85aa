import Formula.Number.Decimal
import Formula.Proofs.Number.Rounding
import Mathlib.Algebra.Order.Field.Power
import Mathlib.Data.Int.Log
import Mathlib.Data.Rat.Floor
import Mathlib.Tactic.FieldSimp
import Mathlib.Tactic.Linarith
import Mathlib.Tactic.NormNum
import Mathlib.Tactic.Positivity

namespace Formula

namespace Ratio

variable {ratio ratio' : Ratio} {base n bound : Nat} {exponent : Int}

def value (ratio : Ratio) : ℚ :=
  ratio.num / ratio.den

theorem pow_toNat_div (hbase : base ≠ 0) (exponent : Int) :
    (base : ℚ) ^ exponent.toNat / (base : ℚ) ^ (-exponent).toNat = (base : ℚ) ^ exponent := by
  have hne : (base : ℚ) ≠ 0 := by exact_mod_cast hbase
  rcases Int.le_total 0 exponent with hup | hdown
  · have hzero : (-exponent).toNat = 0 := by omega
    rw [hzero, pow_zero, div_one, ← zpow_natCast, Int.toNat_of_nonneg hup]
  · have hzero : exponent.toNat = 0 := by omega
    rw [hzero, pow_zero, one_div, ← zpow_natCast, Int.toNat_of_nonneg (by omega), zpow_neg, inv_inv]

theorem den_onScale_pos (hbase : base ≠ 0) (hden : 0 < ratio.den) :
    0 < (ratio.onScale base exponent).den :=
  Nat.mul_pos hden (Nat.pow_pos (Nat.pos_of_ne_zero hbase))

theorem value_onScale (hbase : base ≠ 0) :
    (ratio.onScale base exponent).value = ratio.value * (base : ℚ) ^ (-exponent) := by
  have hpower := pow_toNat_div hbase (-exponent)
  rw [Int.neg_neg] at hpower
  rw [← hpower, value, value, onScale]
  push_cast [Nat.pow_eq]
  exact mul_div_mul_comm _ _ _ _

theorem value_ofScaled (hbase : base ≠ 0) :
    (ofScaled n base exponent).value = n * (base : ℚ) ^ exponent := by
  rw [ofScaled, value_onScale hbase, Int.neg_neg]
  simp [value, ofNat]

theorem den_ofScaled_pos (hbase : base ≠ 0) : 0 < (ofScaled n base exponent).den :=
  den_onScale_pos hbase Nat.one_pos

theorem num_pos_iff (hden : 0 < ratio.den) : 0 < ratio.num ↔ 0 < ratio.value := by
  have hpositive : (0 : ℚ) < ratio.den := by exact_mod_cast hden
  rw [value, div_pos_iff_of_pos_right hpositive, Nat.cast_pos]

theorem atLeastOne_iff (hden : 0 < ratio.den) : ratio.atLeastOne = true ↔ 1 ≤ ratio.value := by
  have hpositive : (0 : ℚ) < ratio.den := by exact_mod_cast hden
  rw [atLeastOne, decide_eq_true_iff, value, one_le_div hpositive, Nat.cast_le]

theorem round_scale (ratio : Ratio) {k : Nat} (hk : 0 < k) :
    round ⟨ratio.num * k, ratio.den * k⟩ = ratio.round := by
  have hless : 2 * (ratio.num % ratio.den * k) < ratio.den * k ↔
      2 * (ratio.num % ratio.den) < ratio.den := by
    rw [← Nat.mul_assoc, Nat.mul_lt_mul_right hk]
  have hsame : 2 * (ratio.num % ratio.den * k) = ratio.den * k ↔
      2 * (ratio.num % ratio.den) = ratio.den := by
    rw [← Nat.mul_assoc, Nat.mul_left_inj (Nat.ne_of_gt hk)]
  have hdown : roundsDown ⟨ratio.num * k, ratio.den * k⟩ = ratio.roundsDown := by
    rw [Bool.eq_iff_iff]
    simp only [roundsDown, floor, Nat.mul_mod_mul_right, Nat.mul_div_mul_right _ _ hk,
      Bool.or_eq_true, Bool.and_eq_true, decide_eq_true_eq, beq_iff_eq, hless, hsame]
  rw [round, round, hdown, floor, floor, Nat.mul_div_mul_right _ _ hk]

theorem mul_den_eq (hden : 0 < ratio.den) (hden' : 0 < ratio'.den)
    (h : ratio.value = ratio'.value) : ratio.num * ratio'.den = ratio'.num * ratio.den := by
  have hne : (ratio.den : ℚ) ≠ 0 := by exact_mod_cast Nat.ne_of_gt hden
  have hne' : (ratio'.den : ℚ) ≠ 0 := by exact_mod_cast Nat.ne_of_gt hden'
  have hcross := (div_eq_div_iff hne hne').mp h
  exact_mod_cast hcross

/-- Rounding depends on the value alone. -/
theorem round_congr (hden : 0 < ratio.den) (hden' : 0 < ratio'.den)
    (h : ratio.value = ratio'.value) : ratio.round = ratio'.round := by
  rw [← round_scale ratio hden', ← round_scale ratio' hden, mul_den_eq hden hden' h,
    Nat.mul_comm ratio.den]

theorem le_round_of_le_value (hden : 0 < ratio.den) (h : (bound : ℚ) ≤ ratio.value) :
    bound ≤ ratio.round := by
  have hpositive : (0 : ℚ) < ratio.den := by exact_mod_cast hden
  rw [value, le_div_iff₀ hpositive] at h
  exact le_round hden (by exact_mod_cast h)

theorem round_eq_of_value (hden : 0 < ratio.den) (h : ratio.value = bound) :
    ratio.round = bound := by
  have hne : (ratio.den : ℚ) ≠ 0 := by exact_mod_cast Nat.ne_of_gt hden
  rw [value, div_eq_iff hne] at h
  exact round_eq_of_mul hden (by exact_mod_cast h)

theorem round_eq_zero (hden : 0 < ratio.den) (h : ratio.value < 1 / 2) : ratio.round = 0 := by
  have hpositive : (0 : ℚ) < ratio.den := by exact_mod_cast hden
  rw [value, div_lt_div_iff₀ hpositive two_pos, one_mul] at h
  have htwice : ratio.num * 2 < ratio.den := by exact_mod_cast h
  have hsmall : ratio.num < ratio.den := by omega
  have hdown : ratio.roundsDown = true := by
    simp only [roundsDown, Nat.mod_eq_of_lt hsmall, Bool.or_eq_true, decide_eq_true_eq]
    omega
  rw [round, if_pos hdown]
  exact Nat.div_eq_of_lt hsmall

theorem value_eq_floor (hden : 0 < ratio.den) (h : ratio.isWhole = true) :
    ratio.value = ratio.floor := by
  have hmod : ratio.num % ratio.den = 0 := by simpa [isWhole] using h
  have hne : (ratio.den : ℚ) ≠ 0 := by exact_mod_cast Nat.ne_of_gt hden
  rw [value, div_eq_iff hne, floor]
  exact_mod_cast (Nat.div_mul_cancel (Nat.dvd_of_mod_eq_zero hmod)).symm

theorem two_pow_log2_bounds (hn : 0 < n) :
    (2 : ℚ) ^ (n.log2 : Int) ≤ n ∧ (n : ℚ) < 2 ^ ((n.log2 : Int) + 1) := by
  have hlower := Nat.log2_self_le (Nat.ne_of_gt hn)
  have hupper := @Nat.lt_log2_self n
  have hnext : ((n.log2 : Int) + 1) = (n.log2 + 1 : Nat) := by omega
  rw [hnext, zpow_natCast, zpow_natCast]
  constructor
  · exact_mod_cast hlower
  · exact_mod_cast hupper

/-- The binary logarithm is at most one below its guess. -/
theorem binaryLog_bounds (hnum : 0 < ratio.num) (hden : 0 < ratio.den) :
    (2 : ℚ) ^ ratio.binaryLog ≤ ratio.value ∧ ratio.value < 2 ^ (ratio.binaryLog + 1) := by
  obtain ⟨hnumLower, hnumUpper⟩ := two_pow_log2_bounds hnum
  obtain ⟨hdenLower, hdenUpper⟩ := two_pow_log2_bounds hden
  have hpositive : (0 : ℚ) < ratio.den := by exact_mod_cast hden
  have hreach : ∀ guess : Int, (ratio.onScale 2 guess).atLeastOne = true ↔
      (2 : ℚ) ^ guess ≤ ratio.value := by
    intro guess
    rw [atLeastOne_iff (den_onScale_pos two_ne_zero hden), value_onScale two_ne_zero, zpow_neg,
      ← div_eq_mul_inv, one_le_div (by positivity)]
    norm_cast
  have hlower : (2 : ℚ) ^ ((ratio.num.log2 : Int) - ratio.den.log2 - 1) ≤ ratio.value := by
    rw [value, le_div_iff₀ hpositive]
    calc (2 : ℚ) ^ ((ratio.num.log2 : Int) - ratio.den.log2 - 1) * ratio.den
        ≤ 2 ^ ((ratio.num.log2 : Int) - ratio.den.log2 - 1) * 2 ^ ((ratio.den.log2 : Int) + 1) :=
          mul_le_mul_of_nonneg_left hdenUpper.le (by positivity)
      _ = 2 ^ (ratio.num.log2 : Int) := by
          rw [← zpow_add₀ two_ne_zero]
          congr 1
          omega
      _ ≤ ratio.num := hnumLower
  have hupper : ratio.value < (2 : ℚ) ^ ((ratio.num.log2 : Int) - ratio.den.log2 + 1) := by
    rw [value, div_lt_iff₀ hpositive]
    calc (ratio.num : ℚ) < 2 ^ ((ratio.num.log2 : Int) + 1) := hnumUpper
      _ = 2 ^ ((ratio.num.log2 : Int) - ratio.den.log2 + 1) * 2 ^ (ratio.den.log2 : Int) := by
          rw [← zpow_add₀ two_ne_zero]
          congr 1
          omega
      _ ≤ 2 ^ ((ratio.num.log2 : Int) - ratio.den.log2 + 1) * ratio.den :=
          mul_le_mul_of_nonneg_left hdenLower (by positivity)
  rw [binaryLog]
  split
  next h => exact ⟨(hreach _).mp h, hupper⟩
  next h =>
    rw [Int.sub_add_cancel]
    exact ⟨hlower, lt_of_not_ge fun hle => h ((hreach _).mpr hle)⟩

theorem binaryLog_eq_log (hnum : 0 < ratio.num) (hden : 0 < ratio.den) :
    ratio.binaryLog = Int.log 2 ratio.value := by
  have hpositive := (num_pos_iff hden).mp hnum
  obtain ⟨hlower, hupper⟩ := binaryLog_bounds hnum hden
  have hle := (Int.zpow_le_iff_le_log Nat.one_lt_two hpositive).mp (by exact_mod_cast hlower)
  have hlt := (Int.lt_zpow_iff_log_lt Nat.one_lt_two hpositive).mp (by exact_mod_cast hupper)
  omega

end Ratio

end Formula
