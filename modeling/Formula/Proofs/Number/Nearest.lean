import Formula.Proofs.Number.Integral
import Formula.Proofs.Number.Ratio
import Mathlib

namespace Formula

namespace Binary

open Float.Model Float.Model.UnpackedFloat

variable {ratio ratio' : Ratio}

theorem fractions_pos : 0 < fractions :=
  Nat.two_pow_pos 52

theorem infinityBits_lt_signBit : infinityBits < signBit :=
  Nat.mul_lt_mul_of_pos_right (by omega) fractions_pos

theorem nearestBits_eq (hnum : 0 < ratio.num) (hden : 0 < ratio.den) {exponent : Int}
    (hexponent : exponent = max (Int.log 2 ratio.value - 52) (-1074)) :
    nearestBits ratio = min infinityBits
      ((ratio.onScale 2 exponent).round + (exponent + 1074).toNat * fractions) := by
  rw [nearestBits, if_neg (Nat.ne_of_gt hnum), Ratio.binaryLog_eq_log hnum hden, hexponent]

theorem nearestBits_congr (hden : 0 < ratio.den) (hden' : 0 < ratio'.den)
    (h : ratio.value = ratio'.value) : nearestBits ratio = nearestBits ratio' := by
  by_cases hnum : 0 < ratio.num
  · have hnum' : 0 < ratio'.num := by
      rw [Ratio.num_pos_iff hden', ← h]
      exact (Ratio.num_pos_iff hden).mp hnum
    rw [nearestBits_eq hnum hden rfl, nearestBits_eq hnum' hden' rfl, ← h]
    congr 2
    refine Ratio.round_congr (Ratio.den_onScale_pos two_ne_zero hden)
      (Ratio.den_onScale_pos two_ne_zero hden') ?_
    rw [Ratio.value_onScale two_ne_zero, Ratio.value_onScale two_ne_zero, h]
  · have hnum' : ¬ 0 < ratio'.num := by
      rw [Ratio.num_pos_iff hden', ← h]
      exact fun hpositive => hnum ((Ratio.num_pos_iff hden).mpr hpositive)
    rw [nearestBits, if_pos (by omega), nearestBits, if_pos (by omega)]

theorem nearestBits_of_large (hden : 0 < ratio.den) (h : (2 : ℚ) ^ (1024 : Int) ≤ ratio.value) :
    nearestBits ratio = infinityBits := by
  have hpositive : 0 < ratio.value := lt_of_lt_of_le (by positivity) h
  have hnum := (Ratio.num_pos_iff hden).mpr hpositive
  have hlog : 1024 ≤ Int.log 2 ratio.value :=
    (Int.zpow_le_iff_le_log Nat.one_lt_two hpositive).mp (by exact_mod_cast h)
  have hexponent : Int.log 2 ratio.value - 52 = max (Int.log 2 ratio.value - 52) (-1074) := by omega
  have hself : (2 : ℚ) ^ Int.log 2 ratio.value ≤ ratio.value := by
    exact_mod_cast Int.zpow_log_le_self Nat.one_lt_two hpositive
  have hround : 2 ^ 52 ≤ (ratio.onScale 2 (Int.log 2 ratio.value - 52)).round := by
    refine Ratio.le_round_of_le_value (Ratio.den_onScale_pos two_ne_zero hden) ?_
    rw [Ratio.value_onScale two_ne_zero]
    calc ((2 ^ 52 : Nat) : ℚ)
        = 2 ^ Int.log 2 ratio.value * 2 ^ (-(Int.log 2 ratio.value - 52)) := by
          rw [← zpow_add₀ two_ne_zero, show Int.log 2 ratio.value +
            -(Int.log 2 ratio.value - 52) = (52 : Nat) by omega, zpow_natCast]
          norm_num
      _ ≤ ratio.value * (2 : Nat) ^ (-(Int.log 2 ratio.value - 52)) :=
          mul_le_mul_of_nonneg_right hself (by positivity)
  have hfractions : fractions = 4503599627370496 := rfl
  rw [nearestBits_eq hnum hden hexponent, infinityBits, hfractions]
  omega

theorem nearestBits_of_small (hden : 0 < ratio.den) (h : ratio.value < (2 : ℚ) ^ (-1075 : Int)) :
    nearestBits ratio = 0 := by
  by_cases hnum : 0 < ratio.num
  · have hpositive := (Ratio.num_pos_iff hden).mp hnum
    have hlog : Int.log 2 ratio.value < -1075 :=
      (Int.lt_zpow_iff_log_lt Nat.one_lt_two hpositive).mp (by exact_mod_cast h)
    have hexponent : -1074 = max (Int.log 2 ratio.value - 52) (-1074) := by omega
    have hround : (ratio.onScale 2 (-1074)).round = 0 := by
      refine Ratio.round_eq_zero (Ratio.den_onScale_pos two_ne_zero hden) ?_
      rw [Ratio.value_onScale two_ne_zero]
      calc ratio.value * ((2 : Nat) : ℚ) ^ (-(-1074) : Int)
          < 2 ^ (-1075 : Int) * ((2 : Nat) : ℚ) ^ (-(-1074) : Int) :=
            mul_lt_mul_of_pos_right h (by positivity)
        _ = 2 ^ (-1075 : Int) * 2 ^ (1074 : Int) := by norm_num
        _ = 1 / 2 := by
            rw [← zpow_add₀ two_ne_zero]
            norm_num
    rw [nearestBits_eq hnum hden hexponent, hround]
    exact Nat.min_zero _
  · rw [nearestBits, if_pos (by omega)]

theorem nearestBits_zero (base : Nat) (exponent : Int) :
    nearestBits (.ofScaled 0 base exponent) = 0 := by
  have hnum : (Ratio.ofScaled 0 base exponent).num = 0 := by
    rw [Ratio.ofScaled, Ratio.onScale, Ratio.ofNat, Nat.zero_mul]
  rw [nearestBits, if_pos hnum]

/-- The bits of a significand that has all 53 bits, or fewer and the least exponent. -/
theorem nearestBits_ofScaled {significand : Nat} {exponent : Int} (hpositive : 0 < significand)
    (hupper : significand < 2 ^ 53) (hleast : -1074 ≤ exponent)
    (hlower : 2 ^ 52 ≤ significand ∨ exponent = -1074) :
    nearestBits (.ofScaled significand 2 exponent) =
      min infinityBits (significand + (exponent + 1074).toNat * fractions) := by
  have hden : 0 < (Ratio.ofScaled significand 2 exponent).den := Ratio.den_ofScaled_pos two_ne_zero
  have hvalue : (Ratio.ofScaled significand 2 exponent).value = significand * 2 ^ exponent := by
    rw [Ratio.value_ofScaled two_ne_zero]
    norm_num
  have hsignificand : (0 : ℚ) < significand := by exact_mod_cast hpositive
  have hnonzero : 0 < (Ratio.ofScaled significand 2 exponent).value := by
    rw [hvalue]
    positivity
  have hbelow : Int.log 2 (Ratio.ofScaled significand 2 exponent).value < 53 + exponent := by
    refine (Int.lt_zpow_iff_log_lt Nat.one_lt_two hnonzero).mp ?_
    rw [hvalue, Nat.cast_ofNat, zpow_add₀ two_ne_zero]
    exact mul_lt_mul_of_pos_right (by exact_mod_cast hupper) (by positivity)
  have hexponent : exponent =
      max (Int.log 2 (Ratio.ofScaled significand 2 exponent).value - 52) (-1074) := by
    rcases hlower with hlower | hlower
    · have habove : 52 + exponent ≤ Int.log 2 (Ratio.ofScaled significand 2 exponent).value := by
        refine (Int.zpow_le_iff_le_log Nat.one_lt_two hnonzero).mp ?_
        rw [hvalue, Nat.cast_ofNat, zpow_add₀ two_ne_zero]
        exact mul_le_mul_of_nonneg_right (by exact_mod_cast hlower) (by positivity)
      omega
    · omega
  have hround : ((Ratio.ofScaled significand 2 exponent).onScale 2 exponent).round =
      significand := by
    refine Ratio.round_eq_of_value (Ratio.den_onScale_pos two_ne_zero hden) ?_
    rw [Ratio.value_onScale two_ne_zero, hvalue, Nat.cast_ofNat, mul_assoc,
      ← zpow_add₀ two_ne_zero, Int.add_right_neg, zpow_zero, mul_one]
  rw [nearestBits_eq ((Ratio.num_pos_iff hden).mpr hnonzero) hden hexponent, hround]

/-- The fields of the bits of a float. -/
theorem fields_of_toBits (x : Float) :
    x.toBits.toNat = (if decide (signBit ≤ x.toBits.toNat) then signBit else 0) +
      (x.toBits.toNat / fractions % 2048 * fractions + x.toBits.toNat % fractions) := by
  have hfractions : fractions = 4503599627370496 := rfl
  have hlt := x.toBits.toNat_lt
  rw [signBit, hfractions]
  generalize x.toBits.toNat = bits at hlt
  by_cases hnegative : 2048 * 4503599627370496 ≤ bits
  · rw [if_pos (decide_eq_true hnegative)]
    omega
  · rw [if_neg (by simpa using hnegative)]
    omega

/-- The bits of a finite float are those of its sign and those closest to its magnitude. -/
theorem toBits_of_parts {x : Float} {negative : Bool} {significand : Nat} {exponent : Int}
    (h : parts x = .finite negative significand exponent) :
    nearestBits (.ofScaled significand 2 exponent) < infinityBits ∧
      x.toBits.toNat = (if negative then signBit else 0) +
        nearestBits (.ofScaled significand 2 exponent) := by
  have hfields := fields_of_toBits x
  have hfraction : x.toBits.toNat % fractions < fractions := Nat.mod_lt _ fractions_pos
  have hfield : x.toBits.toNat / fractions % 2048 < 2048 := Nat.mod_lt _ (by decide)
  unfold parts at h
  dsimp only at h
  generalize x.toBits.toNat % fractions = fraction at *
  generalize x.toBits.toNat / fractions % 2048 = field at *
  have hfractions : fractions = 4503599627370496 := rfl
  have hbits : infinityBits = 2047 * 4503599627370496 := rfl
  rw [hfractions] at hfraction
  split at h
  next => split at h <;> cases h
  next htop =>
    have hmagnitude : nearestBits (.ofScaled significand 2 exponent) =
        field * fractions + fraction := by
      rw [hfractions]
      split at h
      next hleast =>
        cases h
        by_cases hzero : significand = 0
        · rw [hzero, hleast]
          rfl
        · rw [nearestBits_ofScaled (Nat.pos_of_ne_zero hzero) (by omega) (Int.le_refl _)
            (.inr rfl), hbits, hleast, show ((-1074 : Int) + 1074).toNat = 0 from rfl]
          omega
      next hnormal =>
        cases h
        rw [nearestBits_ofScaled (by omega) (by omega) (by omega) (.inl (by omega)), hbits,
          show ((field : Int) - 1075 + 1074).toNat = field - 1 by omega, hfractions]
        omega
    have hsign : negative = decide (signBit ≤ x.toBits.toNat) := by
      split at h
      next => exact (Parts.finite.inj h).1.symm
      next => exact (Parts.finite.inj h).1.symm
    refine ⟨?_, ?_⟩
    · rw [hmagnitude, hbits, hfractions]
      omega
    · rw [hmagnitude, hsign]
      exact hfields

/-- A finite float is the one closest to what it stands for. -/
theorem nearest_of_parts {x : Float} {negative : Bool} {significand : Nat} {exponent : Int}
    (h : parts x = .finite negative significand exponent) :
    nearest negative (.ofScaled significand 2 exponent) = x := by
  obtain ⟨-, hbits⟩ := toBits_of_parts h
  have hall : (if negative then signBit + nearestBits (.ofScaled significand 2 exponent)
      else nearestBits (.ofScaled significand 2 exponent)) = x.toBits.toNat := by
    rw [hbits]
    cases negative with
    | false => simp
    | true => simp
  rw [nearest, ofMagnitude, hall, UInt64.ofNat_toNat, Float.ofBits_toBits]

theorem exists_parts_of_isFinite {x : Float} (h : isFinite x = true) :
    ∃ negative significand exponent, parts x = .finite negative significand exponent := by
  unfold isFinite at h
  split at h
  next negative significand exponent hparts => exact ⟨negative, significand, exponent, hparts⟩
  next => cases h

theorem isNegative_of_parts {x : Float} {negative : Bool} {significand : Nat} {exponent : Int}
    (h : parts x = .finite negative significand exponent) :
    isNegative x = negative := by
  obtain ⟨hfinite, hbits⟩ := toBits_of_parts h
  have hsign := infinityBits_lt_signBit
  rw [isNegative, hbits]
  cases negative with
  | false =>
    rw [if_neg Bool.false_ne_true, decide_eq_false_iff_not]
    omega
  | true =>
    rw [if_pos rfl, decide_eq_true_iff]
    omega

theorem nearestBits_le (ratio : Ratio) : nearestBits ratio ≤ infinityBits := by
  unfold nearestBits
  split
  next => exact Nat.zero_le _
  next => exact Nat.min_le_left _ _

theorem toBits_nearest (ratio : Ratio) :
    (nearest false ratio).toBits.toNat = nearestBits ratio := by
  rcases Nat.lt_or_eq_of_le (nearestBits_le ratio) with hfinite | hinfinite
  · rw [nearest, toBits_ofMagnitude hfinite, if_neg Bool.false_ne_true]
  · have hbits : (ofMagnitude false infinityBits).toBits.toNat = infinityBits := by decide +kernel
    rw [nearest, hinfinite, hbits]

theorem isNegative_nearest (ratio : Ratio) : isNegative (nearest false ratio) = false := by
  have hsign := infinityBits_lt_signBit
  have hle := nearestBits_le ratio
  rw [isNegative, toBits_nearest, decide_eq_false_iff_not]
  omega

theorem nearestBits_pos_of_parts {x : Float} {negative : Bool} {significand : Nat} {exponent : Int}
    (h : parts x = .finite negative significand exponent) (hpositive : 0 < significand) :
    0 < nearestBits (.ofScaled significand 2 exponent) := by
  by_contra hzero
  have hnone : nearestBits (.ofScaled significand 2 exponent) = 0 := Nat.eq_zero_of_not_pos hzero
  have hx : ofMagnitude negative 0 = x := by
    rw [← nearest_of_parts h, nearest, hnone]
  have hzeros : ∀ negative, parts (ofMagnitude negative 0) = .finite negative 0 (-1074) := by
    decide +kernel
  have hparts := hzeros negative
  rw [hx, h] at hparts
  exact Nat.ne_of_gt hpositive (Parts.finite.inj hparts).2.1

/-- Floats that compare equal are the same, unless they are zeros. -/
theorem nearestBits_eq_of_beq (h : (nearest false ratio == nearest false ratio') = true)
    (hpositive : 0 < nearestBits ratio') (hfinite : nearestBits ratio' < infinityBits) :
    nearestBits ratio = nearestBits ratio' := by
  have hbits := toBits_nearest ratio'
  have hzero : (0 : Float).toBits.toNat = 0 := by decide +kernel
  have hminus : (-0 : Float).toBits.toNat = signBit := by decide +kernel
  have hsign := infinityBits_lt_signBit
  obtain ⟨-, -, hsame | ⟨-, hother⟩ | ⟨-, hother⟩⟩ := Float.beq_iff_ne_nan_and_eq.mp h
  · rw [← hbits, ← hsame, toBits_nearest]
  · rw [hother, hminus] at hbits
    omega
  · rw [hother, hzero] at hbits
    omega

end Binary

namespace Decimal

theorem two_zpow_le_ten (n : Nat) : (2 : ℚ) ^ (3 * n : Int) ≤ (10 : ℚ) ^ (n : Int) := by
  rw [zpow_mul, zpow_natCast, zpow_natCast]
  exact pow_le_pow_left₀ (by positivity) (by norm_num) n

/-- The float of a decimal numeral is the one closest to its value, however large its exponent. -/
theorem ofDecimal_eq_nearest (negative : Bool) (digits : Nat) (exponent : Int) :
    ofDecimal negative digits exponent =
      Binary.nearest negative (.ofScaled digits 10 exponent) := by
  have hden : 0 < (Ratio.ofScaled digits 10 exponent).den := Ratio.den_ofScaled_pos (by decide)
  have hvalue : (Ratio.ofScaled digits 10 exponent).value = digits * (10 : ℚ) ^ exponent := by
    rw [Ratio.value_ofScaled (by decide)]
    norm_num
  have hzero : Binary.nearestBits (.ofNat 0) = 0 := rfl
  unfold ofDecimal
  split
  next hdigits =>
    subst hdigits
    rw [Binary.nearest, Binary.nearest, hzero, Binary.nearestBits_zero]
  next hdigits =>
    have hone : (1 : ℚ) ≤ digits := by exact_mod_cast Nat.pos_of_ne_zero hdigits
    split
    next hlarge =>
      have hbits : Binary.nearestBits (.ofScaled digits 10 exponent) = Binary.infinityBits := by
        refine Binary.nearestBits_of_large hden ?_
        rw [hvalue]
        calc (2 : ℚ) ^ (1024 : Int) ≤ 2 ^ (3 * (401 : Nat) : Int) :=
              zpow_le_zpow_right₀ (by norm_num) (by norm_num)
          _ ≤ 10 ^ ((401 : Nat) : Int) := two_zpow_le_ten 401
          _ ≤ 10 ^ exponent := zpow_le_zpow_right₀ (by norm_num) (by omega)
          _ ≤ digits * 10 ^ exponent := le_mul_of_one_le_left (by positivity) hone
      rw [Binary.nearest, hbits, Binary.infinity]
    next =>
      split
      next hsmall =>
        have hbits : Binary.nearestBits (.ofScaled digits 10 exponent) = 0 := by
          refine Binary.nearestBits_of_small hden ?_
          rw [hvalue]
          obtain ⟨-, hupper⟩ := Ratio.two_pow_log2_bounds (Nat.pos_of_ne_zero hdigits)
          have hpower : (10 : ℚ) ^ exponent ≤ 2 ^ (-(3 * (401 + digits.log2 : Nat)) : Int) := by
            calc (10 : ℚ) ^ exponent ≤ 10 ^ (-((401 + digits.log2 : Nat) : Int)) :=
                  zpow_le_zpow_right₀ (by norm_num) (by omega)
              _ ≤ 2 ^ (-(3 * (401 + digits.log2 : Nat)) : Int) := by
                  rw [zpow_neg, zpow_neg]
                  exact inv_anti₀ (by positivity) (two_zpow_le_ten _)
          calc digits * (10 : ℚ) ^ exponent
              ≤ digits * 2 ^ (-(3 * (401 + digits.log2 : Nat)) : Int) :=
                mul_le_mul_of_nonneg_left hpower (by positivity)
            _ < 2 ^ ((digits.log2 : Int) + 1) * 2 ^ (-(3 * (401 + digits.log2 : Nat)) : Int) :=
                mul_lt_mul_of_pos_right hupper (by positivity)
            _ = 2 ^ ((digits.log2 : Int) + 1 + -(3 * (401 + digits.log2 : Nat))) :=
                (zpow_add₀ two_ne_zero _ _).symm
            _ ≤ 2 ^ (-1075 : Int) := zpow_le_zpow_right₀ (by norm_num) (by omega)
        rw [Binary.nearest, Binary.nearest, hzero, hbits]
      next => rfl

theorem value_exactDigits (significand : Nat) (exponent : Int) :
    (Ratio.ofScaled (exactDigits significand exponent).1 10
      (exactDigits significand exponent).2).value = significand * (2 : ℚ) ^ exponent := by
  rw [Ratio.value_ofScaled (by decide), exactDigits]
  split
  next hup =>
    have hpower : (2 : ℚ) ^ exponent.toNat = 2 ^ exponent := by
      rw [← zpow_natCast, Int.toNat_of_nonneg hup]
    push_cast [Nat.pow_eq]
    rw [hpower, mul_one]
  next hdown =>
    have hpower : (5 : ℚ) ^ (-exponent).toNat = 5 ^ (-exponent) := by
      rw [← zpow_natCast, Int.toNat_of_nonneg (by omega)]
    have hten : (10 : ℚ) ^ exponent = 5 ^ exponent * 2 ^ exponent := by
      rw [← mul_zpow]
      norm_num
    push_cast [Nat.pow_eq]
    rw [hpower, hten, mul_assoc, ← mul_assoc (5 ^ (-exponent)), ← zpow_add₀ (by norm_num),
      Int.add_left_neg, zpow_zero, one_mul]

theorem exists_of_onGrid? {target : Float} {ratio : Ratio} {exponent : Int} {found : Nat × Int}
    (h : onGrid? target ratio exponent = some found) :
    (ofDecimal false found.1 found.2 == target) = true := by
  unfold onGrid? at h
  dsimp only at h
  generalize (if (ratio.onScale 10 exponent).roundsDown then (ratio.onScale 10 exponent).floor
    else (ratio.onScale 10 exponent).ceil) = first at h
  generalize (if (ratio.onScale 10 exponent).roundsDown then (ratio.onScale 10 exponent).ceil
    else (ratio.onScale 10 exponent).floor) = second at h
  split at h
  next hback =>
    cases h
    exact hback
  next =>
    split at h
    next hback =>
      cases h
      exact hback
    next => cases h

/-- The shortest digits of a float have the float's bits. -/
theorem nearestBits_shortest {x : Float} {negative : Bool} {significand : Nat} {exponent : Int}
    (h : Binary.parts x = .finite negative significand exponent) (hpositive : 0 < significand) :
    Binary.nearestBits
        (.ofScaled (shortest significand exponent).1 10 (shortest significand exponent).2) =
      Binary.nearestBits (.ofScaled significand 2 exponent) := by
  unfold shortest
  dsimp only
  cases hgrid : ((List.range 17).map fun (n : Nat) =>
      (Ratio.ofScaled significand 2 exponent).decimalLog - (n + 1)).findSome?
        (onGrid? (Binary.nearest false (.ofScaled significand 2 exponent))
          (.ofScaled significand 2 exponent)) with
  | none =>
    rw [Option.getD_none]
    refine Binary.nearestBits_congr (Ratio.den_ofScaled_pos (by decide))
      (Ratio.den_ofScaled_pos two_ne_zero) ?_
    rw [value_exactDigits, Ratio.value_ofScaled two_ne_zero, Nat.cast_ofNat]
  | some found =>
    obtain ⟨grid, -, hfound⟩ := List.exists_of_findSome?_eq_some hgrid
    have hback := exists_of_onGrid? hfound
    rw [ofDecimal_eq_nearest] at hback
    rw [Option.getD_some]
    exact Binary.nearestBits_eq_of_beq hback (Binary.nearestBits_pos_of_parts h hpositive)
      (Binary.toBits_of_parts h).1

end Decimal

end Formula
