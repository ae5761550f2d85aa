import Formula.Proofs.Number.Rounding
import Mathlib

namespace Formula.Binary

open Float.Model Float.Model.UnpackedFloat

/-- Whether a float is the given integer, exactly. -/
def IsExactly (x : Float) (n : Int) : Prop :=
  isWhole x = true ∧ toInt .towardZero x = .ok n

/-- The integer that is left of an integer by its float. -/
def shortenInt (n : Int) : Int :=
  n.sign * shorten n.natAbs

/-- A float keeps the bits that it is made of unless it is no number. -/
theorem toBits_ofBits {bits : UInt64} (h : bits.toNat / fractions % 2048 ≠ 2047) :
    (Float.ofBits bits).toBits = bits := by
  have hvalid : Format.binary64.Valid bits.toBitVec := by
    refine ⟨fun hexponent => absurd ?_ h⟩
    have htoNat := congrArg BitVec.toNat hexponent
    simpa [unpackExponent, Format.binary64, fractions, Nat.shiftRight_eq_div_pow] using htoNat
  exact UInt64.toBitVec_inj.mp (pack_unpack_of_valid hvalid)

theorem toBits_ofMagnitude {bits : Nat} (h : bits < infinityBits) (negative : Bool) :
    (ofMagnitude negative bits).toBits.toNat = if negative then signBit + bits else bits := by
  have hfractions : fractions = 4503599627370496 := rfl
  rw [infinityBits, hfractions] at h
  have hsmall : (if negative then signBit + bits else bits) < 2 ^ 64 := by
    rw [signBit, hfractions]
    split <;> omega
  have htoNat : (UInt64.ofNat (if negative then signBit + bits else bits)).toNat =
      if negative then signBit + bits else bits := UInt64.toNat_ofNat_of_lt' hsmall
  rw [ofMagnitude, toBits_ofBits, htoNat]
  rw [htoNat, signBit, hfractions]
  split <;> omega

/-- The parts of a float that is made of a significand of 53 bits and an exponent field. -/
theorem parts_ofMagnitude (negative : Bool) {significand field : Nat}
    (hlower : fractions ≤ significand) (hupper : significand < 2 * fractions) (hfield : field ≠ 0)
    (h : significand - fractions + field * fractions < infinityBits) :
    parts (ofMagnitude negative (significand - fractions + field * fractions)) =
      .finite negative significand ((field : Int) - 1075) := by
  have htoBits := toBits_ofMagnitude h negative
  have hfractions : fractions = 4503599627370496 := rfl
  rw [infinityBits, hfractions] at h
  rw [hfractions] at hlower hupper
  unfold parts
  rw [htoBits]
  dsimp only
  have hsign : decide (signBit ≤ if negative then
      signBit + (significand - fractions + field * fractions)
      else significand - fractions + field * fractions) = negative := by
    rw [signBit, hfractions]
    cases negative <;> simp
    omega
  have hquotient : (if negative then signBit + (significand - fractions + field * fractions)
      else significand - fractions + field * fractions) / fractions % 2048 = field := by
    rw [signBit, hfractions]
    split <;> omega
  have hremainder : (if negative then signBit + (significand - fractions + field * fractions)
      else significand - fractions + field * fractions) % fractions = significand - fractions := by
    rw [signBit, hfractions]
    split <;> omega
  rw [hsign, hquotient, hremainder, if_neg (by omega), if_neg hfield,
    Nat.add_sub_of_le (by rwa [hfractions])]

theorem isExactly_of_parts {x : Float} {negative : Bool} {significand n : Nat} {exponent : Int}
    (hparts : parts x = .finite negative significand exponent)
    (h : significand * 2 ^ exponent.toNat = n * 2 ^ (-exponent).toNat) :
    IsExactly x (if negative then -n else n) := by
  have hscaled : Ratio.ofScaled significand 2 exponent =
      ⟨n * 2 ^ (-exponent).toNat, 2 ^ (-exponent).toNat⟩ := by
    simp [Ratio.ofScaled, Ratio.onScale, Ratio.ofNat, h]
  have hpower := Nat.two_pow_pos (-exponent).toNat
  constructor
  · simp [isWhole, hparts, hscaled, Ratio.isWhole]
  · simp [toInt, hparts, Parts.whole, hscaled, Ratio.floor, Nat.mul_div_cancel _ hpower]

/-- Every integer in the range of floats has a float, which is the shortened integer. -/
theorem exists_isExactly_of_ofInt? {n : Int} (h : n.natAbs ≤ largest) :
    ∃ x, ofInt? n = some x ∧ IsExactly x (shortenInt n) := by
  have hfinite := nearestBits_ofNat_lt h
  refine ⟨_, if_pos hfinite, ?_⟩
  by_cases hn : n = 0
  · subst hn
    exact ⟨by decide +kernel, by decide +kernel⟩
  · obtain ⟨significand, log, normal, hbits⟩ := exists_normal (Int.natAbs_ne_zero.mpr hn) h
    rw [hbits] at hfinite ⊢
    have hparts := parts_ofMagnitude (decide (n < 0)) normal.lower normal.upper
      (Nat.succ_ne_zero _) hfinite
    have hup : (((log + 1023 : Nat) : Int) - 1075).toNat = log - 52 := by omega
    have hdown : (-(((log + 1023 : Nat) : Int) - 1075)).toNat = 52 - log := by omega
    have hsign : shortenInt n =
        if decide (n < 0) then -(shorten n.natAbs : Int) else shorten n.natAbs := by
      rcases Int.lt_or_gt_of_ne hn with hneg | hpos
      · simp [shortenInt, Int.sign_eq_neg_one_of_neg hneg, hneg]
      · simp [shortenInt, Int.sign_eq_one_of_pos hpos, Int.le_of_lt hpos]
    rw [hsign]
    exact isExactly_of_parts hparts (by rw [hup, hdown]; exact normal.value)

/-- The whole part of a float has no more bits than the float. -/
theorem isShort_of_toInt {x : Float} {n : Int} (h : toInt .towardZero x = .ok n) :
    IsShort n.natAbs := by
  unfold toInt at h
  split at h
  next => cases h
  next => cases h
  next negative significand exponent hparts =>
    cases h
    have hsignificand := (parts_le hparts).1
    have habs : (Parts.whole .towardZero negative significand exponent).natAbs =
        (Ratio.ofScaled significand 2 exponent).floor := by
      unfold Parts.whole
      cases negative <;> simp
    rw [habs]
    by_cases hneg : exponent ≤ 0
    · have hfloor : (Ratio.ofScaled significand 2 exponent).floor ≤ significand := by
        simp only [Ratio.ofScaled, Ratio.onScale, Ratio.ofNat, Ratio.floor, Int.neg_neg,
          Int.toNat_of_nonpos hneg, Nat.pow_eq, Nat.pow_zero, Nat.mul_one]
        exact Nat.div_le_self _ _
      exact isShort_of_lt (by omega)
    · have hfloor : (Ratio.ofScaled significand 2 exponent).floor =
          significand * 2 ^ exponent.toNat := by
        have hdown : (-exponent).toNat = 0 := by omega
        simp [Ratio.ofScaled, Ratio.onScale, Ratio.ofNat, Ratio.floor, hdown]
      rw [hfloor, IsShort]
      refine Nat.dvd_trans (Nat.pow_dvd_pow 2 ?_) (Nat.dvd_mul_left _ _)
      have hbelow : significand * 2 ^ exponent.toNat < 2 ^ (53 + exponent.toNat) := by
        rw [Nat.pow_add]
        exact Nat.mul_lt_mul_of_pos_right (by omega) (Nat.two_pow_pos _)
      by_cases hzero : significand * 2 ^ exponent.toNat = 0
      · rw [hzero]
        exact Nat.zero_le _
      · have hlog := (Nat.log2_lt hzero).mpr hbelow
        omega

theorem natAbs_shortenInt (n : Int) : (shortenInt n).natAbs = shorten n.natAbs := by
  by_cases hn : n = 0
  · subst hn
    rw [shortenInt, Int.natAbs_zero, shorten_of_isShort (isShort_of_lt (by omega))]
    rfl
  · rw [shortenInt, Int.natAbs_mul, Int.natAbs_sign_of_ne_zero hn, Nat.one_mul, Int.natAbs_natCast]

theorem sign_shortenInt (n : Int) : (shortenInt n).sign = n.sign := by
  by_cases hn : n = 0
  · subst hn
    simp [shortenInt]
  · have hpos := shorten_pos (Int.natAbs_ne_zero.mpr hn)
    rw [shortenInt, Int.sign_mul, Int.sign_sign, Int.sign_natCast_of_ne_zero (Nat.ne_of_gt hpos),
      Int.mul_one]

/-- No short integer is closer to an integer than the one it is shortened to. -/
theorem shortenInt_closest (n : Int) {other : Int} (hother : IsShort other.natAbs) :
    (n - shortenInt n).natAbs ≤ (n - other).natAbs := by
  have hclosest := shorten_closest n.natAbs hother
  rcases Int.lt_trichotomy n 0 with hneg | rfl | hpos
  · rw [shortenInt, Int.sign_eq_neg_one_of_neg hneg]
    omega
  · simp [shortenInt]
  · rw [shortenInt, Int.sign_eq_one_of_pos hpos]
    omega

/-- What is left of an integer by its float has the same float. -/
theorem ofInt?_shortenInt {n : Int} (h : n.natAbs ≤ largest) :
    ofInt? (shortenInt n) = ofInt? n := by
  have hneg : shortenInt n < 0 ↔ n < 0 := by
    rw [← Int.sign_eq_neg_one_iff_neg, sign_shortenInt, Int.sign_eq_neg_one_iff_neg]
  rw [ofInt?, ofInt?, natAbs_shortenInt, nearestBits_shorten h]
  simp only [hneg]

end Formula.Binary
