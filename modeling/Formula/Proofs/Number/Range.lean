import Formula.Number.Binary
import Mathlib.Algebra.Group.Nat.Even

namespace Formula

namespace Ratio

variable {ratio : Ratio} {bound : Nat}

/-- Rounding does not pass a natural that bounds the ratio. -/
theorem round_le (hden : 0 < ratio.den) (h : ratio.num ≤ bound * ratio.den) :
    ratio.round ≤ bound := by
  have hfloor : ratio.floor ≤ bound := Nat.div_le_of_le_mul (by rwa [Nat.mul_comm])
  unfold round
  split
  next => exact hfloor
  next hup =>
    rcases Nat.lt_or_eq_of_le hfloor with hlt | heq
    · omega
    · -- the ratio is the bound itself, which is no reason to round up
      have hdiv := Nat.div_add_mod ratio.num ratio.den
      have hquotient : ratio.num / ratio.den = bound := heq
      rw [hquotient, Nat.mul_comm] at hdiv
      have hmod : ratio.num % ratio.den = 0 := by omega
      simp [roundsDown, hmod, hden] at hup

theorem binaryLog_ofNat {n : Nat} (h : n ≠ 0) : (ofNat n).binaryLog = n.log2 := by
  have hone : Nat.log2 1 = 0 := by decide
  have hself : Nat.pow 2 n.log2 ≤ n := Nat.log2_self_le h
  simp only [binaryLog, ofNat, hone, onScale, atLeastOne, Int.natCast_zero, Int.sub_zero]
  rw [if_pos]
  simpa using hself

end Ratio

namespace Binary

/-- The exponent of the largest finite floats. -/
@[irreducible] def topExponent : Nat := 971

theorem topExponent_eq : topExponent = 971 := by
  rw [topExponent]

/-- The largest finite float. -/
def largest : Nat := (2 ^ 53 - 1) * 2 ^ topExponent

theorem one_le_largest : 1 ≤ largest :=
  Nat.mul_pos (by omega) (Nat.two_pow_pos topExponent)

theorem log2_le_of_le_largest {n : Nat} (h : n ≤ largest) : n.log2 ≤ topExponent + 52 := by
  by_cases hzero : n = 0
  · subst hzero
    exact Nat.zero_le _
  · have hbelow : largest < 2 ^ (53 + topExponent) := by
      rw [largest, Nat.pow_add]
      exact Nat.mul_lt_mul_of_pos_right (by omega) (Nat.two_pow_pos topExponent)
    have hlog : n.log2 < 53 + topExponent :=
      (Nat.log2_lt hzero).mpr (Nat.lt_of_le_of_lt h hbelow)
    omega

/-- The significand of a natural, rounded, on the scale that leaves it 53 bits. -/
theorem round_onScale_le {n bound : Nat} (hbits : n ≤ bound * 2 ^ (n.log2 - 52))
    (hsmall : n.log2 < 52 → bound = 2 ^ 53) :
    ((Ratio.ofNat n).onScale 2 ((n.log2 : Int) - 52)).round ≤ bound := by
  refine Ratio.round_le ?_ ?_
  · simp only [Ratio.onScale, Ratio.ofNat, Nat.one_mul]
    exact Nat.two_pow_pos _
  · simp only [Ratio.onScale, Ratio.ofNat, Nat.one_mul, Nat.pow_eq]
    by_cases hlog : n.log2 < 52
    · have hleft : (-((n.log2 : Int) - 52)).toNat = 52 - n.log2 := by omega
      have hright : ((n.log2 : Int) - 52).toNat = 0 := by omega
      have hlt : n ≤ 2 ^ (n.log2 + 1) := Nat.le_of_lt Nat.lt_log2_self
      have hsum : 2 ^ (n.log2 + 1) * 2 ^ (52 - n.log2) = 2 ^ 53 := by
        rw [← Nat.pow_add, show n.log2 + 1 + (52 - n.log2) = 53 by omega]
      rw [hleft, hright, hsmall hlog, Nat.pow_zero, Nat.mul_one, ← hsum]
      exact Nat.mul_le_mul_right _ hlt
    · have hleft : (-((n.log2 : Int) - 52)).toNat = 0 := by omega
      have hright : ((n.log2 : Int) - 52).toNat = n.log2 - 52 := by omega
      rwa [hleft, hright, Nat.pow_zero, Nat.mul_one]

theorem nearestBits_ofNat_lt {n : Nat} (h : n ≤ largest) :
    nearestBits (.ofNat n) < infinityBits := by
  have hlog := log2_le_of_le_largest h
  unfold nearestBits
  split
  next => decide
  next hnum =>
    have hzero : n ≠ 0 := hnum
    rw [Ratio.binaryLog_ofNat hzero]
    have hexponent : max ((n.log2 : Int) - 52) (-1074) = (n.log2 : Int) - 52 := by omega
    dsimp only
    rw [hexponent]
    refine Nat.lt_of_le_of_lt (Nat.min_le_right _ _) ?_
    have htopExponent := topExponent_eq
    have hfractions : fractions = 4503599627370496 := rfl
    rw [infinityBits]
    by_cases htop : n.log2 = topExponent + 52
    · have hscale : n.log2 - 52 = topExponent := by omega
      have hround := @round_onScale_le n (2 ^ 53 - 1) (by rw [hscale]; exact h) (by omega)
      have htoNat : ((n.log2 : Int) - 52 + 1074).toNat = 2045 := by omega
      rw [htoNat]
      omega
    · have hbelow : n < 2 ^ (n.log2 + 1) := Nat.lt_log2_self
      have hbits : n ≤ 2 ^ 53 * 2 ^ (n.log2 - 52) := by
        rw [← Nat.pow_add]
        exact Nat.le_trans (Nat.le_of_lt hbelow) (Nat.pow_le_pow_right Nat.two_pos (by omega))
      have hround := round_onScale_le hbits fun _ => rfl
      have htoNat : ((n.log2 : Int) - 52 + 1074).toNat ≤ 2044 := by omega
      have hscale := Nat.mul_le_mul_right fractions htoNat
      omega

/-- An integer within the range of floats has a float. -/
theorem exists_ofInt? {n : Int} (h : n.natAbs ≤ largest) : ∃ x, ofInt? n = some x := by
  unfold ofInt?
  rw [if_pos (nearestBits_ofNat_lt h)]
  exact ⟨_, rfl⟩

theorem parts_le {x : Float} {negative : Bool} {significand : Nat} {exponent : Int}
    (h : parts x = .finite negative significand exponent) :
    significand ≤ 2 ^ 53 - 1 ∧ exponent ≤ topExponent := by
  have htopExponent := topExponent_eq
  have hfractions : fractions = 4503599627370496 := rfl
  have hfraction : x.toBits.toNat % fractions < fractions :=
    Nat.mod_lt _ (by rw [hfractions]; omega)
  unfold parts at h
  dsimp only at h
  split at h
  next => split at h <;> cases h
  next htop =>
    split at h
    next =>
      cases h
      omega
    next =>
      cases h
      omega

theorem whole_natAbs_le {negative : Bool} {significand : Nat} {exponent : Int}
    (hsignificand : significand ≤ 2 ^ 53 - 1) (hexponent : exponent ≤ topExponent) :
    (Parts.whole .towardZero negative significand exponent).natAbs ≤ largest := by
  have hfloor : (Ratio.ofScaled significand 2 exponent).floor ≤ largest := by
    refine Nat.le_trans (Nat.div_le_self _ _) ?_
    simp only [Ratio.ofScaled, Ratio.onScale, Ratio.ofNat, Nat.pow_eq, Int.neg_neg]
    exact Nat.mul_le_mul hsignificand (Nat.pow_le_pow_right Nat.two_pos (by omega))
  unfold Parts.whole
  cases negative <;> simpa using hfloor

theorem toInt_natAbs_le {x : Float} {n : Int} (h : toInt .towardZero x = .ok n) :
    n.natAbs ≤ largest := by
  unfold toInt at h
  split at h
  next => cases h
  next => cases h
  next negative significand exponent hparts =>
    cases h
    obtain ⟨hsignificand, hexponent⟩ := parts_le hparts
    exact whole_natAbs_le hsignificand hexponent

theorem natAbs_fmod_lt (dividend : Int) {divisor : Int} (h : divisor ≠ 0) :
    (dividend.fmod divisor).natAbs < divisor.natAbs := by
  rcases Int.lt_or_gt_of_ne h with hneg | hpos
  · have hflip := Int.neg_fmod_neg dividend divisor
    have hnonneg := Int.fmod_nonneg_of_pos (-dividend) (show 0 < -divisor by omega)
    have hlt := Int.fmod_lt_of_pos (-dividend) (show 0 < -divisor by omega)
    omega
  · have hnonneg := Int.fmod_nonneg_of_pos dividend hpos
    have hlt := Int.fmod_lt_of_pos dividend hpos
    omega

end Binary

end Formula
