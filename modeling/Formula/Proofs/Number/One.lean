import Formula.Number.Power
import Mathlib

namespace Formula.Binary

open Float.Model Float.Model.UnpackedFloat

theorem shift_zeros (n m : Nat) :
    (⟨2 ^ n * m, false, false⟩ : ExtendedMantissa) >>> n = ⟨m, false, false⟩ := by
  change Nat.repeat ExtendedMantissa.shiftRightOne n _ = _
  induction n generalizing m with
  | zero => simp [Nat.repeat]
  | succ n ih =>
    rw [Nat.repeat, Nat.pow_succ, Nat.mul_assoc, ih]
    simp [ExtendedMantissa.shiftRightOne]

theorem log2_two_pow_mul {m : Nat} (h : m ≠ 0) (n : Nat) : (2 ^ n * m).log2 = m.log2 + n := by
  induction n with
  | zero => simp
  | succ n ih =>
    have hpow : 2 ^ n * m ≠ 0 := by simp [h]
    rw [Nat.pow_succ', Nat.mul_assoc, Nat.log2_two_mul hpow, ih, Nat.add_assoc]

/-- Whether a significand stands with the exponent that rounding would give to it. -/
def IsCanonical (format : Format) (m : Nat) (e : Int) : Prop :=
  format.targetExponent (totalExponent m e) = e

section Rounding

variable {format : Format} {m : Nat} {e : Int}

theorem shiftToTargetExponent_zeros (canonical : IsCanonical format m e) (hm : 0 < m) (n : Nat) :
    shiftToTargetExponent format (2 ^ n * m) (e - n) .exact = (⟨m, false, false⟩, e) := by
  have htotal : totalExponent (2 ^ n * m) (e - n) = totalExponent m e := by
    rw [totalExponent, totalExponent, log2_two_pow_mul (Nat.ne_of_gt hm)]
    omega
  have hshift : (e - (e - n)).toNat = n := by omega
  rw [shiftToTargetExponent, htotal, canonical, shiftToExponent]
  simp only [hshift, ExtendedMantissa.ofMantissaAndAccuracy, shift_zeros, Prod.mk.injEq, true_and]
  omega

/-- Zeros behind a canonical significand are rounded away. -/
theorem roundWithAccuracy_zeros (canonical : IsCanonical format m e) (hm : 0 < m) (sign : Sign)
    (n : Nat) : roundWithAccuracy format sign (2 ^ n * m) (e - n) .exact = .finite sign m e hm := by
  have hagain := shiftToTargetExponent_zeros canonical hm 0
  rw [Nat.pow_zero, Nat.one_mul, Int.natCast_zero, Int.sub_zero] at hagain
  have hrounded : ExtendedMantissa.roundedMantissa ⟨m, false, false⟩ = m := rfl
  rw [roundWithAccuracy, shiftToTargetExponent_zeros canonical hm n]
  dsimp only
  rw [hrounded, hagain]
  exact dif_neg (Nat.ne_of_gt hm)

end Rounding

/-- The finite floats are canonical: a normal one has all bits of its significand, and one with
fewer has the least exponent. -/
theorem isCanonical_of_unpack {bits : BitVec Format.binary64.numBits} {sign : Sign} {m : Nat}
    {e : Int} {hm : 0 < m} (h : UnpackedFloat.unpack .binary64 bits = .finite sign m e hm) :
    IsCanonical .binary64 m e := by
  have hmin : Format.binary64.minExponent = -1074 := by decide
  have hbits : Format.binary64.mantissaBits = 53 := by decide
  have hbias : Format.binary64.exponentBias = 1023 := by decide
  have hfraction : (unpackMantissa bits).toNat < 2 ^ 52 := (unpackMantissa bits).isLt
  rw [IsCanonical, Format.targetExponent, totalExponent, hmin, hbits]
  unfold UnpackedFloat.unpack at h
  dsimp only at h
  split at h
  next => split at h <;> cases h
  next =>
    split at h
    next hexponent =>
      split at h
      next => cases h
      next =>
        cases h
        have hlog : (unpackMantissa bits).toNat.log2 < 52 :=
          (Nat.log2_lt (Nat.ne_of_gt hm)).mpr hfraction
        rw [hexponent, hbias]
        simp
        omega
    next hexponent =>
      cases h
      have hvalue : (1#1 ++ unpackMantissa bits).toNat = 2 ^ 52 + (unpackMantissa bits).toNat := by
        rw [BitVec.toNat_append, ← Nat.shiftLeft_add_eq_or_of_lt (unpackMantissa bits).isLt]
        rfl
      have hlog : (1#1 ++ unpackMantissa bits).toNat.log2 = 52 := by
        rw [Nat.log2_eq_iff (Nat.ne_of_gt hm), hvalue]
        omega
      have hpositive : 0 < (unpackExponent bits).toNat := by
        rwa [BitVec.toNat_pos, BitVec.pos_iff_ne_zero]
      rw [hbias, hlog]
      simp
      omega

theorem unpack_one : one.toModel.unpack = .finite .positive (2 ^ 52) (-52) (by decide) := rfl

theorem mul_unpack_one (bits : BitVec Format.binary64.numBits) :
    UnpackedFloat.mul .binary64 one.toModel.unpack (UnpackedFloat.unpack .binary64 bits) =
      UnpackedFloat.unpack .binary64 bits := by
  have hsign : ∀ sign : Sign, Sign.positive * sign = sign := by
    intro sign
    cases sign <;> rfl
  rw [unpack_one]
  cases hunpack : UnpackedFloat.unpack .binary64 bits with
  | notANumber => rfl
  | infinity sign => rw [UnpackedFloat.mul, hsign]
  | zero sign => rw [UnpackedFloat.mul, hsign]
  | finite sign m e hm =>
    have hround := roundWithAccuracy_zeros (isCanonical_of_unpack hunpack) hm sign 52
    rw [UnpackedFloat.mul, hsign, ← hround]
    congr 1
    omega

protected theorem one_mul (x : Float) : one * x = x := by
  obtain ⟨⟨bits, valid⟩⟩ := x
  have hproduct : one * Float.ofModel ⟨bits, valid⟩ =
      .ofModel (.pack (UnpackedFloat.mul .binary64 one.toModel.unpack
        (UnpackedFloat.unpack .binary64 bits.toBitVec))) := rfl
  -- there is only one float that is no number, so packing what was unpacked restores it
  have hpack : Float.Model.pack (UnpackedFloat.unpack .binary64 bits.toBitVec) = ⟨bits, valid⟩ := by
    rw [Float.Model.pack, Float.Model.mk.injEq, pack_unpack_of_valid valid]
  rw [hproduct, mul_unpack_one, hpack]

/-- The integer one becomes the float one. -/
theorem ofInt?_one : ofInt? 1 = some one := by
  decide +kernel

end Formula.Binary
