import Formula.Proofs.Number.Integral
import Formula.Proofs.Number.Nearest
import Mathlib

namespace Formula.Binary

open Float.Model Float.Model.UnpackedFloat

section Packed

variable (sign : Sign) (exponent : BitVec Format.binary64.exponentBits)
  (fraction : BitVec Format.binary64.mantissaBitsWithoutImplicit)

theorem toNat_packComponents :
    (packComponents .binary64 sign exponent fraction).toNat =
      sign.toBitVec.toNat * signBit + (exponent.toNat * fractions + fraction.toNat) := by
  have hfractions : 2 ^ Format.binary64.mantissaBitsWithoutImplicit = fractions := rfl
  have hexponents : 2 ^ Format.binary64.exponentBits = 2048 := rfl
  rw [packComponents, BitVec.toNat_append, ← Nat.shiftLeft_add_eq_or_of_lt fraction.isLt,
    BitVec.toNat_append, ← Nat.shiftLeft_add_eq_or_of_lt exponent.isLt, Nat.shiftLeft_eq,
    Nat.shiftLeft_eq, hfractions, hexponents, signBit, Nat.add_mul, Nat.mul_assoc, Nat.add_assoc]

theorem neg_unpack :
    (UnpackedFloat.unpack .binary64 (packComponents .binary64 sign exponent fraction)).neg =
      UnpackedFloat.unpack .binary64 (packComponents .binary64 (-sign) exponent fraction) := by
  unfold UnpackedFloat.unpack
  simp only [unpackSign_packComponents, unpackExponent_packComponents,
    unpackMantissa_packComponents, Sign.ofBitVec_toBitVec]
  split
  next =>
    split
    next => rfl
    next => rfl
  next =>
    split
    next =>
      split
      next => rfl
      next => rfl
    next => rfl

end Packed

/-- The pieces of the bits of a float without its sign. -/
theorem exists_packComponents {bits : BitVec Format.binary64.numBits} {magnitude : Nat}
    {negative : Bool} (hmagnitude : magnitude < infinityBits)
    (h : bits.toNat = if negative then signBit + magnitude else magnitude) :
    bits = packComponents .binary64 (if negative then .negative else .positive)
      (.ofNat _ (magnitude / fractions)) (.ofNat _ (magnitude % fractions)) := by
  have hfractions : fractions = 4503599627370496 := rfl
  have hexponents : 2 ^ Format.binary64.exponentBits = 2048 := rfl
  have hmantissas : 2 ^ Format.binary64.mantissaBitsWithoutImplicit = 4503599627370496 := rfl
  apply BitVec.eq_of_toNat_eq
  rw [h, toNat_packComponents, BitVec.toNat_ofNat, BitVec.toNat_ofNat, hexponents, hmantissas]
  rw [infinityBits, hfractions] at hmagnitude
  rw [hfractions]
  cases negative with
  | false =>
    have hsign : Sign.positive.toBitVec.toNat = 0 := rfl
    rw [if_neg Bool.false_ne_true, if_neg Bool.false_ne_true, hsign]
    omega
  | true =>
    have hsign : Sign.negative.toBitVec.toNat = 1 := rfl
    rw [if_pos rfl, if_pos rfl, hsign]
    omega

theorem neg_ofMagnitude {magnitude : Nat} (h : magnitude < infinityBits) :
    -(ofMagnitude false magnitude) = ofMagnitude true magnitude := by
  have hbits := fun negative => exists_packComponents h (toBits_ofMagnitude h negative)
  have hplain := hbits false
  have hnegative := hbits true
  rw [if_neg Bool.false_ne_true] at hplain
  rw [if_pos rfl] at hnegative
  generalize ofMagnitude false magnitude = x at *
  generalize ofMagnitude true magnitude = y at *
  obtain ⟨⟨bits, valid⟩⟩ := x
  obtain ⟨⟨bits', valid'⟩⟩ := y
  -- the two floats differ in their signs alone, and packing what was unpacked restores it
  have hflip : (UnpackedFloat.unpack .binary64 bits.toBitVec).neg =
      UnpackedFloat.unpack .binary64 bits'.toBitVec := by
    have hx : bits.toBitVec = _ := hplain
    have hy : bits'.toBitVec = _ := hnegative
    rw [hx, hy, neg_unpack]
    rfl
  have hneg : -Float.ofModel ⟨bits, valid⟩ =
      .ofModel (.pack (UnpackedFloat.unpack .binary64 bits.toBitVec).neg) := rfl
  rw [hneg, hflip, Float.Model.pack]
  congr 2
  exact UInt64.toBitVec_inj.mp (pack_unpack_of_valid valid')

section Parts

variable {x : Float} {negative : Bool} {significand : Nat} {exponent : Int}

theorem beq_self_of_parts (h : parts x = .finite negative significand exponent) :
    (x == x) = true := by
  rw [Float.beq_self_iff]
  intro hnan
  have hparts : parts Float.nan = .nan := by decide +kernel
  rw [hnan, hparts] at h
  cases h

/-- A float without its sign, negated where the float is below zero, compares equal to the float. -/
theorem beq_of_parts (h : parts x = .finite negative significand exponent) :
    ((if negative = true ∧ 0 < significand then -(nearest false (.ofScaled significand 2 exponent))
      else nearest false (.ofScaled significand 2 exponent)) == x) = true := by
  have hx := nearest_of_parts h
  split
  next hbelow =>
    rw [hbelow.1, nearest] at hx
    rw [nearest, neg_ofMagnitude (toBits_of_parts h).1, hx]
    exact beq_self_of_parts h
  next habove =>
    cases negative with
    | false =>
      rw [hx]
      exact beq_self_of_parts h
    | true =>
      obtain rfl : significand = 0 := by
        by_contra hne
        exact habove ⟨rfl, Nat.pos_of_ne_zero hne⟩
      have hzeros : (ofMagnitude false 0 == ofMagnitude true 0) = true := by decide +kernel
      rw [← hx, nearest, nearest, nearestBits_zero]
      exact hzeros

end Parts

end Formula.Binary
