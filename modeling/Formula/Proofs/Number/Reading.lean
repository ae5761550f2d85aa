import Formula.Proofs.Number.Nearest
import Formula.Proofs.Token.Longest
import Formula.Value
import Mathlib

namespace Formula

open Text (digitsValue)

section Digits

variable {c : Char} {digits : List Char}

theorem digitValue?_of_isDigit (h : c.isDigit = true) :
    Text.digitValue? c = some (c.toNat - '0'.toNat) := by
  have hrange : 48 ≤ c.toNat ∧ c.toNat < 48 + 10 := by
    simp only [Char.isDigit, Bool.and_eq_true, decide_eq_true_eq, ge_iff_le,
      UInt32.le_iff_toNat_le] at h
    exact ⟨h.1, Nat.lt_succ_of_le h.2⟩
  have hfirst : (decide (48 ≤ c.toNat) && decide (c.toNat < 48 + 10)) = true := by
    simpa using hrange
  rw [Text.digitValue?, Text.zeros, List.find?_cons, hfirst]
  rfl

theorem isDigit_of_isDigit (h : c.isDigit = true) : Text.isDigit c = true := by
  rw [Text.isDigit, digitValue?_of_isDigit h]
  rfl

/-- The first digits of a row count for as much as there are digits behind them. -/
theorem digitsValue_append (first second : List Char) :
    digitsValue (first ++ second) =
      digitsValue first * 10 ^ second.length + digitsValue second := by
  have hfrom : ∀ (digits : List Char) (total : Nat),
      digits.foldl (fun total c => 10 * total + (Text.digitValue? c).getD 0) total =
        total * 10 ^ digits.length + digitsValue digits := by
    intro digits
    induction digits with
    | nil => intro total; simp [digitsValue]
    | cons c digits ih =>
      intro total
      have hcons : digitsValue (c :: digits) =
          (10 * 0 + (Text.digitValue? c).getD 0) * 10 ^ digits.length + digitsValue digits := by
        rw [digitsValue, List.foldl_cons, ih]
      rw [List.foldl_cons, ih, hcons, List.length_cons, Nat.pow_succ]
      ring
  rw [digitsValue, List.foldl_append, hfrom]
  rfl

theorem digitsValue_zeros (n : Nat) : digitsValue (List.replicate n '0') = 0 := by
  induction n with
  | zero => rfl
  | succ n ih =>
    have hzero : digitsValue ['0'] = 0 := by decide
    rw [List.replicate_succ', digitsValue_append, ih, hzero, Nat.zero_mul]

theorem digitsValue_eq_ofDigitChars (h : ∀ c ∈ digits, c.isDigit = true) :
    digitsValue digits = Nat.ofDigitChars 10 digits 0 := by
  rw [Nat.ofDigitChars_eq_foldl, digitsValue]
  refine List.foldl_ext _ _ _ fun total c member => ?_
  rw [digitValue?_of_isDigit (h c member), Option.getD_some]

theorem isDigit_toDigits (n : Nat) : ∀ c ∈ Nat.toDigits 10 n, c.isDigit = true :=
  fun _ member => Nat.isDigit_of_mem_toDigits (by decide) (by decide) member

theorem digitsValue_toDigits (n : Nat) : digitsValue (Nat.toDigits 10 n) = n := by
  rw [digitsValue_eq_ofDigitChars (isDigit_toDigits n), Nat.ofDigitChars_ten_toDigits]

theorem isDigits_of_plain (h : ∀ c ∈ digits, c.isDigit = true) (hne : digits ≠ []) :
    IsDigits digits :=
  ⟨hne, fun c member => isDigit_of_isDigit (h c member)⟩

theorem isDigits_append {more : List Char} (h : IsDigits digits)
    (hmore : ∀ c ∈ more, Text.isDigit c = true) : IsDigits (digits ++ more) :=
  ⟨List.append_ne_nil_of_left_ne_nil h.1 more, List.forall_mem_append.mpr ⟨h.2, hmore⟩⟩

theorem isDigit_zeros (n : Nat) : ∀ c ∈ List.replicate n '0', Text.isDigit c = true := by
  intro c member
  rw [List.eq_of_mem_replicate member]
  decide

/-- A number is its digits without the zeros at the end, with as many zeros behind them. -/
theorem exists_kept {n : Nat} (hn : n ≠ 0) :
    ∃ zeros, Nat.toDigits 10 n =
        Decimal.dropTrailingZeros (Nat.toDigits 10 n) ++ List.replicate zeros '0' ∧
      IsDigits (Decimal.dropTrailingZeros (Nat.toDigits 10 n)) := by
  have hsplit : Nat.toDigits 10 n = Decimal.dropTrailingZeros (Nat.toDigits 10 n) ++
      ((Nat.toDigits 10 n).reverse.takeWhile (· == '0')).reverse := by
    rw [Decimal.dropTrailingZeros, ← List.reverse_append, List.takeWhile_append_dropWhile,
      List.reverse_reverse]
  have hzeros : ((Nat.toDigits 10 n).reverse.takeWhile (· == '0')).reverse =
      List.replicate ((Nat.toDigits 10 n).reverse.takeWhile (· == '0')).reverse.length '0' := by
    refine List.eq_replicate_of_mem fun c member => ?_
    have hzero := List.mem_takeWhile_imp (List.mem_reverse.mp member)
    simpa using hzero
  rw [hzeros] at hsplit
  refine ⟨_, hsplit, isDigits_of_plain (fun c member => ?_) ?_⟩
  · apply isDigit_toDigits n
    rw [hsplit]
    exact List.mem_append_left _ member
  · intro hempty
    rw [hempty, List.nil_append] at hsplit
    have hvalue := digitsValue_toDigits n
    rw [hsplit, digitsValue_zeros] at hvalue
    exact hn hvalue.symm

end Digits

/-- Whether a text is the end of a numeral that multiplies by a power of ten. -/
structure IsPower (w : List Char) (power : Int) : Prop where
  form : w = [] ∨ IsExponent w
  reads : Decimal.readExponent w = some power

/-- Whether a text is a numeral with the given value. -/
structure Denotes (w : List Char) (value : ℚ) : Prop where
  numeral : IsNumeral w
  reads : ∃ (digits : Nat) (exponent : Int), digits * (10 : ℚ) ^ exponent = value ∧
    ∀ negative, Decimal.readNumeral negative w = some (Decimal.ofDecimal negative digits exponent)

section Notation

variable {w whole fraction kept : List Char} {power : Int} {value : ℚ}

theorem isPower_nil : IsPower [] 0 :=
  ⟨.inl rfl, rfl⟩

theorem isPower_written (power : Int) (zeros : Nat) :
    IsPower ('e' :: (if power < 0 then '-' else '+') ::
      (List.replicate zeros '0' ++ Nat.toDigits 10 power.natAbs)) power := by
  have hdigits : IsDigits (List.replicate zeros '0' ++ Nat.toDigits 10 power.natAbs) :=
    ⟨List.append_ne_nil_of_right_ne_nil _ Nat.toDigits_ne_nil, List.forall_mem_append.mpr
      ⟨isDigit_zeros zeros, fun c member => isDigit_of_isDigit (isDigit_toDigits _ c member)⟩⟩
  have hvalue : digitsValue (List.replicate zeros '0' ++ Nat.toDigits 10 power.natAbs) =
      power.natAbs := by
    rw [digitsValue_append, digitsValue_zeros, digitsValue_toDigits, Nat.zero_mul, Nat.zero_add]
  have hall : (List.replicate zeros '0' ++ Nat.toDigits 10 power.natAbs).all Text.isDigit = true :=
    List.all_eq_true.mpr hdigits.2
  have hempty : (List.replicate zeros '0' ++ Nat.toDigits 10 power.natAbs).isEmpty = false := by
    rw [List.isEmpty_eq_false_iff]
    exact hdigits.1
  generalize List.replicate zeros '0' ++ Nat.toDigits 10 power.natAbs = digits at *
  by_cases hnegative : power < 0
  · rw [if_pos hnegative]
    refine ⟨.inr ⟨'e', ['-'], digits, rfl, .inl rfl, .inr (.inr rfl), hdigits⟩, ?_⟩
    have hread : Decimal.readExponent ('e' :: '-' :: digits) =
        some (-(digitsValue digits : Int)) := by
      simp [Decimal.readExponent, hall, hempty]
    rw [hread, hvalue]
    congr 1
    omega
  · rw [if_neg hnegative]
    refine ⟨.inr ⟨'e', ['+'], digits, rfl, .inl rfl, .inr (.inl rfl), hdigits⟩, ?_⟩
    have hread : Decimal.readExponent ('e' :: '+' :: digits) = some (digitsValue digits : Int) := by
      simp [Decimal.readExponent, hall, hempty]
    rw [hread, hvalue]
    congr 1
    omega

theorem IsPower.ends (h : IsPower w power) : EndsDigits w ∧ w.head? ≠ some '.' := by
  refine (readExponent_of_matches ?_).2
  rw [Pattern.matches_optional, matches_exponent]
  exact h.form.symm

theorem denotes_whole (hwhole : IsDigits whole) (hpower : IsPower w power) :
    Denotes (whole ++ w) (digitsValue whole * (10 : ℚ) ^ power) := by
  obtain ⟨hends, hpoint⟩ := hpower.ends
  obtain ⟨htake, hdrop⟩ := span_digits hwhole.2 hends
  have hfraction : Decimal.readFraction w = ([], w) := by
    unfold Decimal.readFraction
    split
    next => simp at hpoint
    next => rfl
  refine ⟨⟨whole, w, rfl, .inl ⟨whole, hwhole, .inl rfl⟩, hpower.form⟩, _, _, rfl, ?_⟩
  intro negative
  simp [Decimal.readNumeral, htake, hdrop, hfraction, hwhole.1, hpower.reads]

theorem denotes_point (hwhole : IsDigits whole) (hfraction : ∀ c ∈ fraction, Text.isDigit c = true)
    (hpower : IsPower w power) :
    Denotes (whole ++ '.' :: (fraction ++ w))
      (digitsValue (whole ++ fraction) * (10 : ℚ) ^ (power - fraction.length)) := by
  have hdot : EndsDigits ('.' :: (fraction ++ w)) := by
    rintro c ⟨⟩
    decide
  obtain ⟨htake, hdrop⟩ := span_digits hwhole.2 hdot
  obtain ⟨htake', hdrop'⟩ := span_digits hfraction hpower.ends.1
  refine ⟨⟨whole ++ '.' :: fraction, w, by simp, .inl ⟨whole, hwhole, .inr ⟨fraction, rfl,
    hfraction⟩⟩, hpower.form⟩, _, _, rfl, ?_⟩
  intro negative
  simp [Decimal.readNumeral, htake, hdrop, Decimal.readFraction, htake', hdrop', hwhole.1,
    hpower.reads]

theorem Denotes.congr (h : Denotes w value) {value' : ℚ} (hvalue : value = value') :
    Denotes w value' :=
  hvalue ▸ h

theorem denotes_positional (hkept : IsDigits kept) (point : Int) :
    Denotes (Decimal.positional kept point)
      (digitsValue kept * (10 : ℚ) ^ (point - kept.length)) := by
  have hzero : IsDigits ['0'] := ⟨by simp, isDigit_zeros 1⟩
  unfold Decimal.positional
  split
  next hsmall =>
    have hfraction : ∀ c ∈ List.replicate (-point).toNat '0' ++ kept, Text.isDigit c = true :=
      List.forall_mem_append.mpr ⟨isDigit_zeros _, hkept.2⟩
    have hread := denotes_point hzero hfraction isPower_nil
    rw [List.append_nil] at hread
    refine hread.congr ?_
    have hzeros : digitsValue (['0'] ++ (List.replicate (-point).toNat '0' ++ kept)) =
        digitsValue kept := by
      have hfirst : digitsValue ['0'] = 0 := by decide
      rw [digitsValue_append, digitsValue_append, digitsValue_zeros, hfirst]
      simp
    rw [hzeros, List.length_append, List.length_replicate]
    congr 2
    omega
  next hlarge =>
    dsimp only
    by_cases hinside : kept.length ≤ point.toNat
    · have hdrop : kept.drop point.toNat = [] := List.drop_eq_nil_of_le hinside
      rw [List.take_of_length_le hinside, hdrop, List.isEmpty_nil, if_pos rfl]
      have hpadded := isDigits_append hkept (isDigit_zeros (point.toNat - kept.length))
      have hread := denotes_point hpadded hzero.2 isPower_nil
      rw [List.append_nil] at hread
      refine hread.congr ?_
      have hlast : digitsValue ['0'] = 0 := by decide
      have hpower : (10 : ℚ) ^ (point - kept.length) = 10 ^ (point.toNat - kept.length) := by
        rw [← zpow_natCast]
        congr 1
        omega
      rw [digitsValue_append, digitsValue_append, digitsValue_zeros, hlast, List.length_replicate,
        List.length_singleton, hpower]
      push_cast
      field_simp
      norm_num
    · have hdrop : kept.drop point.toNat ≠ [] := by
        rw [Ne, List.drop_eq_nil_iff]
        exact hinside
      have hnone : point.toNat - kept.length = 0 := by omega
      have hempty : (kept.drop point.toNat).isEmpty = false := by
        rw [List.isEmpty_eq_false_iff]
        exact hdrop
      have htake : IsDigits (kept.take point.toNat) := by
        refine ⟨?_, fun c member => hkept.2 c (List.mem_of_mem_take member)⟩
        rw [Ne, List.take_eq_nil_iff]
        rintro (hpoint | hnil)
        · omega
        · exact hkept.1 hnil
      have hfraction : ∀ c ∈ kept.drop point.toNat, Text.isDigit c = true :=
        fun c member => hkept.2 c (List.mem_of_mem_drop member)
      rw [hnone, List.replicate_zero, List.append_nil, hempty]
      have hread := denotes_point htake hfraction isPower_nil
      rw [List.append_nil] at hread
      refine hread.congr ?_
      rw [List.take_append_drop, List.length_drop]
      congr 2
      omega

theorem denotes_scientific (style : Decimal.Style) (hkept : IsDigits kept) (power : Int) :
    Denotes (Decimal.scientific style kept power)
      (digitsValue kept * (10 : ℚ) ^ (power + 1 - kept.length)) := by
  have hpower := isPower_written power
    (style.exponentWidth - (Nat.toDigits 10 power.natAbs).length)
  unfold Decimal.scientific
  dsimp only
  cases kept with
  | nil => exact absurd rfl hkept.1
  | cons first rest =>
    obtain ⟨hfirst, hrest⟩ := List.forall_mem_cons.mp hkept.2
    have hone : IsDigits [first] := ⟨by simp, by simpa using hfirst⟩
    cases rest with
    | nil =>
      refine (denotes_whole hone hpower).congr ?_
      congr 2
      simp
    | cons second rest =>
      refine (denotes_point hone hrest hpower).congr ?_
      congr 2
      simp only [List.length_cons]
      omega

theorem denotes_spell {digits : Nat} (hdigits : digits ≠ 0) (exponent : Int) :
    Denotes (Decimal.spell .standard digits exponent) (digits * (10 : ℚ) ^ exponent) := by
  obtain ⟨zeros, hsplit, hkept⟩ := exists_kept hdigits
  have hvalue : (digitsValue (Decimal.dropTrailingZeros (Nat.toDigits 10 digits)) : ℚ) *
      10 ^ zeros = digits := by
    have hall := digitsValue_toDigits digits
    rw [hsplit, digitsValue_append, digitsValue_zeros, List.length_replicate, Nat.add_zero] at hall
    exact_mod_cast hall
  have hlength := congrArg List.length hsplit
  rw [List.length_append, List.length_replicate] at hlength
  have hscale (place : Int) (hplace : place = zeros + exponent) :
      (digitsValue (Decimal.dropTrailingZeros (Nat.toDigits 10 digits)) : ℚ) * 10 ^ place =
        digits * 10 ^ exponent := by
    rw [hplace, zpow_add₀ (by norm_num), zpow_natCast, ← mul_assoc, hvalue]
  unfold Decimal.spell
  rw [if_neg hdigits]
  dsimp only
  split
  next =>
    refine (denotes_positional hkept _).congr (hscale _ ?_)
    omega
  next =>
    refine (denotes_scientific .standard hkept _).congr (hscale _ ?_)
    omega

end Notation

/-- A numeral has the float closest to its value. -/
theorem Denotes.readNumeral_eq {w : List Char} {value : ℚ} (h : Denotes w value) {ratio : Ratio}
    (hden : 0 < ratio.den) (hvalue : ratio.value = value) (negative : Bool) :
    Decimal.readNumeral negative w = some (Binary.nearest negative ratio) := by
  obtain ⟨digits, exponent, hdigits, hread⟩ := h.reads
  have hbits : Binary.nearestBits (.ofScaled digits 10 exponent) = Binary.nearestBits ratio := by
    refine Binary.nearestBits_congr (Ratio.den_ofScaled_pos (by decide)) hden ?_
    rw [Ratio.value_ofScaled (by decide), hvalue, ← hdigits, Nat.cast_ofNat]
  rw [hread, Decimal.ofDecimal_eq_nearest, Binary.nearest, Binary.nearest, hbits]

/-- Whether a text without sign is a numeral that reads as the magnitude of a float. -/
structure ReadsAs (w : List Char) (significand : Nat) (exponent : Int) : Prop where
  numeral : IsNumeral w
  reads : Decimal.readNumeral false w =
    some (Binary.nearest false (.ofScaled significand 2 exponent))

theorem toList_toString_int (n : Int) : (toString n).toList =
    if n < 0 then '-' :: Nat.toDigits 10 n.natAbs else Nat.toDigits 10 n.natAbs := by
  rw [Int.toString_eq_repr, Int.repr_eq_if]
  by_cases hnegative : n < 0
  · have habs : (-n).toNat = n.natAbs := by omega
    rw [if_neg (by omega), if_pos hnegative, String.toList_append, Nat.toList_repr, habs]
    rfl
  · have habs : n.toNat = n.natAbs := by omega
    rw [if_pos (by omega), if_neg hnegative, Nat.toList_repr, habs]

section Texts

variable {x : Float} {negative : Bool} {significand : Nat} {exponent : Int}

theorem toList_spellFloat (h : Binary.parts x = .finite negative significand exponent)
    (hpositive : 0 < significand) :
    ∃ w, (Decimal.spellFloat x).toList = (if negative then '-' :: w else w) ∧
      ReadsAs w significand exponent := by
  have hbits := Decimal.nearestBits_shortest h hpositive
  have hnonzero := Binary.nearestBits_pos_of_parts h hpositive
  rw [← hbits] at hnonzero
  have hdigits : (Decimal.shortest significand exponent).1 ≠ 0 := by
    intro hzero
    rw [hzero, Binary.nearestBits_zero] at hnonzero
    exact Nat.lt_irrefl 0 hnonzero
  have hden : 0 < (Ratio.ofScaled (Decimal.shortest significand exponent).1 10
      (Decimal.shortest significand exponent).2).den := Ratio.den_ofScaled_pos (by decide)
  have hdenotes := denotes_spell hdigits (Decimal.shortest significand exponent).2
  refine ⟨_, ?_, hdenotes.numeral, ?_⟩
  · rw [Decimal.spellFloat, h]
    dsimp only
    rw [if_neg (Nat.ne_of_gt hpositive), String.toList_ofList]
  · rw [hdenotes.readNumeral_eq hden (by rw [Ratio.value_ofScaled (by decide), Nat.cast_ofNat]),
      Binary.nearest, hbits, Binary.nearest]

/-- The text of a finite float is a numeral, behind a minus sign if the float is negative and not
zero, and the numeral reads as the magnitude of the float. -/
theorem toList_text (h : Binary.parts x = .finite negative significand exponent) :
    ∃ w, (Value.float x).text.toList =
        (if negative = true ∧ 0 < significand then '-' :: w else w) ∧
      ReadsAs w significand exponent := by
  have hden : 0 < (Ratio.ofScaled significand 2 exponent).den := Ratio.den_ofScaled_pos two_ne_zero
  have hvalue : (Ratio.ofScaled significand 2 exponent).value =
      significand * (2 : ℚ) ^ exponent := by
    rw [Ratio.value_ofScaled two_ne_zero, Nat.cast_ofNat]
  have htoInt : Binary.toInt .towardZero x =
      .ok (if negative then -((Ratio.ofScaled significand 2 exponent).floor : Int)
        else (Ratio.ofScaled significand 2 exponent).floor) := by
    rw [Binary.toInt, h]
    rfl
  have hwhole : Binary.isWhole x = (Ratio.ofScaled significand 2 exponent).isWhole := by
    rw [Binary.isWhole, h]
  have habs : (if negative then -((Ratio.ofScaled significand 2 exponent).floor : Int)
      else (Ratio.ofScaled significand 2 exponent).floor).natAbs =
      (Ratio.ofScaled significand 2 exponent).floor := by
    cases negative with
    | false => simp
    | true => simp
  rw [Value.text, htoInt, hwhole]
  dsimp only
  rw [habs]
  by_cases hshort : ((Ratio.ofScaled significand 2 exponent).isWhole &&
      decide ((Ratio.ofScaled significand 2 exponent).floor < Value.wholeLimit)) = true
  · rw [if_pos hshort]
    have hexact : (Ratio.ofScaled significand 2 exponent).value =
        (Ratio.ofScaled significand 2 exponent).floor :=
      Ratio.value_eq_floor hden (Bool.and_eq_true_iff.mp hshort).1
    have hpositive : 0 < (Ratio.ofScaled significand 2 exponent).floor ↔ 0 < significand := by
      have hpower : (0 : ℚ) < 2 ^ exponent := by positivity
      rw [hvalue] at hexact
      rw [← @Nat.cast_pos ℚ, ← hexact, mul_pos_iff_of_pos_right hpower, Nat.cast_pos]
    have hdigits : IsDigits (Nat.toDigits 10 (Ratio.ofScaled significand 2 exponent).floor) :=
      isDigits_of_plain (isDigit_toDigits _) Nat.toDigits_ne_nil
    have hdenotes := denotes_whole hdigits isPower_nil
    rw [List.append_nil, digitsValue_toDigits, zpow_zero, mul_one] at hdenotes
    refine ⟨_, ?_, hdenotes.numeral, hdenotes.readNumeral_eq hden hexact false⟩
    rw [toList_toString_int, habs]
    congr 1
    rw [eq_iff_iff, ← hpositive]
    cases negative with
    | false => simp
    | true => simp
  · rw [if_neg hshort]
    have hpositive : 0 < significand := by
      by_contra hnone
      obtain rfl : significand = 0 := by omega
      refine hshort (Bool.and_eq_true_iff.mpr ⟨?_, ?_⟩)
      · simp [Ratio.isWhole, Ratio.ofScaled, Ratio.onScale, Ratio.ofNat]
      · simp [Ratio.floor, Ratio.ofScaled, Ratio.onScale, Ratio.ofNat, Value.wholeLimit]
    obtain ⟨w, hw, hreads⟩ := toList_spellFloat h hpositive
    refine ⟨w, ?_, hreads⟩
    rw [hw]
    simp only [hpositive, and_true]

/-- What a numeral without sign denotes is not negative, nor a zero with a sign. -/
theorem isNegative_of_readNumeral {w : List Char} (h : Decimal.readNumeral false w = some x) :
    Binary.isNegative x = false := by
  unfold Decimal.readNumeral at h
  dsimp only at h
  split at h
  next => cases h
  next =>
    obtain ⟨power, -, rfl⟩ := Option.map_eq_some_iff.mp h
    rw [Decimal.ofDecimal_eq_nearest]
    exact Binary.isNegative_nearest _

/-- The text of a finite float without sign is a numeral that reads back as the float. -/
theorem readNumeral_text (hfinite : Binary.isFinite x = true)
    (hsign : Binary.isNegative x = false) :
    IsNumeral (Value.float x).text.toList ∧
      Decimal.readNumeral false (Value.float x).text.toList = some x := by
  obtain ⟨negative, significand, exponent, hparts⟩ := Binary.exists_parts_of_isFinite hfinite
  obtain rfl : negative = false := (Binary.isNegative_of_parts hparts).symm.trans hsign
  obtain ⟨w, htext, hreads⟩ := toList_text hparts
  rw [if_neg (by simp)] at htext
  rw [htext, hreads.reads, Binary.nearest_of_parts hparts]
  exact ⟨hreads.numeral, rfl⟩

end Texts

end Formula
