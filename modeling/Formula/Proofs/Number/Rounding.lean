import Formula.Proofs.Number.Range

namespace Formula

namespace Ratio

variable {ratio : Ratio} {bound : Nat}

/-- Rounding does not fall below a natural that the ratio reaches. -/
theorem le_round (hden : 0 < ratio.den) (h : bound * ratio.den ≤ ratio.num) :
    bound ≤ ratio.round := by
  have hfloor : bound ≤ ratio.floor := (Nat.le_div_iff_mul_le hden).mpr h
  unfold round
  split <;> omega

theorem round_eq_of_mul (hden : 0 < ratio.den) (h : ratio.num = bound * ratio.den) :
    ratio.round = bound :=
  Nat.le_antisymm (round_le hden (Nat.le_of_eq h)) (le_round hden (Nat.le_of_eq h.symm))

/-- No natural is closer to a ratio than the one it is rounded to. -/
theorem round_closest (hden : 0 < ratio.den) (other : Nat) :
    ((ratio.num : Int) - (ratio.round * ratio.den : Nat)).natAbs ≤
      ((ratio.num : Int) - (other * ratio.den : Nat)).natAbs := by
  have hdivision : ratio.floor * ratio.den + ratio.num % ratio.den = ratio.num := by
    rw [Nat.mul_comm]
    exact Nat.div_add_mod _ _
  have hbelow := Nat.mod_lt ratio.num hden
  have hnext : (ratio.floor + 1) * ratio.den = ratio.floor * ratio.den + ratio.den :=
    Nat.succ_mul _ _
  have hother : other * ratio.den ≤ ratio.floor * ratio.den ∨
      (ratio.floor + 1) * ratio.den ≤ other * ratio.den := by
    rcases Nat.lt_or_ge ratio.floor other with h | h
    · exact .inr (Nat.mul_le_mul_right _ h)
    · exact .inl (Nat.mul_le_mul_right _ h)
  unfold round
  split
  next hdown =>
    have htwice : 2 * (ratio.num % ratio.den) ≤ ratio.den := by
      simp only [roundsDown, Bool.or_eq_true, Bool.and_eq_true, decide_eq_true_eq,
        beq_iff_eq] at hdown
      omega
    omega
  next hup =>
    have htwice : ratio.den ≤ 2 * (ratio.num % ratio.den) := by
      simp only [roundsDown, Bool.or_eq_true, decide_eq_true_eq] at hup
      omega
    omega

end Ratio

namespace Binary

/-- What the last bit of a significand counts for in a float as large as a natural. -/
def lastPlace (n : Nat) : Nat :=
  2 ^ (n.log2 - 52)

theorem lastPlace_pos (n : Nat) : 0 < lastPlace n :=
  Nat.two_pow_pos _

/-- Whether a natural has at most 53 significant bits. -/
def IsShort (n : Nat) : Prop :=
  lastPlace n ∣ n

/-- The multiple of the last place that is closest to a natural. -/
def shorten (n : Nat) : Nat :=
  Ratio.round ⟨n, lastPlace n⟩ * lastPlace n

theorem lastPlace_dvd_of_le {m n : Nat} (h : m ≤ n) (hn : n ≠ 0) : lastPlace m ∣ lastPlace n := by
  have hlog : m.log2 ≤ n.log2 := by
    by_cases hm : m = 0
    · subst hm
      exact Nat.zero_le _
    · exact (Nat.le_log2 hn).mpr (Nat.le_trans (Nat.log2_self_le hm) h)
  exact Nat.pow_dvd_pow 2 (by omega)

theorem lastPlace_of_lt {n : Nat} (h : n < 2 ^ 53) : lastPlace n = 1 := by
  have hlog : n.log2 ≤ 52 := by
    by_cases hn : n = 0
    · subst hn
      exact Nat.zero_le _
    · have := (Nat.log2_lt hn).mpr h
      omega
  rw [lastPlace, show n.log2 - 52 = 0 by omega, Nat.pow_zero]

theorem shorten_of_isShort {n : Nat} (h : IsShort n) : shorten n = n := by
  obtain ⟨c, hc⟩ := h
  have hnum : n = c * lastPlace n := by rw [Nat.mul_comm]; exact hc
  have hround : Ratio.round ⟨n, lastPlace n⟩ = c :=
    Ratio.round_eq_of_mul (lastPlace_pos n) hnum
  rw [shorten, hround, ← hnum]

theorem isShort_of_lt {n : Nat} (h : n < 2 ^ 53) : IsShort n := by
  rw [IsShort, lastPlace_of_lt h]
  exact Nat.one_dvd n

theorem shorten_pos {n : Nat} (hn : n ≠ 0) : 0 < shorten n := by
  have hpower : 2 ^ (n.log2 - 52) ≤ 2 ^ n.log2 := Nat.pow_le_pow_right Nat.two_pos (by omega)
  have hplace : 1 * lastPlace n ≤ n := by
    rw [Nat.one_mul, lastPlace]
    exact Nat.le_trans hpower (Nat.log2_self_le hn)
  exact Nat.mul_pos (Ratio.le_round (lastPlace_pos n) hplace) (lastPlace_pos n)

/-- Shortening does not pass a short natural. -/
theorem shorten_le {n bound : Nat} (hbound : IsShort bound) (h : n ≤ bound) :
    shorten n ≤ bound := by
  by_cases hzero : bound = 0
  · obtain rfl : n = 0 := by omega
    have hshort : shorten 0 = 0 := shorten_of_isShort (isShort_of_lt (by omega))
    omega
  · obtain ⟨c, hc⟩ := Nat.dvd_trans (lastPlace_dvd_of_le h hzero) hbound
    have hmul : bound = c * lastPlace n := by rw [Nat.mul_comm]; exact hc
    rw [shorten, hmul]
    exact Nat.mul_le_mul_right _ (Ratio.round_le (lastPlace_pos n) (hmul ▸ h))

/-- No short natural is closer to a natural than the one it is shortened to. -/
theorem shorten_closest (n : Nat) {other : Nat} (hother : IsShort other) :
    ((n : Int) - shorten n).natAbs ≤ ((n : Int) - other).natAbs := by
  by_cases hsmall : n < 2 ^ 53
  · rw [shorten_of_isShort (isShort_of_lt hsmall)]
    omega
  · have hn : n ≠ 0 := by omega
    have hclosest := fun c => @Ratio.round_closest ⟨n, lastPlace n⟩ (lastPlace_pos n) c
    rcases Nat.lt_or_ge other (2 ^ n.log2) with hbelow | habove
    · -- the power of two between them is a multiple of the last place
      have hlog : 52 ≤ n.log2 := by
        have := (Nat.le_log2 hn).mpr (show 2 ^ 53 ≤ n by omega)
        omega
      have hpower : 2 ^ n.log2 = 2 ^ 52 * lastPlace n := by
        rw [lastPlace, ← Nat.pow_add, show 52 + (n.log2 - 52) = n.log2 by omega]
      have hself := Nat.log2_self_le hn
      have := hclosest (2 ^ 52)
      rw [← hpower] at this
      rw [shorten]
      simp only at this
      omega
    · have hzero : other ≠ 0 := by
        have := Nat.two_pow_pos n.log2
        omega
      have hdvd : lastPlace n ∣ lastPlace other := by
        have hlog : n.log2 ≤ other.log2 := (Nat.le_log2 hzero).mpr habove
        exact Nat.pow_dvd_pow 2 (by omega)
      obtain ⟨c, hc⟩ := Nat.dvd_trans hdvd hother
      have hmul : other = c * lastPlace n := by rw [Nat.mul_comm]; exact hc
      have := hclosest c
      rw [← hmul] at this
      exact this

/-- The significand of 53 bits and the exponent of the first of them that make up a natural. -/
structure Normal (n significand log : Nat) : Prop where
  lower : 2 ^ 52 ≤ significand
  upper : significand < 2 ^ 53
  value : significand * 2 ^ (log - 52) = n * 2 ^ (52 - log)

namespace Normal

variable {n s s' log log' : Nat}

theorem log2_eq (h : Normal n s log) : n.log2 = log := by
  have hlower := h.lower
  have hupper := h.upper
  have hvalue := h.value
  have hbounds : 2 ^ log ≤ n ∧ n < 2 ^ (log + 1) := by
    rcases Nat.le_total 52 log with hlog | hlog
    · rw [show 52 - log = 0 by omega, Nat.pow_zero, Nat.mul_one] at hvalue
      rw [← hvalue, show log = 52 + (log - 52) by omega, Nat.add_right_comm, Nat.pow_add,
        Nat.pow_add, show 52 + (log - 52) - 52 = log - 52 by omega]
      exact ⟨Nat.mul_le_mul_right _ hlower,
        Nat.mul_lt_mul_of_pos_right hupper (Nat.two_pow_pos _)⟩
    · rw [show log - 52 = 0 by omega, Nat.pow_zero, Nat.mul_one] at hvalue
      rw [hvalue] at hlower hupper
      rw [show 52 = log + (52 - log) by omega, Nat.pow_add,
        show log + (52 - log) - log = 52 - log by omega] at hlower
      rw [show 53 = log + 1 + (52 - log) by omega, Nat.pow_add] at hupper
      exact ⟨Nat.le_of_mul_le_mul_right hlower (Nat.two_pow_pos _),
        Nat.lt_of_mul_lt_mul_right hupper⟩
  have hn : n ≠ 0 := by
    have := Nat.two_pow_pos log
    omega
  exact (Nat.log2_eq_iff hn).mpr hbounds

theorem unique (h : Normal n s log) (h' : Normal n s' log') : s = s' ∧ log = log' := by
  obtain rfl : log = log' := h.log2_eq.symm.trans h'.log2_eq
  exact ⟨Nat.eq_of_mul_eq_mul_right (Nat.two_pow_pos _) (h.value.trans h'.value.symm), rfl⟩

theorem isShort (h : Normal n s log) : IsShort n := by
  rw [IsShort, lastPlace, h.log2_eq]
  rcases Nat.le_total 52 log with hlog | hlog
  · have hvalue := h.value
    rw [show 52 - log = 0 by omega, Nat.pow_zero, Nat.mul_one] at hvalue
    exact hvalue ▸ Nat.dvd_mul_left _ _
  · rw [show log - 52 = 0 by omega, Nat.pow_zero]
    exact Nat.one_dvd n

end Normal

/-- The bits of the float of a natural, by its significand and exponent. The first bit of the
significand is not among them. -/
theorem exists_normal {n : Nat} (hn : n ≠ 0) (h : n ≤ largest) :
    ∃ significand log, Normal (shorten n) significand log ∧
      nearestBits (.ofNat n) = significand - fractions + (log + 1023) * fractions := by
  have hfractions : fractions = 2 ^ 52 := rfl
  have hfield : (n.log2 + 1023) * fractions = (n.log2 + 1022) * fractions + fractions :=
    Nat.succ_mul _ _
  have hcarry : (n.log2 + 1 + 1023) * fractions = (n.log2 + 1023) * fractions + fractions := by
    rw [Nat.add_right_comm, Nat.succ_mul]
  have hfinite := nearestBits_ofNat_lt h
  have hself := Nat.log2_self_le hn
  have hnext : n < 2 ^ (n.log2 + 1) := Nat.lt_log2_self
  have hbits : nearestBits (.ofNat n) =
      ((Ratio.ofNat n).onScale 2 ((n.log2 : Int) - 52)).round + (n.log2 + 1022) * fractions := by
    unfold nearestBits at hfinite ⊢
    have hnum : ¬ (Ratio.ofNat n).num = 0 := hn
    have hexponent : max ((n.log2 : Int) - 52) (-1074) = (n.log2 : Int) - 52 := by omega
    have hshift : ((n.log2 : Int) - 52 + 1074).toNat = n.log2 + 1022 := by omega
    rw [if_neg hnum, Ratio.binaryLog_ofNat hn] at hfinite ⊢
    dsimp only at hfinite ⊢
    rw [hexponent, hshift] at hfinite ⊢
    omega
  rcases Nat.lt_or_ge 52 n.log2 with hlog | hlog
  · have hscale : (Ratio.ofNat n).onScale 2 ((n.log2 : Int) - 52) = ⟨n, lastPlace n⟩ := by
      have hup : (-((n.log2 : Int) - 52)).toNat = 0 := by omega
      have hdown : ((n.log2 : Int) - 52).toNat = n.log2 - 52 := by omega
      rw [Ratio.onScale, hup, hdown]
      simp [Ratio.ofNat, lastPlace]
    have hplace : n.log2 = 52 + (n.log2 - 52) := by omega
    have hlower : 2 ^ 52 ≤ Ratio.round ⟨n, lastPlace n⟩ := by
      refine Ratio.le_round (lastPlace_pos n) ?_
      rw [lastPlace, ← Nat.pow_add, ← hplace]
      exact hself
    have hupper : Ratio.round ⟨n, lastPlace n⟩ ≤ 2 ^ 53 := by
      refine Ratio.round_le (lastPlace_pos n) ?_
      rw [lastPlace, ← Nat.pow_add, show 53 + (n.log2 - 52) = n.log2 + 1 by omega]
      exact Nat.le_of_lt hnext
    rw [hscale] at hbits
    rcases Nat.lt_or_eq_of_le hupper with hlt | heq
    · refine ⟨_, n.log2, ⟨hlower, hlt, ?_⟩, by omega⟩
      rw [show 52 - n.log2 = 0 by omega, Nat.pow_zero, Nat.mul_one, shorten, lastPlace]
    · -- the significand has rounded up to the next power of two
      refine ⟨2 ^ 52, n.log2 + 1, ⟨Nat.le_refl _, by omega, ?_⟩, by omega⟩
      rw [show 52 - (n.log2 + 1) = 0 by omega, Nat.pow_zero, Nat.mul_one, shorten, heq, lastPlace,
        ← Nat.pow_add, ← Nat.pow_add, show 52 + (n.log2 + 1 - 52) = 53 + (n.log2 - 52) by omega]
  · have hsmall : n < 2 ^ 53 :=
      Nat.lt_of_lt_of_le hnext (Nat.pow_le_pow_right Nat.two_pos (by omega))
    have hround : ((Ratio.ofNat n).onScale 2 ((n.log2 : Int) - 52)).round =
        n * 2 ^ (52 - n.log2) := by
      have hup : (-((n.log2 : Int) - 52)).toNat = 52 - n.log2 := by omega
      have hdown : ((n.log2 : Int) - 52).toNat = 0 := by omega
      rw [Ratio.onScale, hup, hdown]
      exact Ratio.round_eq_of_mul Nat.one_pos (by simp [Ratio.ofNat])
    have hlower : 2 ^ 52 ≤ n * 2 ^ (52 - n.log2) := by
      rw [show 2 ^ 52 = 2 ^ n.log2 * 2 ^ (52 - n.log2) by
        rw [← Nat.pow_add, show n.log2 + (52 - n.log2) = 52 by omega]]
      exact Nat.mul_le_mul_right _ hself
    have hupper : n * 2 ^ (52 - n.log2) < 2 ^ 53 := by
      rw [show 2 ^ 53 = 2 ^ (n.log2 + 1) * 2 ^ (52 - n.log2) by
        rw [← Nat.pow_add, show n.log2 + 1 + (52 - n.log2) = 53 by omega]]
      exact Nat.mul_lt_mul_of_pos_right hnext (Nat.two_pow_pos _)
    rw [hround] at hbits
    refine ⟨_, n.log2, ⟨hlower, hupper, ?_⟩, by omega⟩
    rw [show n.log2 - 52 = 0 by omega, Nat.pow_zero, Nat.mul_one,
      shorten_of_isShort (isShort_of_lt hsmall)]

theorem isShort_largest : IsShort largest := by
  have hlog := log2_le_of_le_largest (Nat.le_refl largest)
  have hplace : lastPlace largest ∣ 2 ^ topExponent := Nat.pow_dvd_pow 2 (by omega)
  exact Nat.dvd_trans hplace (Nat.dvd_mul_left _ _)

/-- What is left of a natural by its float has the same float. -/
theorem nearestBits_shorten {n : Nat} (h : n ≤ largest) :
    nearestBits (.ofNat (shorten n)) = nearestBits (.ofNat n) := by
  by_cases hn : n = 0
  · subst hn
    rw [shorten_of_isShort (isShort_of_lt (by omega))]
  · obtain ⟨s, log, normal, hbits⟩ := exists_normal hn h
    have hshort : shorten (shorten n) = shorten n := shorten_of_isShort normal.isShort
    obtain ⟨s', log', normal', hbits'⟩ :=
      exists_normal (Nat.ne_of_gt (shorten_pos hn)) (shorten_le isShort_largest h)
    rw [hshort] at normal'
    obtain ⟨rfl, rfl⟩ := normal.unique normal'
    rw [hbits, hbits']

end Binary

end Formula
