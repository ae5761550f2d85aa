import Formula.Arithmetic
import Formula.Proofs.Number.Integral

namespace Formula

theorem fmod_sign (dividend : Int) {divisor : Int} (h : divisor ≠ 0) :
    dividend.fmod divisor = 0 ∨ (dividend.fmod divisor).sign = divisor.sign := by
  by_cases hzero : dividend.fmod divisor = 0
  · exact .inl hzero
  · right
    rcases Int.lt_or_gt_of_ne h with hneg | hpos
    · have hflip := Int.neg_fmod_neg dividend divisor
      have hnonneg := Int.fmod_nonneg_of_pos (-dividend) (show 0 < -divisor by omega)
      rw [Int.sign_eq_neg_one_of_neg hneg, Int.sign_eq_neg_one_of_neg (by omega)]
    · have hnonneg := Int.fmod_nonneg_of_pos dividend hpos
      rw [Int.sign_eq_one_of_pos hpos, Int.sign_eq_one_of_pos (by omega)]

/-- What is below a divisor and has its sign is its own remainder. -/
theorem fmod_eq_self {n divisor : Int} (hsign : n = 0 ∨ n.sign = divisor.sign)
    (h : n.natAbs < divisor.natAbs) : n.fmod divisor = n := by
  rcases hsign with rfl | hsign
  · exact Int.zero_fmod divisor
  · rcases Int.lt_trichotomy n 0 with hneg | rfl | hpos
    · rw [Int.sign_eq_neg_one_of_neg hneg] at hsign
      have hdivisor := Int.neg_of_sign_eq_neg_one hsign.symm
      have hflip := Int.neg_fmod_neg n divisor
      rw [Int.fmod_eq_of_lt (by omega) (by omega)] at hflip
      omega
    · exact Int.zero_fmod divisor
    · rw [Int.sign_eq_one_of_pos hpos] at hsign
      have hdivisor := Int.pos_of_sign_eq_one hsign.symm
      exact Int.fmod_eq_of_lt (by omega) (by omega)

namespace Value

open Binary

variable {x y : Float} {dividend divisor : Int}

/-- The remainder of floats is the float of the remainder of their whole parts. -/
theorem remainder_eq (hx : toInt .towardZero x = .ok dividend)
    (hy : toInt .towardZero y = .ok divisor) (hdivisor : divisor ≠ 0) {r : Float}
    (hr : ofInt? (dividend.fmod divisor) = some r) :
    remainder (.float x) (.float y) = .ok (.float r) := by
  simp [remainder, wholeOperand, hx, hy, hdivisor, hr, Except.mapError, bind, Except.bind, pure,
    Except.pure]

/-- The remainder of two finite floats is a whole number. It is the float closest to the remainder
of the whole parts, so it is at most as large as the divisor, and it is zero or has the sign of the
divisor. It is its own remainder, unless it is as large as the divisor; that takes a divisor of more
than 53 bits. -/
theorem remainder_le_divisor (hx : toInt .towardZero x = .ok dividend)
    (hy : toInt .towardZero y = .ok divisor) (hdivisor : divisor ≠ 0) :
    ∃ r m, remainder (.float x) (.float y) = .ok (.float r) ∧ IsExactly r m ∧
      m.natAbs ≤ divisor.natAbs ∧ (m = 0 ∨ m.sign = divisor.sign) ∧
      (∀ other k, IsExactly other k →
        (dividend.fmod divisor - m).natAbs ≤ (dividend.fmod divisor - k).natAbs) ∧
      (m.natAbs = divisor.natAbs → 2 ^ 53 < divisor.natAbs) ∧
      remainder (.float r) (.float y) =
        .ok (.float (if m.natAbs = divisor.natAbs then zero false else r)) := by
  have hbelow := natAbs_fmod_lt dividend hdivisor
  have hrange := toInt_natAbs_le hy
  have hsign := fmod_sign dividend hdivisor
  generalize hexact : dividend.fmod divisor = exact at *
  obtain ⟨r, hr, hrexact⟩ := exists_isExactly_of_ofInt? (show exact.natAbs ≤ largest by omega)
  have hle : (shortenInt exact).natAbs ≤ divisor.natAbs := by
    rw [natAbs_shortenInt]
    exact shorten_le (isShort_of_toInt hy) (Nat.le_of_lt hbelow)
  have hshortSign : shortenInt exact = 0 ∨ (shortenInt exact).sign = divisor.sign := by
    rcases hsign with rfl | hsign
    · exact .inl (by simp [shortenInt])
    · exact .inr (by rw [sign_shortenInt, hsign])
  refine ⟨r, shortenInt exact, remainder_eq hx hy hdivisor (hexact ▸ hr), hrexact, hle, hshortSign,
    ?_, ?_, ?_⟩
  · rintro other k ⟨-, hk⟩
    exact shortenInt_closest exact (isShort_of_toInt hk)
  · intro heq
    by_contra hsmall
    rw [natAbs_shortenInt, shorten_of_isShort (isShort_of_lt (by omega))] at heq
    omega
  · split
    next heq =>
      have hself : shortenInt exact = divisor := by
        rcases hshortSign with hzero | hsign
        · omega
        · rw [← Int.sign_mul_natAbs (shortenInt exact), hsign, heq, Int.sign_mul_natAbs]
      exact remainder_eq (hself ▸ hrexact.2) hy hdivisor (by rw [Int.fmod_self]; rfl)
    next hne =>
      have hself := fmod_eq_self hshortSign (Nat.lt_of_le_of_ne hle hne)
      exact remainder_eq hrexact.2 hy hdivisor (by rw [hself, ofInt?_shortenInt (by omega), hr])

/-- The remainder of minus one by ten to the seventeen. -/
theorem remainder_le_divisor_reached :
    let x := nearest true (.ofNat 1)
    let y := nearest false (.ofNat (10 ^ 17))
    toInt .towardZero x = .ok (-1) ∧ toInt .towardZero y = .ok (10 ^ 17) ∧
      ∃ r m, remainder (.float x) (.float y) = .ok (.float r) ∧ IsExactly r m ∧
        m.natAbs ≤ 10 ^ 17 ∧ (m = 0 ∨ m.sign = 1) ∧
        (∀ other k, IsExactly other k →
          ((-1 : Int).fmod (10 ^ 17) - m).natAbs ≤ ((-1 : Int).fmod (10 ^ 17) - k).natAbs) ∧
        (m.natAbs = 10 ^ 17 → 2 ^ 53 < 10 ^ 17) ∧
        remainder (.float r) (.float y) =
          .ok (.float (if m.natAbs = 10 ^ 17 then zero false else r)) := by
  intro x y
  have hx : toInt .towardZero x = .ok (-1) := by decide +kernel
  have hy : toInt .towardZero y = .ok (10 ^ 17) := by decide +kernel
  exact ⟨hx, hy, remainder_le_divisor hx hy (by decide)⟩

/-- A remainder need not be below its divisor, nor be its own remainder. -/
theorem remainder_reaches_divisor :
    ¬ ∀ (x y : Float) (dividend divisor : Int), toInt .towardZero x = .ok dividend →
      toInt .towardZero y = .ok divisor → divisor ≠ 0 →
        ∃ r m, remainder (.float x) (.float y) = .ok (.float r) ∧ IsExactly r m ∧
          m.natAbs < divisor.natAbs ∧ (m = 0 ∨ m.sign = divisor.sign) ∧
            remainder (.float r) (.float y) = .ok (.float r) := by
  intro h
  have hx : toInt .towardZero (nearest true (.ofNat 1)) = .ok (-1) := by decide +kernel
  have hy : toInt .towardZero (nearest false (.ofNat (10 ^ 17))) = .ok (10 ^ 17) := by
    decide +kernel
  obtain ⟨r, m, hr, ⟨-, hm⟩, hlt, -, -⟩ := h _ _ _ _ hx hy (by decide)
  have hreached : remainder (.float (nearest true (.ofNat 1)))
      (.float (nearest false (.ofNat (10 ^ 17)))) =
        .ok (.float (nearest false (.ofNat (10 ^ 17)))) := by decide +kernel
  rw [hreached] at hr
  cases hr
  cases hy.symm.trans hm
  omega

end Value

end Formula
