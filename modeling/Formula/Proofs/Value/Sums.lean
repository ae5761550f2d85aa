import Formula.Proofs.Effect
import Formula.Proofs.Expr.Shape
import Formula.Arithmetic

namespace Formula

variable {fault : Fault}

/-- Whether a fault comes from the values of the caller: it is no fault of evaluation, and it does
not become one at the outermost level. -/
def Fault.IsForeign (fault : Fault) : Prop :=
  fault.kind ≠ .evaluation ∧ fault.kind ≠ .recursion

instance (fault : Fault) : Decidable fault.IsForeign :=
  inferInstanceAs (Decidable (_ ∧ _))

namespace Value

theorem toFloat_error {value : Value} (h : value.toFloat = .error fault) :
    fault = .intTooLarge ∨ fault = .notToFloat .none := by
  unfold toFloat at h
  split at h
  next => cases h
  next =>
    split at h
    next => cases h
    next =>
      cases h
      exact .inl rfl
  next => cases h
  next =>
    cases h
    exact .inr rfl

theorem combine_error {symbol : String} {exact : Int → Int → Int}
    {rounded : Float → Float → Float} {left right : Value}
    (h : combine symbol exact rounded left right = .error fault) :
    fault = .intTooLarge ∨ fault = .notToFloat .none ∨
      ∃ first second, fault = .badOperands symbol first second := by
  unfold combine at h
  split at h
  next =>
    cases h
    exact .inr (.inr ⟨_, _, rfl⟩)
  next =>
    cases h
    exact .inr (.inr ⟨_, _, rfl⟩)
  next => cases h
  next =>
    split at h
    next => cases h
    next =>
      rcases exists_of_bind_eq_error h with h | ⟨x, -, h⟩
      · exact (toFloat_error h).imp_right .inl
      rcases exists_of_bind_eq_error h with h | ⟨y, -, h⟩
      · exact (toFloat_error h).imp_right .inl
      · cases h

theorem foldlM_error {P : Fault → Prop} {step : Value → Value → Except Fault Value}
    (hstep : ∀ x y fault, step x y = .error fault → P fault) {values : List Value} {start : Value}
    (h : values.foldlM step start = .error fault) : P fault := by
  induction values generalizing start with
  | nil => cases h
  | cons value values ih =>
    rw [List.foldlM_cons] at h
    rcases exists_of_bind_eq_error h with h | ⟨next, -, h⟩
    · exact hstep start value fault h
    · exact ih h

theorem combine_foreign {symbol : String} {exact : Int → Int → Int}
    {rounded : Float → Float → Float} (left right : Value) (fault : Fault)
    (h : combine symbol exact rounded left right = .error fault) : fault.IsForeign := by
  rcases combine_error h with rfl | rfl | ⟨first, second, rfl⟩
  · decide
  · decide
  · exact ⟨nofun, nofun⟩

end Value

/-- A sum or product of any values has no fault of evaluation. -/
theorem Operator.apply_foreign {operator : Operator} {values : List Value}
    (commutes : operator.isCommutative) (h : operator.apply values = .error fault) :
    fault.IsForeign := by
  cases operator with
  | add =>
    cases values with
    | nil => cases h; decide
    | cons first rest => exact Value.foldlM_error Value.combine_foreign h
  | multiply => exact Value.foldlM_error Value.combine_foreign h
  | _ => simp [isCommutative] at commutes

/-- Whether a fault is one that an operator may find with the values of its operands. -/
def Fault.isAboutValues : Fault → Bool
  | .intTooLarge | .notToFloat _ | .badOperands .. | .badNegation _ | .notToInt _
  | .divisionByZero | .remainderByZero | .remainderNotFinite _ | .zeroToNegativePower
  | .powerOverflow _ | .noRealPower .. => true
  | _ => false

namespace Value

variable {value left right : Value}

theorem combine_aboutValues {symbol : String} {exact : Int → Int → Int}
    {rounded : Float → Float → Float} (left right : Value) (fault : Fault)
    (h : combine symbol exact rounded left right = .error fault) : fault.isAboutValues := by
  rcases combine_error h with rfl | rfl | ⟨first, second, rfl⟩ <;> rfl

theorem negate_aboutValues (h : value.negate = .error fault) : fault.isAboutValues := by
  cases value <;> cases h
  rfl

theorem reciprocal_aboutValues (h : value.reciprocal = .error fault) : fault.isAboutValues := by
  unfold reciprocal at h
  split at h
  next =>
    split at h <;> cases h
    rfl
  next =>
    cases h
    rfl
  next =>
    split at h
    next =>
      split at h <;> cases h
      rfl
    next =>
      cases h
      rfl

theorem wholeOperand_aboutValues (h : value.wholeOperand = .error fault) :
    fault.isAboutValues := by
  cases value with
  | float x =>
    dsimp only [wholeOperand] at h
    cases hwhole : Binary.toInt .towardZero x with
    | ok n =>
      rw [hwhole] at h
      cases h
    | error reason =>
      rw [hwhole] at h
      cases h
      rfl
  | int n => cases h
  | bool b => cases h
  | none =>
    cases h
    rfl

theorem remainder_aboutValues (h : left.remainder right = .error fault) :
    fault.isAboutValues := by
  unfold remainder at h
  rcases exists_of_bind_eq_error h with h | ⟨dividend, -, h⟩
  · exact wholeOperand_aboutValues h
  rcases exists_of_bind_eq_error h with h | ⟨divisor, -, h⟩
  · exact wholeOperand_aboutValues h
  dsimp only at h
  by_cases hzero : divisor = 0
  · rw [if_pos hzero] at h
    cases h
    rfl
  · rw [if_neg hzero] at h
    split at h <;> cases h
    rfl

theorem powerOperand_aboutValues (h : value.powerOperand = .error fault) :
    fault.isAboutValues := by
  unfold powerOperand at h
  cases hvalue : value.toFloat with
  | ok x =>
    rw [hvalue] at h
    cases h
  | error cause =>
    rw [hvalue] at h
    rcases toFloat_error hvalue with rfl | rfl <;> cases h <;> rfl

theorem power_aboutValues (h : left.power right = .error fault) : fault.isAboutValues := by
  unfold power at h
  rcases exists_of_bind_eq_error h with h | ⟨x, -, h⟩
  · exact powerOperand_aboutValues h
  rcases exists_of_bind_eq_error h with h | ⟨y, -, h⟩
  · exact powerOperand_aboutValues h
  split at h <;> cases h <;> rfl

end Value

/-- With the operands that it is made for an operator complains about their values alone. -/
theorem Operator.apply_aboutValues {operator : Operator} {values : List Value}
    (takes : operator.Takes values.length) (h : operator.apply values = .error fault) :
    fault.isAboutValues := by
  cases operator with
  | add =>
    cases values with
    | nil => simp [Takes] at takes
    | cons first rest => exact Value.foldlM_error Value.combine_aboutValues h
  | multiply => exact Value.foldlM_error Value.combine_aboutValues h
  | negate =>
    obtain ⟨value, rfl⟩ := List.length_eq_one_iff.mp takes
    exact Value.negate_aboutValues h
  | reciprocal =>
    obtain ⟨value, rfl⟩ := List.length_eq_one_iff.mp takes
    exact Value.reciprocal_aboutValues h
  | remainder =>
    match values, takes with
    | [left, right], _ => exact Value.remainder_aboutValues h
  | power =>
    match values, takes with
    | [base, exponent], _ => exact Value.power_aboutValues h
  | other symbol => exact takes.elim

end Formula
