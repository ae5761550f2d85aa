import Formula.Proofs.Eval.Closure
import Formula.Proofs.Number.Range
import Mathlib.Data.List.Basic

namespace Formula

namespace Value

def IsFloat : Value → Prop
  | .float _ => True
  | _ => False

instance : DecidablePred IsFloat
  | .float _ => inferInstanceAs (Decidable True)
  | .int _ | .bool _ | .none => inferInstanceAs (Decidable False)

theorem exists_of_isFloat {value : Value} (h : value.IsFloat) : ∃ x, value = .float x := by
  cases value with
  | float x => exact ⟨x, rfl⟩
  | _ => exact h.elim

theorem combine_floats {symbol : String} {exact : Int → Int → Int}
    {rounded : Float → Float → Float} (x y : Float) :
    combine symbol exact rounded (.float x) (.float y) = .ok (.float (rounded x y)) := by
  simp [combine]

/-- An integer that meets a float becomes a float first. -/
theorem combine_int_float {symbol : String} {exact : Int → Int → Int}
    {rounded : Float → Float → Float} {n : Int} {x : Float} (h : Binary.ofInt? n = some x)
    (y : Float) :
    combine symbol exact rounded (.int n) (.float y) = .ok (.float (rounded x y)) := by
  simp [combine, asInt?, toFloat, h, bind, Except.bind, pure, Except.pure]

theorem exists_foldlM_floats {step : Value → Value → Except Fault Value}
    (hstep : ∀ x y, ∃ z, step (.float x) (.float y) = .ok (.float z)) {values : List Value}
    (floats : ∀ value ∈ values, value.IsFloat) (x : Float) :
    ∃ z, values.foldlM step (.float x) = .ok (.float z) := by
  induction values generalizing x with
  | nil => exact ⟨x, rfl⟩
  | cons first rest ih =>
    rw [List.forall_mem_cons] at floats
    obtain ⟨y, rfl⟩ := exists_of_isFloat floats.1
    obtain ⟨z, hz⟩ := hstep x y
    rw [List.foldlM_cons, hz]
    exact ih floats.2 z

theorem exists_sum_floats {first : Value} {rest : List Value}
    (floats : ∀ value ∈ first :: rest, value.IsFloat) :
    ∃ z, sum (first :: rest) = .ok (.float z) := by
  rw [List.forall_mem_cons] at floats
  obtain ⟨x, rfl⟩ := exists_of_isFloat floats.1
  exact exists_foldlM_floats (fun x y => ⟨_, combine_floats x y⟩) floats.2 x

/-- The integer that a product starts with becomes a float with the first factor. -/
theorem exists_product_floats {first : Value} {rest : List Value}
    (floats : ∀ value ∈ first :: rest, value.IsFloat) :
    ∃ z, product (first :: rest) = .ok (.float z) := by
  rw [List.forall_mem_cons] at floats
  obtain ⟨x, rfl⟩ := exists_of_isFloat floats.1
  obtain ⟨one, hone⟩ := @Binary.exists_ofInt? 1 Binary.one_le_largest
  rw [product, List.foldlM_cons, multiply, combine_int_float hone]
  exact exists_foldlM_floats (fun x y => ⟨_, combine_floats x y⟩) floats.2 _

theorem reciprocal_meets (x : Float) :
    Meets IsFloat (·.isEvaluation) (reciprocal (.float x)) := by
  have hreciprocal : reciprocal (.float x) =
      if x == Binary.zero false then .error .divisionByZero
      else .ok (.float (Binary.one / x)) := rfl
  rw [hreciprocal]
  split
  next => exact rfl
  next => trivial

theorem remainder_meets (x y : Float) :
    Meets IsFloat (·.isEvaluation) (remainder (.float x) (.float y)) := by
  have hleft : (float x).wholeOperand =
      (Binary.toInt .towardZero x).mapError .remainderNotFinite := rfl
  have hright : (float y).wholeOperand =
      (Binary.toInt .towardZero y).mapError .remainderNotFinite := rfl
  unfold remainder
  rw [hleft, hright]
  cases Binary.toInt .towardZero x with
  | error reason => exact rfl
  | ok dividend =>
    cases hdivisor : Binary.toInt .towardZero y with
    | error reason => exact rfl
    | ok divisor =>
      by_cases hzero : divisor = 0
      · subst hzero
        exact rfl
      · have hbelow := Binary.natAbs_fmod_lt dividend hzero
        have hrange := Binary.toInt_natAbs_le hdivisor
        obtain ⟨z, hz⟩ := @Binary.exists_ofInt? (dividend.fmod divisor) (by omega)
        simp [Except.mapError, bind, Except.bind, hzero, hz, pure, Except.pure, Meets, IsFloat]

theorem power_meets (x y : Float) :
    Meets IsFloat (·.isEvaluation) (power (.float x) (.float y)) := by
  have hbase : (float x).powerOperand = .ok x := rfl
  have hexponent : (float y).powerOperand = .ok y := rfl
  unfold power
  rw [hbase, hexponent]
  simp only [bind, Except.bind]
  cases Binary.power x y <;> trivial

end Value

theorem firstTwoOperands_bind (operation : Value → Value → Except Fault Value)
    (left right : Value) :
    (firstTwoOperands [left, right] >>= fun (x, y) => operation x y) = operation left right := rfl

/-- Floats lead to floats or to faults of evaluation. -/
theorem Operator.isClosed_floats (operator : Operator) : operator.IsClosed Value.IsFloat := by
  intro values takes floats
  cases operator with
  | add =>
    obtain _ | ⟨first, rest⟩ := values
    · simp [Takes] at takes
    · obtain ⟨z, hz⟩ := Value.exists_sum_floats floats
      rw [apply, hz]
      trivial
  | multiply =>
    obtain _ | ⟨first, rest⟩ := values
    · simp [Takes] at takes
    · obtain ⟨z, hz⟩ := Value.exists_product_floats floats
      rw [apply, hz]
      trivial
  | negate =>
    obtain ⟨value, rfl⟩ := List.length_eq_one_iff.mp takes
    obtain ⟨x, rfl⟩ := Value.exists_of_isFloat (floats value (by simp))
    trivial
  | reciprocal =>
    obtain ⟨value, rfl⟩ := List.length_eq_one_iff.mp takes
    obtain ⟨x, rfl⟩ := Value.exists_of_isFloat (floats value (by simp))
    exact Value.reciprocal_meets x
  | remainder =>
    obtain ⟨left, right, rfl⟩ := List.length_eq_two.mp takes
    obtain ⟨x, rfl⟩ := Value.exists_of_isFloat (floats left (by simp))
    obtain ⟨y, rfl⟩ := Value.exists_of_isFloat (floats right (by simp))
    rw [apply, firstTwoOperands_bind]
    exact Value.remainder_meets x y
  | power =>
    obtain ⟨left, right, rfl⟩ := List.length_eq_two.mp takes
    obtain ⟨x, rfl⟩ := Value.exists_of_isFloat (floats left (by simp))
    obtain ⟨y, rfl⟩ := Value.exists_of_isFloat (floats right (by simp))
    rw [apply, firstTwoOperands_bind]
    exact Value.power_meets x y
  | other symbol => exact takes.elim

end Formula
