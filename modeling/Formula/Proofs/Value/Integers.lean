import Formula.Proofs.Eval.Closure
import Mathlib.Algebra.BigOperators.Group.List.Basic
import Mathlib.Algebra.Ring.Int.Defs

namespace Formula

namespace Value

/-- Whether a value is an integer; truth values are. -/
def IsInteger (value : Value) : Prop :=
  value.asInt?.isSome

instance : DecidablePred IsInteger :=
  fun value => inferInstanceAs (Decidable (value.asInt?.isSome = true))

/-- The integer that a value is, or zero. -/
def integer (value : Value) : Int :=
  value.asInt?.getD 0

variable {value left right : Value} {values : List Value}

theorem asInt?_eq_integer (h : value.IsInteger) : value.asInt? = some value.integer := by
  obtain ⟨n, hn⟩ := Option.isSome_iff_exists.mp h
  rw [integer, hn]
  rfl

theorem isInteger_int (n : Int) : (int n).IsInteger := rfl

@[simp] theorem integer_int (n : Int) : (int n).integer = n := rfl

theorem combine_integers {symbol : String} {exact : Int → Int → Int}
    {rounded : Float → Float → Float} (hleft : left.IsInteger) (hright : right.IsInteger) :
    combine symbol exact rounded left right = .ok (.int (exact left.integer right.integer)) := by
  have hl := asInt?_eq_integer hleft
  have hr := asInt?_eq_integer hright
  cases left <;> cases right <;> simp_all [combine, asInt?]

theorem foldlM_add_integers (h : ∀ value ∈ values, value.IsInteger) (start : Int) :
    values.foldlM add (.int start) = .ok (.int (start + (values.map integer).sum)) := by
  induction values generalizing start with
  | nil => simp [pure, Except.pure]
  | cons first rest ih =>
    rw [List.forall_mem_cons] at h
    rw [List.foldlM_cons, add, combine_integers (isInteger_int start) h.1]
    change rest.foldlM add (.int (start + first.integer)) = _
    rw [ih h.2, List.map_cons, List.sum_cons, add_assoc]

theorem foldlM_multiply_integers (h : ∀ value ∈ values, value.IsInteger) (start : Int) :
    values.foldlM multiply (.int start) = .ok (.int (start * (values.map integer).prod)) := by
  induction values generalizing start with
  | nil => simp [pure, Except.pure]
  | cons first rest ih =>
    rw [List.forall_mem_cons] at h
    rw [List.foldlM_cons, multiply, combine_integers (isInteger_int start) h.1]
    change rest.foldlM multiply (.int (start * first.integer)) = _
    rw [ih h.2, List.map_cons, List.prod_cons, mul_assoc]

theorem sum_integers (h : ∀ value ∈ values, value.IsInteger) (hmany : 2 ≤ values.length) :
    sum values = .ok (.int (values.map integer).sum) := by
  obtain _ | ⟨first, _ | ⟨second, rest⟩⟩ := values
  · simp at hmany
  · simp at hmany
  · simp only [List.forall_mem_cons] at h
    rw [sum, List.foldlM_cons, add, combine_integers h.1 h.2.1]
    change rest.foldlM add (.int (first.integer + second.integer)) = _
    rw [foldlM_add_integers h.2.2, List.map_cons, List.map_cons, List.sum_cons, List.sum_cons,
      add_assoc]

theorem product_integers (h : ∀ value ∈ values, value.IsInteger) :
    product values = .ok (.int (values.map integer).prod) := by
  rw [product, foldlM_multiply_integers h, one_mul]

end Value

namespace Operator

/-- The operators that lead from integers to integers. -/
def IsExact : Operator → Prop
  | .add | .multiply | .negate => True
  | _ => False

instance : DecidablePred IsExact
  | .add | .multiply | .negate => inferInstanceAs (Decidable True)
  | .reciprocal | .remainder | .power | .other _ => inferInstanceAs (Decidable False)

theorem isClosed_integers {operator : Operator} (hexact : operator.IsExact) :
    operator.IsClosed Value.IsInteger := by
  intro values takes integers
  cases operator with
  | add =>
    obtain _ | ⟨first, _ | ⟨second, rest⟩⟩ := values
    · simp [Takes] at takes
    · exact integers first (by simp)
    · rw [apply, Value.sum_integers integers (by simp)]
      exact Value.isInteger_int _
  | multiply =>
    rw [apply, Value.product_integers integers]
    exact Value.isInteger_int _
  | negate =>
    obtain ⟨value, rfl⟩ := List.length_eq_one_iff.mp takes
    have hvalue := integers value (by simp)
    cases value with
    | int n => rfl
    | bool b => rfl
    | float x => simp [Value.IsInteger, Value.asInt?] at hvalue
    | none => simp [Value.IsInteger, Value.asInt?] at hvalue
  | _ => exact hexact.elim

variable {operator : Operator} {others constants whole : List Value}

/-- Several of the operands of a sum or product of integers may be taken together, last. -/
theorem apply_gathered (commutes : operator.isCommutative)
    (hothers : ∀ value ∈ others, value.IsInteger)
    (hconstants : ∀ value ∈ constants, value.IsInteger) (hsome : others ≠ [])
    (hmany : 2 ≤ constants.length) (perm : whole.Perm (others ++ constants)) :
    ∃ joined : Int, operator.apply constants = .ok (.int joined) ∧
      operator.apply (others ++ [.int joined]) = operator.apply whole := by
  have hjoined (joined : Int) : ∀ value ∈ others ++ [.int joined], value.IsInteger := by
    intro value member
    rcases List.mem_append.mp member with member | member
    · exact hothers value member
    · exact List.mem_singleton.mp member ▸ Value.isInteger_int joined
  have hwhole : ∀ value ∈ whole, value.IsInteger := by
    intro value member
    rcases List.mem_append.mp (perm.mem_iff.mp member) with member | member
    · exact hothers value member
    · exact hconstants value member
  have hlength := perm.length_eq
  have hpos := List.length_pos_iff.mpr hsome
  rw [List.length_append] at hlength
  cases operator with
  | add =>
    refine ⟨_, Value.sum_integers hconstants hmany, ?_⟩
    rw [apply, apply, Value.sum_integers (hjoined _) (by simp; omega),
      Value.sum_integers hwhole (by omega), (perm.map _).sum_eq]
    simp
  | multiply =>
    refine ⟨_, Value.product_integers hconstants, ?_⟩
    rw [apply, apply, Value.product_integers (hjoined _), Value.product_integers hwhole,
      (perm.map _).prod_eq]
    simp
  | _ => simp [isCommutative] at commutes

end Operator

end Formula
