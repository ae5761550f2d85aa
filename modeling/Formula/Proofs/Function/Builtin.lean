import Formula.Function.Registry
import Formula.Proofs.Fold.Total
import Formula.Proofs.Value.Floats

namespace Formula

variable {σ : Type} {value result : Value}

namespace Builtin

theorem checked_isFloat {grows : Bool} {argument x : Float}
    (h : checked grows argument x = .ok result) : result.IsFloat := by
  unfold checked at h
  split at h
  next => cases h
  next =>
    split at h
    next => cases h
    next =>
      cases h
      trivial

theorem real_isFloat {grows : Bool} {function : Float → Float}
    (h : real grows function value = .ok result) : result.IsFloat := by
  unfold real at h
  cases hx : realArgument value with
  | error fault =>
    rw [hx] at h
    cases h
  | ok x =>
    rw [hx] at h
    exact checked_isFloat h

theorem logarithm_isFloat {function : Float → Float}
    (h : logarithm function value = .ok result) : result.IsFloat := by
  unfold logarithm at h
  split at h
  next =>
    split at h
    next => cases h
    next =>
      split at h <;>
      · cases h
        trivial
  next => exact real_isFloat h

theorem quotient_isFloat {left right : Value} (h : quotient left right = .ok result) :
    result.IsFloat := by
  unfold quotient at h
  split at h
  next =>
    split at h
    next => cases h
    next =>
      cases h
      trivial
  next => cases h

theorem rounded_isFloat {direction : Binary.Direction}
    (h : rounded direction value = .ok result) : result.IsFloat := by
  unfold rounded at h
  dsimp only at h
  split at h
  next =>
    obtain ⟨n, -, h⟩ := exists_of_bind_eq_ok h
    split at h
    next =>
      cases h
      trivial
    next => cases h
  next =>
    split at h
    next =>
      obtain ⟨n, -, h⟩ := exists_of_bind_eq_ok h
      split at h
      next =>
        cases h
        trivial
      next => cases h
    next => cases h

/-- A built-in function returns a float if anything. -/
theorem run_isFloat {function : Builtin} {arguments : List Value}
    (h : function.run arguments = .ok result) : result.IsFloat := by
  unfold run at h
  split at h
  case h_11 => exact logarithm_isFloat h
  case h_12 =>
    obtain ⟨numerator, -, h⟩ := exists_of_bind_eq_ok h
    obtain ⟨denominator, -, h⟩ := exists_of_bind_eq_ok h
    exact quotient_isFloat h
  case h_13 => exact logarithm_isFloat h
  case h_14 => exact logarithm_isFloat h
  case h_15 => exact rounded_isFloat h
  case h_16 => exact rounded_isFloat h
  case h_17 =>
    obtain ⟨positive, -, h⟩ := exists_of_bind_eq_ok h
    cases h
    trivial
  case h_18 =>
    cases h
    trivial
  case h_19 => cases h
  all_goals exact real_isFloat h

end Builtin

/-- The built-in functions by name. -/
def PureTable.builtin : PureTable :=
  fun name => (Builtin.all.find? (·.name == name)).map Builtin.run

theorem PureTable.builtin_isClosed : PureTable.builtin.IsClosed Value.IsFloat := by
  intro name function found arguments _ value returns
  obtain ⟨builtin, -, rfl⟩ := Option.map_eq_some_iff.mp found
  exact Builtin.run_isFloat returns

namespace Registry

/-- A definition of a new name goes behind the others. -/
theorem place_eq_append {definition : Definition σ} {others : List (Definition σ)}
    (fresh : definition.name ∉ others.map (·.name)) :
    place definition others = others ++ [definition] := by
  induction others with
  | nil => rfl
  | cons other rest ih =>
    simp only [List.map_cons, List.mem_cons, not_or] at fresh
    rw [place, if_neg (by simpa using fun h => fresh.1 h.symm), ih fresh.2, List.cons_append]

theorem definitions_foldl_register {functions : List Builtin} {registry : Registry σ}
    (nodup : (registry.names ++ functions.map Builtin.name).Nodup) :
    (functions.foldl (fun registry function => registry.register function.definition)
      registry).definitions = registry.definitions ++ functions.map Builtin.definition := by
  induction functions generalizing registry with
  | nil => simp
  | cons function rest ih =>
    have hplace : (registry.register function.definition).definitions =
        registry.definitions ++ [function.definition] := by
      refine place_eq_append fun member => ?_
      exact (List.nodup_append.mp nodup).2.2 _ member _ List.mem_cons_self rfl
    have hnames : (registry.register function.definition).names =
        registry.names ++ [function.name] := by
      rw [names, hplace, List.map_append]
      rfl
    rw [List.foldl_cons, ih (by rw [hnames]; simpa using nodup), hplace]
    simp

theorem standard_definitions :
    (standard : Registry σ).definitions = Builtin.all.map Builtin.definition := by
  rw [standard, withBuiltins, definitions_foldl_register]
  · rfl
  · show (Builtin.all.map Builtin.name).Nodup
    decide

/-- The registry at the start has the built-in functions and no others. -/
theorem standard_callee?_eq : (standard : Registry σ).callee? = PureTable.builtin.callee? := by
  funext name
  rw [callee?, find?, standard_definitions, List.find?_map, PureTable.callee?, PureTable.builtin,
    Option.map_map, Option.map_map]
  rfl

end Registry

end Formula
