import Formula.Function.Table
import Formula.Proofs.Function.Builtin

namespace Formula

variable {σ : Type} {good : Definition σ → Prop} {registry : Registry σ}

namespace Text

/-- Names without those that stand next to the same name. -/
def withoutRepeats (names : List String) : List String :=
  names.foldr (fun name rest => if rest.head? == some name then rest else name :: rest) []

theorem mem_withoutRepeats {name : String} {names : List String} :
    name ∈ withoutRepeats names ↔ name ∈ names := by
  induction names with
  | nil => rfl
  | cons first rest ih =>
    rw [withoutRepeats, List.foldr_cons, ← withoutRepeats]
    split
    next hhead =>
      rw [ih, List.mem_cons]
      constructor
      · exact .inr
      · rintro (rfl | h)
        · exact ih.mp (List.mem_of_head? (by simpa using hhead))
        · exact h
    next => rw [List.mem_cons, List.mem_cons, ih]

theorem sortedNames_eq_withoutRepeats (names : List String) :
    sortedNames names = withoutRepeats (names.mergeSort fun a b => !(b < a)) :=
  rfl

/-- Sorting keeps all names. -/
theorem mem_sortedNames {name : String} {names : List String} :
    name ∈ sortedNames names ↔ name ∈ names := by
  rw [sortedNames_eq_withoutRepeats, mem_withoutRepeats, List.mem_mergeSort]

end Text

namespace Registry

/-- Whether all functions of a registry are good. -/
def All (good : Definition σ → Prop) (registry : Registry σ) : Prop :=
  ∀ definition ∈ registry.definitions, good definition

theorem mem_place {definition new : Definition σ} {others : List (Definition σ)}
    (h : definition ∈ place new others) : definition = new ∨ definition ∈ others := by
  induction others with
  | nil => exact .inl (List.mem_singleton.mp h)
  | cons other rest ih =>
    unfold place at h
    split at h
    next =>
      rcases List.mem_cons.mp h with h | h
      · exact .inl h
      · exact .inr (List.mem_cons_of_mem _ h)
    next =>
      rcases List.mem_cons.mp h with h | h
      · exact .inr (h ▸ List.mem_cons_self)
      · exact (ih h).imp_right (List.mem_cons_of_mem _)

theorem all_empty : (empty : Registry σ).All good := by
  simp [All, empty]

theorem All.register (h : registry.All good) {definition : Definition σ} (hnew : good definition) :
    (registry.register definition).All good := by
  intro other member
  rcases mem_place member with rfl | member
  · exact hnew
  · exact h other member

theorem All.withBuiltins (h : registry.All good)
    (hbuiltin : ∀ function : Builtin, good function.definition) :
    registry.withBuiltins.All good := by
  have hfold : ∀ (functions : List Builtin) (registry : Registry σ), registry.All good →
      (functions.foldl (fun registry function => registry.register function.definition)
        registry).All good := by
    intro functions
    induction functions with
    | nil => exact fun _ h => h
    | cons function rest ih => exact fun registry h => ih _ (h.register (hbuiltin function))
  exact hfold Builtin.all registry h

theorem all_standard (hbuiltin : ∀ function : Builtin, good function.definition) :
    (standard : Registry σ).All good :=
  all_empty.withBuiltins hbuiltin

theorem contains_eq_isSome {name : String} :
    registry.contains name = (registry.callee? name).isSome := by
  rw [contains, callee?, Option.isSome_map]

theorem mem_names_iff {name : String} :
    name ∈ registry.names ↔ registry.contains name = true := by
  simp [names, contains, find?, List.find?_isSome]

theorem All.of_callee? (h : registry.All good) {name : String} {callee : Callee σ}
    (found : registry.callee? name = some callee) :
    ∃ definition, good definition ∧ definition.name = name ∧ definition.callee = callee := by
  obtain ⟨definition, hdefinition, rfl⟩ := Option.map_eq_some_iff.mp found
  exact ⟨definition, h _ (List.mem_of_find?_eq_some hdefinition),
    by simpa using List.find?_some hdefinition, rfl⟩

end Registry

/-- Whether a definition is that of a built-in function. -/
def Definition.IsBuiltin (definition : Definition σ) : Prop :=
  ∃ function : Builtin, definition = function.definition

theorem PureTable.builtin_name (function : Builtin) :
    PureTable.builtin function.name = some function.run := by
  cases function <;> rfl

namespace FunctionTable

/-- The built-in functions that folding may call over a registry that has no others. -/
def builtins (functions : FunctionTable σ) (registry : Registry σ) : PureTable :=
  fun name =>
    if functions.owns name || !registry.contains name then none else PureTable.builtin name

theorem builtins_isClosed (functions : FunctionTable σ) (registry : Registry σ) :
    (functions.builtins registry).IsClosed Value.IsFloat := by
  intro name function found
  unfold builtins at found
  split at found
  next => cases found
  next => exact PureTable.builtin_isClosed name function found

theorem foldable_eq_builtins (h : registry.All Definition.IsBuiltin)
    (functions : FunctionTable σ) :
    functions.foldable registry = (functions.builtins registry).callee? := by
  funext name
  rw [foldable, PureTable.callee?, builtins, Registry.contains_eq_isSome]
  cases functions.owns name with
  | true => rfl
  | false =>
    cases hfound : registry.callee? name with
    | none => rfl
    | some callee =>
      obtain ⟨_, ⟨function, rfl⟩, rfl, rfl⟩ := h.of_callee? hfound
      exact (congrArg (Option.map Callee.pureFunction) (PureTable.builtin_name function)).symm

theorem resolve_of_not_owns {functions : FunctionTable σ} {name : String}
    (h : functions.owns name = false) (registry : Registry σ) :
    functions.resolve registry name = registry.callee? name := by
  rw [owns, Option.isSome_eq_false_iff, Option.isNone_iff_eq_none] at h
  rw [resolve, h, Option.none_or]

/-- What folding may call are the registered functions that are not hidden. -/
theorem foldable_eq_some_iff {functions : FunctionTable σ} {name : String} {callee : Callee σ} :
    functions.foldable registry name = some callee ↔
      functions.owns name = false ∧ registry.callee? name = some callee := by
  rw [foldable]
  cases functions.owns name <;> simp

/-- Folding calls what evaluation would call. -/
theorem resolve_of_foldable {functions : FunctionTable σ} {name : String} {callee : Callee σ}
    (h : functions.foldable registry name = some callee) :
    functions.resolve registry name = some callee := by
  obtain ⟨howns, hcallee⟩ := foldable_eq_some_iff.mp h
  rw [resolve_of_not_owns howns, hcallee]

theorem mem_foldableNames_iff {functions : FunctionTable σ} {name : String} :
    name ∈ functions.foldableNames registry ↔
      name ∈ registry.names ∧ functions.owns name = false := by
  rw [foldableNames, Text.mem_sortedNames, List.mem_filter, Bool.not_eq_true']

end FunctionTable

end Formula
