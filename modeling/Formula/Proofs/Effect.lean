import Formula.Effect

namespace Formula

variable {σ α β : Type}

/-- A sequence of fallible steps that succeeds is a success of each of them. -/
theorem exists_of_bind_eq_ok {ε : Type} {x : Except ε α} {next : α → Except ε β} {result : β}
    (h : x >>= next = .ok result) : ∃ value, x = .ok value ∧ next value = .ok result := by
  cases x with
  | error e => cases h
  | ok value => exact ⟨value, rfl, h⟩

/-- A sequence that fails does so in its first part or in what follows. -/
theorem exists_of_bind_eq_error {ε α β : Type} {x : Except ε α} {next : α → Except ε β} {e : ε}
    (h : x >>= next = .error e) :
    x = .error e ∨ ∃ value, x = .ok value ∧ next value = .error e := by
  cases x with
  | error e' =>
    cases h
    exact .inl rfl
  | ok value => exact .inr ⟨value, rfl, h⟩

theorem exists_of_map_eq_ok {ε : Type} {x : Except ε α} {f : α → β} {result : β}
    (h : x.map f = .ok result) : ∃ value, x = .ok value ∧ f value = result := by
  cases x with
  | error e => cases h
  | ok value => exact ⟨value, rfl, Except.ok.inj h⟩

theorem eq_ok_of_mapError {ε ε' : Type} {x : Except ε α} {g : ε → ε'} {value : α}
    (h : x.mapError g = .ok value) : x = .ok value := by
  cases x with
  | error e => cases h
  | ok value' => exact congrArg Except.ok (Except.ok.inj h)

/-- A result that can be looked at is looked at by computing it. -/
theorem exists_ok_of_any {ε : Type} {result : Except ε α} {p : α → Bool}
    (h : result.toOption.any p = true) : ∃ value, result = .ok value ∧ p value = true := by
  cases result with
  | error e => cases h
  | ok value => exact ⟨value, rfl, h⟩

namespace Effect

@[simp] theorem ofExcept_ok (value : α) : (ofExcept (.ok value) : Effect σ α) = pure value := rfl

@[simp] theorem run_ofExcept (result : Except Fault α) (state : σ) :
    (ofExcept result : Effect σ α).run state = (result, state) := by
  cases result <;> rfl

theorem ofExcept_bind (result : Except Fault α) (next : α → Except Fault β) :
    (ofExcept (result >>= next) : Effect σ β) =
      ofExcept result >>= fun value => ofExcept (next value) := by
  cases result <;> rfl

theorem run_map (f : α → β) (x : Effect σ α) (state : σ) :
    (f <$> x).run state = ((x.run state).1.map f, (x.run state).2) := by
  rw [map_eq_pure_bind, run_bind]
  rcases x.run state with ⟨fault | value, after⟩ <;> rfl

/-- A sequence that succeeds is a success of its first part and one of what follows. -/
theorem exists_of_run_bind {x : Effect σ α} {next : α → Effect σ β} {state after : σ} {result : β}
    (h : (x >>= next).run state = (.ok result, after)) :
    ∃ value between, x.run state = (.ok value, between) ∧
      (next value).run between = (.ok result, after) := by
  rw [run_bind] at h
  rcases hx : x.run state with ⟨fault | value, between⟩
  · simp [hx] at h
  · exact ⟨value, between, rfl, by simpa [hx] using h⟩

/-- A sequence that fails does so in its first part or in what follows. -/
theorem exists_of_run_bind_eq_error {x : Effect σ α} {next : α → Effect σ β} {state after : σ}
    {fault : Fault} (h : (x >>= next).run state = (.error fault, after)) :
    x.run state = (.error fault, after) ∨ ∃ value between, x.run state = (.ok value, between) ∧
      (next value).run between = (.error fault, after) := by
  rw [run_bind] at h
  rcases hx : x.run state with ⟨cause | value, between⟩
  · rw [hx] at h
    cases h
    exact .inl rfl
  · rw [hx] at h
    exact .inr ⟨value, between, rfl, h⟩

/-- Whether a computation returns the same from every state. -/
def Returns (x : Effect σ α) (value : α) : Prop :=
  ∀ state, (x.run state).1 = .ok value

theorem Returns.pure (value : α) : Returns (Pure.pure value : Effect σ α) value :=
  fun _ => rfl

theorem Returns.ofExcept {result : Except Fault α} {value : α} (h : result = .ok value) :
    Returns (Effect.ofExcept result : Effect σ α) value := by
  intro state
  rw [run_ofExcept, h]

theorem Returns.bind {x : Effect σ α} {value : α} {next : α → Effect σ β} {result : β}
    (h : x.Returns value) (hnext : (next value).Returns result) : (x >>= next).Returns result := by
  intro state
  rw [run_bind]
  rcases hx : x.run state with ⟨first, between⟩
  have hfirst := h state
  rw [hx] at hfirst
  cases hfirst
  exact hnext between

theorem eq_of_run_pure {value result : α} {state after : σ}
    (h : (pure value : Effect σ α).run state = (.ok result, after)) : result = value := by
  rw [run_pure, Prod.mk.injEq, Except.ok.injEq] at h
  exact h.1.symm

/-- What becomes of a fault that leaves a whole tree. -/
def outermost (fault : Fault) : Fault :=
  if fault.kind == .recursion then .tooDeep else fault

theorem run_boundDepth (x : Effect σ α) (state : σ) :
    x.boundDepth.run state = ((x.run state).1.mapError outermost, (x.run state).2) := by
  rw [boundDepth, mapFault, orElse]
  dsimp only
  rcases x.run state with ⟨fault | value, after⟩ <;> rfl

end Effect

end Formula
