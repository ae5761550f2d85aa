import Formula.Proofs.Function.Registry
import Formula.Proofs.Session.Calculator
import Formula.Session

namespace Formula

variable {σ : Type}

namespace Registry

/-- The registry after a step. -/
def after (registry : Registry σ) : Step σ → Registry σ
  | .clearRegistry => .empty
  | .registerBuiltins => registry.withBuiltins
  | .registerDefinition text definition =>
    match FunctionCategory.ofText? text with
    | some category => registry.register (definition category)
    | none => registry
  | _ => registry

/-- A step keeps what holds of all functions of a registry if it holds of those that it brings. -/
theorem All.after {good : Definition σ → Prop} {registry : Registry σ} {step : Step σ}
    (h : registry.All good) (hbuiltin : ∀ function : Builtin, good function.definition)
    (hstep : ∀ text definition category, step = .registerDefinition text definition →
      good (definition category)) : (registry.after step).All good := by
  unfold Registry.after
  split
  next => exact all_empty
  next => exact h.withBuiltins hbuiltin
  next text definition =>
    split
    next category _ => exact h.register (hstep text definition category rfl)
    next => exact h
  next => exact h

end Registry

namespace Session

section Enter

variable {α : Type} {entries : List (String × α)} {name other : String} {entry : α}

theorem lookup_filter_ne (h : other ≠ name) :
    (entries.filter (·.1 != name)).lookup other = entries.lookup other := by
  induction entries with
  | nil => rfl
  | cons first rest ih =>
    obtain ⟨key, old⟩ := first
    by_cases hkey : key = name
    · subst hkey
      have hother : (other == key) = false := beq_false_of_ne h
      simpa [List.lookup_cons, hother] using ih
    · simp [hkey, List.lookup_cons, ih]

/-- What was entered last under a name is found there. -/
theorem lookup_enter :
    (enter entries name entry).lookup other =
      if other = name then some entry else entries.lookup other := by
  by_cases h : other = name
  · simp [enter, h]
  · have hother : (other == name) = false := beq_false_of_ne h
    rw [enter, List.lookup_cons, hother, if_neg h]
    exact lookup_filter_ne h

end Enter

variable {session : Session σ} {name other : String} {calculator made : Calculator σ}

theorem calculator?_setCalculator
    (h : (session.setCalculator name calculator).calculator? other = some made) :
    session.calculator? other = some made ∨ made = calculator := by
  rw [setCalculator, calculator?, lookup_enter] at h
  split at h
  next =>
    cases h
    exact .inr rfl
  next => exact .inl h

variable [Journal σ]

/-- The session after some steps. -/
def run (session : Session σ) (steps : List (Step σ)) : Session σ :=
  steps.foldl (fun session step => (session.step step).2) session

@[simp] theorem run_nil (session : Session σ) : session.run [] = session := rfl

@[simp] theorem run_cons (session : Session σ) (step : Step σ) (steps : List (Step σ)) :
    session.run (step :: steps) = (session.step step).2.run steps := rfl

/-- The calculators that a step makes. -/
inductive Makes (session : Session σ) : Step σ → Calculator σ → Prop where
  | create {name : String} {source : Option String} {config : Datum} {options : Options}
      {calculator : Calculator σ} :
    Calculator.create source options = .ok calculator →
    Makes session (.create name source config) calculator
  | parse {name : String} {source : Option String} {before calculator : Calculator σ} :
    session.calculator? name = some before → before.parse source = .ok calculator →
    Makes session (.parse name source) calculator
  | evaluate {name : String} {overrides : Store} {before : Calculator σ} :
    session.calculator? name = some before →
    Makes session (.evaluate name overrides)
      (before.evaluate session.registry overrides session.host).2.1
  | optimize {name : String} {before calculator : Calculator σ} {after : σ} :
    session.calculator? name = some before →
    (before.optimize session.registry).run session.host = (.ok calculator, after) →
    Makes session (.optimize name) calculator
  | register {name function : String} {callee : Callee σ} {before : Calculator σ} :
    session.calculator? name = some before →
    Makes session (.register name function callee)
      { before with functions := before.functions.register function callee }
  | setHandler {name : String} {handler : String → Effect σ Value} {before : Calculator σ} :
    session.calculator? name = some before →
    Makes session (.setHandler name handler) { before with missing := handler }
  | setVariable {name variableName : String} {value : Value} {before : Calculator σ} :
    session.calculator? name = some before →
    Makes session (.setVariable name variableName value) (before.setVariable variableName value)
  | deleteVariable {name variableName : String} {before : Calculator σ} :
    session.calculator? name = some before →
    Makes session (.deleteVariable name variableName) (before.deleteVariable variableName)

/-- What a step can make of a session. -/
structure After (session : Session σ) (step : Step σ) (after : Session σ) : Prop where
  calculators : ∀ name calculator, after.calculator? name = some calculator →
    session.calculator? name = some calculator ∨ session.Makes step calculator
  registry : after.registry = session.registry.after step
  programs : after.programs = session.programs ∨ ∃ name program compiled,
    step = .compile name program ∧ after.programs = enter session.programs program compiled

namespace After

variable {step : Step σ}

theorem keep (host : σ) (h : session.registry.after step = session.registry) :
    session.After step { session with host } :=
  ⟨fun _ _ => .inl, h.symm, .inl rfl⟩

theorem make (host : σ) (name : String) (h : session.registry.after step = session.registry)
    (hmakes : session.Makes step made) :
    session.After step ({ session with host }.setCalculator name made) := by
  refine ⟨fun other calculator hfound => ?_, h.symm, .inl rfl⟩
  rcases calculator?_setCalculator hfound with hfound | rfl
  · exact .inl hfound
  · exact .inr hmakes

theorem enterRegistry {registry : Registry σ} (h : registry = session.registry.after step) :
    session.After step { session with registry } :=
  ⟨fun _ _ => .inl, h, .inl rfl⟩

theorem inspect {look : Calculator σ → Except Fault (Reply σ)}
    (h : session.registry.after step = session.registry) :
    session.After step (session.inspect name look).2 := by
  unfold Session.inspect
  split <;> exact .keep session.host h

theorem inspectProgram {look : Program σ → Reply σ}
    (h : session.registry.after step = session.registry) :
    session.After step (session.inspectProgram name look).2 := by
  unfold Session.inspectProgram
  split <;> exact .keep session.host h

theorem update {change : Calculator σ → Effect σ (Calculator σ)}
    (h : session.registry.after step = session.registry)
    (hmakes : ∀ before calculator after, session.calculator? name = some before →
      (change before).run session.host = (.ok calculator, after) →
        session.Makes step calculator) :
    session.After step (session.update name change).2 := by
  unfold Session.update
  split
  next => exact .keep session.host h
  next before hbefore =>
    rcases hrun : (change before).run session.host with ⟨fault | calculator, after⟩
    · exact .keep after h
    · exact .make after name h (hmakes before calculator after hbefore hrun)

end After

/-- A step makes no calculator but its own, changes the registry only if it is about it, and enters
no program but a compiled one. -/
theorem step_after (session : Session σ) (step : Step σ) :
    session.After step (session.step step).2 := by
  cases step with
  | create name source config =>
    unfold Session.step
    dsimp only
    split
    next => exact .keep session.host rfl
    next =>
      split
      next => exact .keep session.host rfl
      next hcreate => exact .make session.host name rfl (.create hcreate)
  | parse name source =>
    unfold Session.step
    dsimp only
    split
    next => exact .keep session.host rfl
    next before hbefore =>
      split
      next => exact .keep session.host rfl
      next hparse => exact .make session.host name rfl (.parse hbefore hparse)
  | evaluate name overrides =>
    unfold Session.step
    dsimp only
    split
    next => exact .keep session.host rfl
    next before hbefore => exact .make _ name rfl (.evaluate hbefore)
  | optimize name =>
    exact .update rfl fun before _ _ hbefore hrun => .optimize hbefore hrun
  | compile name program =>
    unfold Session.step
    dsimp only
    split
    next => exact .keep session.host rfl
    next =>
      split
      next => exact .keep _ rfl
      next compiled _ => exact ⟨fun _ _ => .inl, rfl, .inr ⟨name, program, compiled, rfl, rfl⟩⟩
  | call program overrides =>
    unfold Session.step
    dsimp only
    split
    next => exact .keep session.host rfl
    next => exact .keep _ rfl
  | programVariables _ | programLiteral _ =>
    rw [Session.step]
    exact .inspectProgram rfl
  | register name function callee =>
    refine .update rfl fun before _ _ hbefore hrun => ?_
    rw [Calculator.eq_of_register hrun]
    exact .register hbefore
  | setHandler name handler =>
    refine .update rfl fun before _ _ hbefore hrun => ?_
    rw [Effect.eq_of_run_pure hrun]
    exact .setHandler hbefore
  | setVariable name variableName value =>
    refine .update rfl fun before _ _ hbefore hrun => ?_
    rw [Effect.eq_of_run_pure hrun]
    exact .setVariable hbefore
  | deleteVariable name variableName =>
    refine .update rfl fun before _ _ hbefore hrun => ?_
    rw [Effect.eq_of_run_pure hrun]
    exact .deleteVariable hbefore
  | listVariables _ | countNodes _ | literal _ | options _ | functionNames _ | foldableNames _
  | resolves _ _ =>
    rw [Session.step]
    exact .inspect rfl
  | clearRegistry | registerBuiltins =>
    rw [Session.step]
    exact .enterRegistry rfl
  | registerDefinition text definition =>
    unfold Session.step Session.category
    dsimp only
    cases hcategory : FunctionCategory.ofText? text with
    | none => exact .keep session.host (by rw [Registry.after, hcategory])
    | some category => exact .enterRegistry (by rw [Registry.after, hcategory])
  | listCategory text =>
    unfold Session.step
    dsimp only
    split <;> exact .keep session.host rfl
  | isRegistered _ | listRegistry =>
    rw [Session.step]
    exact .keep session.host rfl

end Session

end Formula
