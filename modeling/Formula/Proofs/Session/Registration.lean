import Formula.Proofs.Fold.Recorded
import Formula.Proofs.Session.Steps

namespace Formula

variable {σ : Type}

/-- A function that is registered for a calculator of a session. -/
structure Registration (σ : Type) where
  calculator : String
  name : String
  callee : Callee σ

namespace Registration

def step (registration : Registration σ) : Step σ :=
  .register registration.calculator registration.name registration.callee

/-- The functions of the calculator of the given key after a registration. What cannot be called is
refused. -/
def applyTo (key : String) (functions : FunctionTable σ) (registration : Registration σ) :
    FunctionTable σ :=
  match registration.callee with
  | .inert => functions
  | .function run =>
    if key = registration.calculator then functions.register registration.name (.function run)
    else functions

/-- Whether a registration gives a calculator a function of its own of some name. -/
def Gives (registration : Registration σ) (key name : String) : Prop :=
  key = registration.calculator ∧ name = registration.name ∧ registration.callee ≠ .inert

theorem applyTo_of_ne {key : String} {registration : Registration σ}
    (h : key ≠ registration.calculator) (functions : FunctionTable σ) :
    registration.applyTo key functions = functions := by
  unfold applyTo
  split
  next => rfl
  next => rw [if_neg h]

end Registration

namespace FunctionTable

theorem owns_register (functions : FunctionTable σ) (name other : String) (callee : Callee σ) :
    (functions.register name callee).owns other = true ↔
      other = name ∨ functions.owns other = true := by
  have hlookup : (functions.register name callee).own.lookup other =
      if other = name then some callee else functions.own.lookup other := Session.lookup_enter
  rw [owns, owns, hlookup]
  split
  next h => simp [h]
  next h => simp [h]

theorem owns_applyTo (functions : FunctionTable σ) (registration : Registration σ)
    (key name : String) :
    (registration.applyTo key functions).owns name = true ↔
      functions.owns name = true ∨ registration.Gives key name := by
  obtain ⟨calculator, function, callee⟩ := registration
  cases callee with
  | inert => simp [Registration.applyTo, Registration.Gives]
  | function run =>
    rw [Registration.applyTo]
    dsimp only
    split
    next h => simp [owns_register, Registration.Gives, h, or_comm]
    next h => simp [Registration.Gives, h]

/-- A calculator owns what it owned and what was registered for it. -/
theorem owns_foldl_applyTo (registrations : List (Registration σ)) (functions : FunctionTable σ)
    (key name : String) :
    (registrations.foldl (Registration.applyTo key) functions).owns name = true ↔
      functions.owns name = true ∨ ∃ registration ∈ registrations, registration.Gives key name := by
  induction registrations generalizing functions with
  | nil => simp
  | cons first rest ih =>
    rw [List.foldl_cons, ih, owns_applyTo, List.exists_mem_cons_iff, or_assoc]

end FunctionTable

/-- How the functions that folding may call lie within the registered ones and those that evaluation
and compiled formulas call. -/
structure Calculator.FoldsWithin (calculator : Calculator σ) (registry : Registry σ) : Prop where
  names : ∀ name, name ∈ calculator.functions.foldableNames registry ↔
    name ∈ registry.names ∧ calculator.functions.owns name = false
  foldable : ∀ name callee, calculator.functions.foldable registry name = some callee ↔
    name ∈ calculator.functions.foldableNames registry ∧ registry.callee? name = some callee
  same : ∀ name ∈ calculator.functions.foldableNames registry,
    calculator.functions.resolve registry name = calculator.functions.foldable registry name ∧
      (calculator.snapshot registry).functions name = calculator.functions.foldable registry name

theorem Calculator.foldsWithin (calculator : Calculator σ) (registry : Registry σ) :
    calculator.FoldsWithin registry := by
  refine ⟨fun name => FunctionTable.mem_foldableNames_iff, fun name callee => ?_,
    fun name member => ?_⟩
  · rw [FunctionTable.foldable_eq_some_iff, FunctionTable.mem_foldableNames_iff,
      Registry.mem_names_iff, Registry.contains_eq_isSome]
    constructor
    · rintro ⟨howns, hcallee⟩
      exact ⟨⟨by rw [hcallee]; rfl, howns⟩, hcallee⟩
    · rintro ⟨⟨-, howns⟩, hcallee⟩
      exact ⟨howns, hcallee⟩
  · obtain ⟨-, howns⟩ := FunctionTable.mem_foldableNames_iff.mp member
    have hresolve : calculator.functions.resolve registry name =
        calculator.functions.foldable registry name := by
      rw [FunctionTable.resolve_of_not_owns howns, FunctionTable.foldable, howns]
      rfl
    exact ⟨hresolve, hresolve⟩

namespace Session

variable [Journal σ] {session : Session σ}

/-- The functions that evaluation and folding see in a calculator. -/
def views (session : Session σ) (key : String) :
    Option ((String → Option (Callee σ)) × (String → Option (Callee σ))) :=
  (session.calculator? key).map fun calculator =>
    (calculator.functions.resolve session.registry, calculator.functions.foldable session.registry)

theorem registry_step_registration (session : Session σ) (registration : Registration σ) :
    (session.step registration.step).2.registry = session.registry :=
  (session.step_after registration.step).registry

/-- A registration changes the functions of one calculator. -/
theorem calculator?_step_registration (session : Session σ) (registration : Registration σ)
    (key : String) :
    (session.step registration.step).2.calculator? key =
      (session.calculator? key).map fun calculator =>
        { calculator with functions := registration.applyTo key calculator.functions } := by
  obtain ⟨registered, name, callee⟩ := registration
  cases callee with
  | inert =>
    simp only [Registration.step, step, update, Registration.applyTo, Option.map_id']
    split <;> rfl
  | function run =>
    obtain ⟨after, hrun⟩ := Calculator.exists_run_register session.registry name run session.host
    simp only [Registration.step, step, update, Registration.applyTo]
    by_cases hkey : key = registered
    · subst hkey
      cases hfound : session.calculator? key with
      | none => exact hfound
      | some before =>
        simp only [hrun, setCalculator, calculator?, lookup_enter, if_pos]
        rfl
    · cases hfound : session.calculator? registered with
      | none => simp [hkey]
      | some before =>
        simp only [hrun, setCalculator, calculator?, lookup_enter, if_neg hkey, Option.map_id']

theorem registry_run_registrations (session : Session σ) (registrations : List (Registration σ)) :
    (session.run (registrations.map Registration.step)).registry = session.registry := by
  induction registrations generalizing session with
  | nil => rfl
  | cons first rest ih => rw [List.map_cons, run_cons, ih, registry_step_registration]

theorem calculator?_run_registrations (session : Session σ)
    (registrations : List (Registration σ)) (key : String) :
    (session.run (registrations.map Registration.step)).calculator? key =
      (session.calculator? key).map fun calculator =>
        { calculator with
          functions := registrations.foldl (Registration.applyTo key) calculator.functions } := by
  induction registrations generalizing session with
  | nil => simp
  | cons first rest ih =>
    rw [List.map_cons, run_cons, ih, calculator?_step_registration, Option.map_map]
    rfl

/-- A registration for one calculator leaves the functions that others see. -/
theorem views_step_registration (session : Session σ) {registration : Registration σ}
    {key : String} (h : key ≠ registration.calculator) :
    (session.step registration.step).2.views key = session.views key := by
  rw [views, views, calculator?_step_registration, registry_step_registration, Option.map_map]
  simp only [Function.comp_def, Registration.applyTo_of_ne h]

end Session

namespace Calculator

variable [Journal σ] {calculator : Calculator σ} {registry : Registry σ}

theorem folding_recorded (calculator : Calculator σ) (registry : Registry σ) :
    calculator.recorded.folding registry.recorded = (calculator.folding registry).recorded := by
  rw [folding, folding, Folding.recorded]
  congr
  exact funext fun name => FunctionTable.foldable_recorded calculator.functions registry name

/-- Optimizing with a record of all calls does the same and calls what folding may use. -/
theorem records_optimize (calculator : Calculator σ) (registry : Registry σ) :
    Records (calculator.folding registry).Calls (recorded <$> calculator.optimize registry)
      (calculator.recorded.optimize registry.recorded) := by
  simp only [optimize, map_bind, map_pure, folding_recorded]
  refine (Records.ofExcept _).bind fun tree => (Records.ofExcept _).bind fun before => ?_
  refine (Formula.records_optimize tree .standard).bind fun folded => ?_
  exact (Records.ofExcept _).bind fun after => (Records.onHost _).bind fun _ => .pure _

/-- Optimizing reads neither variables nor the handler. -/
theorem optimize_with (calculator : Calculator σ) (registry : Registry σ) (store : Store)
    (missing : String → Effect σ Value) :
    { calculator with store, missing }.optimize registry =
      (fun made : Calculator σ => { made with store, missing }) <$>
        calculator.optimize registry := by
  simp only [optimize, map_bind, map_pure]
  rfl

/-- What optimizing a calculator may reach. -/
structure OptimizesWithin (calculator : Calculator σ) (registry : Registry σ) : Prop where
  /-- With functions and a handler that record their calls it does the same, and it calls registered
  functions alone, each under a name under which evaluation finds it. -/
  calls : ∀ host events, ∃ calls,
    (calculator.recorded.optimize registry.recorded).run ⟨host, events⟩ =
      (((calculator.optimize registry).run host).1.map recorded,
        ⟨((calculator.optimize registry).run host).2, events ++ calls⟩) ∧
    ∀ event ∈ calls, ∃ name callee arguments, event = .registered name callee arguments ∧
      calculator.functions.owns name = false ∧
      calculator.functions.resolve registry name = some callee
  /-- With other variables and another handler it does the same. -/
  others : ∀ store missing host,
    ({ calculator with store, missing }.optimize registry).run host =
      (((calculator.optimize registry).run host).1.map fun made => { made with store, missing },
        ((calculator.optimize registry).run host).2)

theorem optimizesWithin (calculator : Calculator σ) (registry : Registry σ) :
    calculator.OptimizesWithin registry where
  calls host events := by
    obtain ⟨calls, hcalls, hrun⟩ := records_optimize calculator registry host events
    rw [Effect.run_map] at hrun
    refine ⟨calls, hrun, fun event member => ?_⟩
    obtain ⟨name, callee, arguments, hcallee, rfl⟩ := hcalls event member
    exact ⟨name, callee, arguments, rfl, (FunctionTable.foldable_eq_some_iff.mp hcallee).1,
      FunctionTable.resolve_of_foldable hcallee⟩
  others store missing host := by rw [optimize_with, Effect.run_map]

end Calculator

/-- After any registrations for any calculators each of them has the functions of its own that were
registered for it, folding may call the registered ones that these do not hide, and whatever formula
it holds, optimizing that calls nothing else. One more registration changes what is seen by no other
calculator. -/
theorem optimize_within_registered [Journal σ] (start : Session σ)
    (registrations : List (Registration σ)) :
    let session := start.run (registrations.map Registration.step)
    session.registry = start.registry ∧
    (∀ registration : Registration σ, ∀ key, key ≠ registration.calculator →
      (session.step registration.step).2.views key = session.views key) ∧
    ∀ key calculator, session.calculator? key = some calculator →
      (∃ before, start.calculator? key = some before ∧ ∀ name,
        calculator.functions.owns name = true ↔ before.functions.owns name = true ∨
          ∃ registration ∈ registrations, registration.Gives key name) ∧
      calculator.FoldsWithin session.registry ∧
      ∀ tree, { calculator with tree }.OptimizesWithin session.registry := by
  intro session
  refine ⟨Session.registry_run_registrations start registrations,
    fun registration key h => Session.views_step_registration session h,
    fun key calculator found => ⟨?_, calculator.foldsWithin session.registry,
      fun tree => Calculator.optimizesWithin { calculator with tree } session.registry⟩⟩
  rw [Session.calculator?_run_registrations, Option.map_eq_some_iff] at found
  obtain ⟨before, hbefore, rfl⟩ := found
  exact ⟨before, hbefore, fun name =>
    FunctionTable.owns_foldl_applyTo registrations before.functions key name⟩

/-- Two calculators with the same formula. -/
def sharingStart : Session Unit :=
  (Session.standard ()).run
    [.create "first" (some "floor(2.5) + theta(1) * x") .null,
      .create "second" (some "floor(2.5) + theta(1) * x") .null]

def lastArgument : Callee Unit :=
  .function fun arguments => pure (arguments.getLastD .none)

theorem optimize_within_registered_sharing :
    let session := sharingStart.run
      ([⟨"first", "floor", lastArgument⟩, ⟨"second", "theta", lastArgument⟩].map Registration.step)
    (session.step (Registration.step ⟨"second", "floor", lastArgument⟩)).2.views "first" =
        session.views "first" ∧
      ∃ calculator, session.calculator? "first" = some calculator ∧
        calculator.functions.owns "floor" = true ∧ calculator.functions.owns "theta" = false ∧
        calculator.FoldsWithin session.registry ∧ calculator.OptimizesWithin session.registry := by
  intro session
  obtain ⟨-, hviews, hcalculators⟩ := optimize_within_registered sharingStart
    [⟨"first", "floor", lastArgument⟩, ⟨"second", "theta", lastArgument⟩]
  refine ⟨hviews ⟨"second", "floor", lastArgument⟩ "first" (by decide), ?_⟩
  have hfirst : (session.calculator? "first").any (fun calculator =>
      calculator.functions.owns "floor" && !calculator.functions.owns "theta") = true := by
    decide +kernel
  obtain ⟨calculator, found, howns⟩ := (Option.any_eq_true _ _).mp hfirst
  rw [Bool.and_eq_true, Bool.not_eq_true'] at howns
  obtain ⟨-, hfolds, hoptimizes⟩ := hcalculators "first" calculator found
  exact ⟨calculator, found, howns.1, howns.2, hfolds, hoptimizes calculator.tree⟩

end Formula
