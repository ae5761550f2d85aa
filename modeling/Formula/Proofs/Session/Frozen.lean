import Formula.Proofs.Eval.Steady
import Formula.Proofs.Program.Compiled
import Formula.Proofs.Session.Steps

namespace Formula

variable {σ : Type}

/-- Whether the functions and handlers that a step brings have the same results from every state. -/
def Step.IsSteady : Step σ → Prop
  | .register _ _ callee => callee.Steady
  | .setHandler _ handler => ∀ name, (handler name).Steady
  | .registerDefinition _ definition => ∀ category, (definition category).callee.Steady
  | _ => True

/-- Whether the functions and the handler of a calculator have the same results from every state. -/
structure Calculator.Steady (calculator : Calculator σ) : Prop where
  own : ∀ name callee, calculator.functions.own.lookup name = some callee → callee.Steady
  missing : ∀ name, (calculator.missing name).Steady

structure Session.Steady (session : Session σ) : Prop where
  registry : session.registry.All (·.callee.Steady)
  calculators : ∀ name calculator, session.calculator? name = some calculator → calculator.Steady

namespace Calculator

variable {calculator made : Calculator σ}

theorem steady_empty (options : Options) : (empty options : Calculator σ).Steady :=
  ⟨fun _ _ => nofun, fun _ _ _ => rfl⟩

theorem Steady.register (h : calculator.Steady) (function : String) {callee : Callee σ}
    (hcallee : callee.Steady) :
    Steady { calculator with functions := calculator.functions.register function callee } := by
  refine ⟨fun name found hfound => ?_, h.missing⟩
  have hlookup : (Session.enter calculator.functions.own function callee).lookup name =
      some found := hfound
  rw [Session.lookup_enter] at hlookup
  split at hlookup
  next =>
    cases hlookup
    exact hcallee
  next => exact h.own name found hlookup

variable [Journal σ] {registry : Registry σ}

/-- A calculator is evaluated against what a compiled formula keeps of it; noting down a missing
variable makes no difference. -/
theorem Steady.environment_alike (h : calculator.Steady)
    (hregistry : registry.All (·.callee.Steady)) (overrides : Store) :
    ((calculator.snapshot registry).environment overrides).Alike
      (calculator.environment registry overrides) where
  overrides := rfl
  functions := rfl
  steady name callee found := by
    have hresolve : (calculator.functions.own.lookup name).or (registry.callee? name) =
        some callee := found
    rcases Option.or_eq_some_iff.mp hresolve with hown | ⟨-, hfound⟩
    · exact h.own name callee hown
    · obtain ⟨definition, hsteady, -, rfl⟩ := hregistry.of_callee? hfound
      exact hsteady
  missing name host host' := h.missing name host (Journal.write (.notFound name) host')

end Calculator

namespace Session

variable [Journal σ] {session : Session σ} {made : Calculator σ} {name program : String}
  {overrides : Store}

theorem Steady.of_makes {step : Step σ} (h : session.Steady) (hstep : step.IsSteady)
    (hmakes : session.Makes step made) : made.Steady := by
  have hparse : ∀ {before after : Calculator σ} {source}, before.Steady →
      before.parse source = .ok after → after.Steady := by
    intro before after source hbefore hafter
    obtain ⟨tree, -, rfl⟩ := Calculator.exists_of_parse hafter
    exact ⟨hbefore.own, hbefore.missing⟩
  cases hmakes with
  | create hcreate =>
    rcases Calculator.eq_of_create hcreate with rfl | hafter
    · exact Calculator.steady_empty _
    · exact hparse (Calculator.steady_empty _) hafter
  | parse hbefore hafter => exact hparse (h.calculators _ _ hbefore) hafter
  | @evaluate name overrides before hbefore =>
    have hsteady := h.calculators name before hbefore
    obtain ⟨store, heq⟩ := before.exists_of_evaluate session.registry overrides session.host
    rw [heq]
    exact ⟨hsteady.own, hsteady.missing⟩
  | optimize hbefore hrun =>
    have hsteady := h.calculators _ _ hbefore
    obtain ⟨_, _, -, -, rfl⟩ := Calculator.exists_of_optimize hrun
    exact ⟨hsteady.own, hsteady.missing⟩
  | register hbefore => exact (h.calculators _ _ hbefore).register _ hstep
  | setHandler hbefore => exact ⟨(h.calculators _ _ hbefore).own, hstep⟩
  | setVariable hbefore | deleteVariable hbefore =>
    have hsteady := h.calculators _ _ hbefore
    exact ⟨hsteady.own, hsteady.missing⟩

theorem Steady.after_step {step : Step σ} (h : session.Steady) (hstep : step.IsSteady) :
    (session.step step).2.Steady := by
  have hafter := step_after session step
  refine ⟨?_, fun name calculator found => ?_⟩
  · rw [hafter.registry]
    refine h.registry.after (fun function => Callee.steady_pureFunction function.run) ?_
    rintro text definition category rfl
    exact hstep category
  · rcases hafter.calculators name calculator found with found | hmakes
    · exact h.calculators name calculator found
    · exact h.of_makes hstep hmakes

theorem Steady.after_run {steps : List (Step σ)} (h : session.Steady)
    (hsteps : ∀ step ∈ steps, step.IsSteady) : (session.run steps).Steady := by
  induction steps generalizing session with
  | nil => exact h
  | cons step steps ih =>
    obtain ⟨hstep, hsteps⟩ := List.forall_mem_cons.mp hsteps
    exact ih (h.after_step hstep) hsteps

omit [Journal σ] in
theorem standard_steady (host : σ) : (standard host).Steady :=
  ⟨Registry.all_standard fun function => Callee.steady_pureFunction function.run, fun _ _ => nofun⟩

/-- A program stays what it is as long as nothing else is compiled under its name. -/
theorem lookup_programs_run {steps : List (Step σ)}
    (h : ∀ step ∈ steps, ∀ other, step ≠ .compile other program) :
    (session.run steps).programs.lookup program = session.programs.lookup program := by
  induction steps generalizing session with
  | nil => rfl
  | cons step steps ih =>
    obtain ⟨hstep, hsteps⟩ := List.forall_mem_cons.mp h
    rw [run_cons, ih hsteps]
    rcases (step_after session step).programs with heq | ⟨name, entered, compiled, rfl, heq⟩
    · rw [heq]
    · have hne : program ≠ entered := by
        rintro rfl
        exact hstep name rfl
      rw [heq, lookup_enter, if_neg hne]

theorem step_compile {calculator : Calculator σ}
    (found : session.calculator? name = some calculator) :
    session.step (.compile name program) =
      match (calculator.compile session.registry).run session.host with
      | (.error fault, host) => (.error (.fault fault), { session with host })
      | (.ok compiled, host) =>
        (.ok .done,
          { session with host, programs := enter session.programs program compiled }) := by
  rw [Session.step]
  split
  next hnone => cases hnone.symm.trans found
  next other hother =>
    cases hother.symm.trans found
    rcases (calculator.compile session.registry).run session.host with ⟨fault | compiled, host⟩ <;>
      rfl

theorem exists_of_step_compile {reply : Reply σ}
    (h : (session.step (.compile name program)).1 = .ok reply) :
    ∃ calculator tree compiled, session.calculator? name = some calculator ∧
      calculator.tree = some tree ∧
      Formula.compile (calculator.snapshot session.registry) .standard tree = .ok compiled ∧
      (session.step (.compile name program)).2.programs.lookup program = some compiled := by
  cases hcalculator : session.calculator? name with
  | none =>
    unfold Session.step at h
    dsimp only at h
    rw [hcalculator] at h
    cases h
  | some calculator =>
    rw [step_compile hcalculator] at h ⊢
    rcases hrun : (calculator.compile session.registry).run session.host with
      ⟨fault | compiled, after⟩
    · rw [hrun] at h
      cases h
    · obtain ⟨tree, htree, hcompile⟩ := Calculator.exists_of_compile hrun
      refine ⟨calculator, tree, compiled, rfl, htree, hcompile, ?_⟩
      rw [lookup_enter, if_pos rfl]

/-- A call leaves everything but the state of the host as it is. -/
theorem step_call_snd (session : Session σ) (program : String) (overrides : Store) :
    ∃ host, (session.step (.call program overrides)).2 = { session with host } := by
  unfold Session.step
  dsimp only
  split
  next => exact ⟨session.host, rfl⟩
  next => exact ⟨_, rfl⟩

theorem step_call_fst {compiled : Program σ}
    (found : session.programs.lookup program = some compiled) :
    (session.step (.call program overrides)).1 =
      ((compiled.runFrame overrides session.host).1.map .value).mapError .fault := by
  unfold Session.step
  dsimp only
  rw [found]
  rfl

theorem step_evaluate_fst {calculator : Calculator σ}
    (found : session.calculator? name = some calculator) :
    (session.step (.evaluate name overrides)).1 =
      ((calculator.evaluate session.registry overrides session.host).1.map .value).mapError
        .fault := by
  unfold Session.step
  dsimp only
  rw [found]

end Session

variable [Journal σ]

/-- However a calculator came about, once it is compiled every later call of the compiled formula
comes to what evaluating the calculator came to then, whatever other steps are taken in between; and
a call changes no calculator, no function and no program. -/
theorem step_call_eq_step_evaluate (host : σ) {before between : List (Step σ)}
    (steady : ∀ step ∈ before, step.IsSteady) {name program : String} {session : Session σ}
    (reached : (Session.standard host).run before = session)
    (compiles : ∃ reply, (session.step (.compile name program)).1 = .ok reply)
    (kept : ∀ step ∈ between, ∀ other, step ≠ .compile other program) {later : Session σ}
    (follows : (session.step (.compile name program)).2.run between = later) (overrides : Store) :
    (later.step (.call program overrides)).1 = (session.step (.evaluate name overrides)).1 ∧
      ∃ host, (later.step (.call program overrides)).2 = { later with host } := by
  obtain ⟨reply, hreply⟩ := compiles
  obtain ⟨calculator, tree, compiled, hcalculator, htree, hcompile, hprogram⟩ :=
    Session.exists_of_step_compile hreply
  have hsession : session.Steady := reached ▸ (Session.standard_steady host).after_run steady
  have hlater : later.programs.lookup program = some compiled := by
    rw [← follows, Session.lookup_programs_run kept, hprogram]
  have halike := (hsession.calculators name calculator hcalculator).environment_alike
    hsession.registry overrides
  have hresult := fst_evaluate_eq halike .standard tree
    (calculator.snapshot session.registry).store later.host session.host
  refine ⟨?_, Session.step_call_snd later program overrides⟩
  rw [Session.step_call_fst hlater, Session.step_evaluate_fst hcalculator,
    Calculator.fst_evaluate htree, runFrame_of_compile hcompile, hresult]
  rfl

/-- A function that returns its first argument, or a number where it has none. -/
def firstOr (n : Int) : Callee Unit :=
  .pureFunction fun arguments => .ok (arguments.headD (.int n))

/-- A calculator with a function over a built-in one, a variable and a handler of its own. -/
def preparation : List (Step Unit) :=
  [.create "price" (some "total = total + floor(rate); total * floor()") .null,
    .setVariable "price" "total" (.int 10), .register "price" "floor" (firstOr 2),
    .setHandler "price" fun _ => return .int 5]

/-- Steps that change all of it and compile something else. -/
def upheaval : List (Step Unit) :=
  [.call "invoice" ∅, .setVariable "price" "total" (.int 99), .register "price" "floor" (firstOr 3),
    .setHandler "price" undefinedVariable, .evaluate "price" ∅, .deleteVariable "price" "total",
    .clearRegistry, .parse "price" (some "floor(rate)"), .optimize "price",
    .compile "price" "reminder", .call "reminder" ∅]

theorem step_call_eq_step_evaluate_upheaval :
    (∀ step ∈ preparation, step.IsSteady) ∧
      (∀ step ∈ upheaval, ∀ other, step ≠ .compile other "invoice") ∧
      ∃ session later : Session Unit, (Session.standard ()).run preparation = session ∧
        (∃ reply, (session.step (.compile "price" "invoice")).1 = .ok reply) ∧
        (session.step (.compile "price" "invoice")).2.run upheaval = later ∧
        ∀ overrides, (later.step (.call "invoice" overrides)).1 =
          (session.step (.evaluate "price" overrides)).1 := by
  have steady : ∀ step ∈ preparation, step.IsSteady := by
    simp only [preparation, List.forall_mem_cons, Step.IsSteady]
    exact ⟨trivial, trivial, Callee.steady_pureFunction _, fun _ => Effect.steady_pure _,
      List.forall_mem_nil _⟩
  have kept : ∀ step ∈ upheaval, ∀ other, step ≠ .compile other "invoice" := by
    simp [upheaval]
  have compiles : ((((Session.standard ()).run preparation).step
      (.compile "price" "invoice")).1.toOption.any fun _ => true) = true := by
    decide +kernel
  obtain ⟨reply, hreply, -⟩ := exists_ok_of_any compiles
  refine ⟨steady, kept, _, _, rfl, ⟨reply, hreply⟩, rfl, fun overrides => ?_⟩
  exact (step_call_eq_step_evaluate () steady rfl ⟨reply, hreply⟩ kept rfl overrides).1

end Formula
