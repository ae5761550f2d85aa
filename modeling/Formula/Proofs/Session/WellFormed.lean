import Formula.Proofs.Eval.Malformed
import Formula.Proofs.Session.Steps

namespace Formula

variable {σ : Type}

/-- Whether a step enters no function of the caller's into the registry. -/
def Step.KeepsBuiltins : Step σ → Prop
  | .registerDefinition .. => False
  | _ => True

/-- Whether what a calculator holds, if anything, is a program. -/
def Calculator.HoldsProgram (calculator : Calculator σ) : Prop :=
  ∀ tree, calculator.tree = some tree → tree.IsProgram

/-- Whether only built-in functions are registered and all calculators hold programs. -/
structure Session.WellFormed (session : Session σ) : Prop where
  registry : session.registry.All Definition.IsBuiltin
  calculators : ∀ name calculator, session.calculator? name = some calculator →
    calculator.HoldsProgram

namespace Calculator

variable {calculator made : Calculator σ} {source : Option String}

theorem holdsProgram_of_parse (h : calculator.parse source = .ok made) : made.HoldsProgram := by
  obtain ⟨tree, htree, rfl⟩ := exists_of_parse h
  rintro _ ⟨⟩
  exact isProgram_of_parse htree

theorem holdsProgram_of_create {options : Options} (h : create source options = .ok made) :
    made.HoldsProgram := by
  rcases eq_of_create h with rfl | hparse
  · exact nofun
  · exact holdsProgram_of_parse hparse

variable [Journal σ] {registry : Registry σ}

theorem holdsProgram_of_optimize {host after : σ} (hregistry : registry.All Definition.IsBuiltin)
    (holds : calculator.HoldsProgram)
    (h : (calculator.optimize registry).run host = (.ok made, after)) : made.HoldsProgram := by
  obtain ⟨tree, folded, htree, yields, rfl⟩ := exists_of_optimize h
  rintro _ ⟨⟩
  exact yields.isProgram (FunctionTable.foldable_eq_builtins hregistry calculator.functions)
    (calculator.functions.builtins_isClosed registry) (holds tree htree)

end Calculator

namespace Session

variable [Journal σ] {session : Session σ} {step : Step σ} {made : Calculator σ}

theorem WellFormed.of_makes (h : session.WellFormed) (hmakes : session.Makes step made) :
    made.HoldsProgram := by
  cases hmakes with
  | create hcreate => exact Calculator.holdsProgram_of_create hcreate
  | parse _ hparse => exact Calculator.holdsProgram_of_parse hparse
  | @evaluate name overrides before hbefore =>
    have hholds := h.calculators name before hbefore
    obtain ⟨store, heq⟩ := before.exists_of_evaluate session.registry overrides session.host
    rw [heq]
    exact hholds
  | optimize hbefore hrun =>
    exact Calculator.holdsProgram_of_optimize h.registry (h.calculators _ _ hbefore) hrun
  | register hbefore | setHandler hbefore | setVariable hbefore | deleteVariable hbefore =>
    have hholds := h.calculators _ _ hbefore
    exact hholds

theorem WellFormed.after_step (h : session.WellFormed) (hstep : step.KeepsBuiltins) :
    (session.step step).2.WellFormed := by
  have hafter := step_after session step
  refine ⟨?_, fun name calculator found => ?_⟩
  · rw [hafter.registry]
    refine h.registry.after (fun function => ⟨function, rfl⟩) ?_
    rintro text definition category rfl
    exact hstep.elim
  · rcases hafter.calculators name calculator found with found | hmakes
    · exact h.calculators name calculator found
    · exact h.of_makes hmakes

theorem WellFormed.after_run {steps : List (Step σ)} (h : session.WellFormed)
    (hsteps : ∀ step ∈ steps, step.KeepsBuiltins) : (session.run steps).WellFormed := by
  induction steps generalizing session with
  | nil => exact h
  | cons step steps ih =>
    obtain ⟨hstep, hsteps⟩ := List.forall_mem_cons.mp hsteps
    exact ih (h.after_step hstep) hsteps

omit [Journal σ] in
theorem standard_wellFormed (host : σ) : (standard host).WellFormed :=
  ⟨Registry.all_standard fun function => ⟨function, rfl⟩, fun _ _ => nofun⟩

end Session

variable [Journal σ]

/-- Whatever steps a session takes over the built-in functions, what its calculators hold are
programs. Evaluating, compiling and calling them anywhere finds no fault with the parts of a node:
where such a fault comes up a function or the handler has raised it. -/
theorem isProgram_of_run (host : σ) {steps : List (Step σ)}
    (builtin : ∀ step ∈ steps, step.KeepsBuiltins) {name : String} {calculator : Calculator σ}
    (found : ((Session.standard host).run steps).calculator? name = some calculator) {tree : Expr}
    (holds : calculator.tree = some tree) :
    tree.IsProgram ∧
      (∀ {τ : Type} (env : Environment τ) room frame fault,
        ((evaluate env room tree).run frame).1 = .error fault → fault.isMalformed →
          env.Raises fault) ∧
      (∀ {τ : Type} (snapshot : Snapshot τ) room fault,
        compile snapshot room tree = .error fault → fault = .tooDeep ∨
          ∃ function, snapshot.functions function = none ∧ fault = .unknownFunction function) ∧
      ∀ {τ : Type} (snapshot : Snapshot τ) room program, compile snapshot room tree = .ok program →
        ∀ overrides host fault, (program.runFrame overrides host).1 = .error fault →
          fault.isMalformed → (snapshot.environment overrides).Raises fault := by
  have wellFormed := (Session.standard_wellFormed host).after_run builtin
  have program := wellFormed.calculators name calculator found tree holds
  refine ⟨program, fun env room frame fault => raises_of_evaluate program.inShape,
    fun snapshot room fault => compile_error program.inShape, ?_⟩
  intro τ snapshot room compiled hcompile overrides host fault
  exact raises_of_runFrame program.inShape hcompile

/-- Steps that fail, hide a built-in function and fold what another one has become. -/
def reshapingSteps : List (Step Unit) :=
  [.create "curve" (some "x = 2 - 3 * 4; -y ^ 0 % 7 + floor(4) + 5 + z") .null,
    .optimize "curve", .parse "curve" (some "1 +"),
    .register "curve" "floor" (.pureFunction fun _ => .ok (.int 1)), .evaluate "curve" ∅,
    .setHandler "curve" fun _ => return .int 3, .evaluate "curve" ∅, .clearRegistry,
    .compile "curve" "plotted", .registerBuiltins, .optimize "curve"]

theorem isProgram_of_run_reshaping :
    (∀ step ∈ reshapingSteps, step.KeepsBuiltins) ∧
      ∃ calculator tree,
        ((Session.standard ()).run reshapingSteps).calculator? "curve" = some calculator ∧
        calculator.tree = some tree ∧ tree.IsProgram ∧
        ∀ (env : Environment Unit) room frame fault,
          ((evaluate env room tree).run frame).1 = .error fault → fault.isMalformed →
            env.Raises fault := by
  have builtin : ∀ step ∈ reshapingSteps, step.KeepsBuiltins := by
    simp [reshapingSteps, Step.KeepsBuiltins]
  have hany : (((Session.standard ()).run reshapingSteps).calculator? "curve").any
      (·.tree.isSome) = true := by
    decide +kernel
  obtain ⟨calculator, found, hsome⟩ := (Option.any_eq_true _ _).mp hany
  obtain ⟨tree, holds⟩ := Option.isSome_iff_exists.mp hsome
  obtain ⟨program, evaluation, -⟩ := isProgram_of_run () builtin found holds
  exact ⟨builtin, calculator, tree, found, holds, program, evaluation⟩

end Formula
