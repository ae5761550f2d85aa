import Formula.Proofs.Program.Floats
import Formula.Proofs.Session.Frozen
import Formula.Proofs.Session.Overflow
import Formula.Proofs.Session.WellFormed

namespace Formula

variable {σ : Type}

theorem Meets.run_bind {α β : Type} {x : Effect σ α} {next : α → Effect σ β} {post : α → Prop}
    {later : β → Prop} {fine : Fault → Prop} {state : σ} (h : Meets post fine (x.run state).1)
    (hnext : ∀ value between, post value → Meets later fine ((next value).run between).1) :
    Meets later fine ((x >>= next).run state).1 := by
  rw [Effect.run_bind]
  rcases hrun : x.run state with ⟨fault | value, between⟩
  · rw [hrun] at h
    exact h
  · rw [hrun] at h
    exact hnext value between h

/-- Whether a handler supplies floats or complains. -/
def SuppliesFloats (missing : String → Effect σ Value) : Prop :=
  ∀ name host, Meets Value.IsFloat (·.isEvaluation) ((missing name).run host).1

/-- Whether a call with floats ends with a float or a fault of evaluation. -/
def Program.AmongFloats (program : Program σ) : Prop :=
  ∀ overrides host, overrides.All Value.IsFloat →
    Meets Value.IsFloat (·.isEvaluation) ((program.call overrides).run host).1

/-- Whether a calculator has floats, built-in functions and a parsed or folded formula at most. -/
structure Calculator.AmongFloats (calculator : Calculator σ) : Prop where
  tree : calculator.HoldsProgram
  functions : calculator.functions = .empty
  missing : SuppliesFloats calculator.missing
  store : calculator.store.All Value.IsFloat

structure Session.AmongFloats (session : Session σ) : Prop where
  registry : session.registry = .standard
  calculators : ∀ name calculator, session.calculator? name = some calculator →
    calculator.AmongFloats
  programs : ∀ name program, session.programs.lookup name = some program → program.AmongFloats

/-- Whether a step brings in no values but floats and no functions. -/
def Step.KeepsFloats : Step σ → Prop
  | .evaluate _ overrides | .call _ overrides => overrides.All Value.IsFloat
  | .setVariable _ _ value => value.IsFloat
  | .setHandler _ handler => SuppliesFloats handler
  | .register .. | .clearRegistry | .registerBuiltins | .registerDefinition .. => False
  | _ => True

/-- Whether a trouble is one that the language of formulas reports. -/
def Trouble.IsReported : Trouble → Prop
  | .text _ => True
  | .fault cause => cause.isEvaluation
  | .options _ => False

theorem suppliesFloats_undefinedVariable :
    SuppliesFloats (undefinedVariable : String → Effect σ Value) :=
  fun _ _ => rfl

theorem FunctionTable.resolve_empty (registry : Registry σ) :
    (FunctionTable.empty : FunctionTable σ).resolve registry = registry.callee? := rfl

theorem Store.All.erase {good : Value → Prop} {store : Store} (h : store.All good) (name : String) :
    (store.erase name).All good := by
  intro other value found
  rw [get?, Store.erase] at found
  by_cases hother : other = name
  · subst hother
    have hnone : (store.entries.filter (·.1 != other)).lookup other = none := by
      rw [List.lookup_eq_none_iff]
      intro entry member
      simpa [bne_iff_ne, ne_comm] using (List.mem_filter.mp member).2
    cases hnone.symm.trans found
  · rw [Session.lookup_filter_ne hother] at found
    exact h other value found

namespace Calculator

variable {calculator made : Calculator σ} {source : Option String} {overrides : Store}

theorem amongFloats_empty (options : Options) : (empty options : Calculator σ).AmongFloats :=
  ⟨nofun, rfl, suppliesFloats_undefinedVariable, Store.all_empty⟩

theorem AmongFloats.parse (h : calculator.AmongFloats)
    (hparse : calculator.parse source = .ok made) : made.AmongFloats := by
  have hholds := holdsProgram_of_parse hparse
  obtain ⟨tree, -, rfl⟩ := exists_of_parse hparse
  exact ⟨hholds, h.functions, h.missing, h.store⟩

theorem amongFloats_of_create {options : Options} (h : create source options = .ok made) :
    made.AmongFloats := by
  rcases eq_of_create h with rfl | hparse
  · exact amongFloats_empty options
  · exact (amongFloats_empty options).parse hparse

variable [Journal σ] {host after : σ} {fault : Fault}

theorem AmongFloats.environment_eq (h : calculator.AmongFloats) (overrides : Store) :
    ∃ missing, SuppliesFloats missing ∧ calculator.environment .standard overrides =
      (builtinSnapshot calculator.store missing).environment overrides := by
  refine ⟨(calculator.environment .standard overrides).missing, fun name host => ?_, ?_⟩
  · exact h.missing name _
  · simp only [environment, h.functions, FunctionTable.resolve_empty, builtinSnapshot,
      Snapshot.environment]

omit [Journal σ] in
theorem isEvaluation_of_requireTree {calculator : Calculator σ}
    (h : calculator.requireTree = .error fault) : fault.isEvaluation = true := by
  unfold requireTree at h
  split at h
  next => cases h
  next =>
    cases h
    rfl

theorem AmongFloats.evaluate (h : calculator.AmongFloats) (floats : overrides.All Value.IsFloat)
    (host : σ) :
    Meets Value.IsFloat (·.isEvaluation) (calculator.evaluate .standard overrides host).1 ∧
      (calculator.evaluate .standard overrides host).2.1.AmongFloats := by
  unfold Calculator.evaluate
  split
  next fault hfault => exact ⟨isEvaluation_of_requireTree hfault, h⟩
  next tree htree =>
    obtain ⟨missing, supplied, henvironment⟩ := h.environment_eq overrides
    have htree := requireTree_eq_ok_iff.mp htree
    have hends := evaluate_endsInFloats (h.tree tree htree) supplied floats h.store .standard host
    rw [← henvironment] at hends
    exact ⟨hends.result, h.tree, h.functions, h.missing, hends.store⟩

omit [Journal σ] in
theorem isExpected_of_countNodes {tree : Expr} (h : countNodes tree = .error fault) :
    fault.IsExpected := by
  unfold countNodes at h
  split at h
  next => cases h
  next =>
    cases h
    exact .inr rfl

omit [Journal σ] in
theorem isExpected_of_listVariables {tree : Expr} (h : listVariables tree = .error fault) :
    fault.IsExpected := by
  unfold listVariables at h
  split at h
  next => cases h
  next =>
    cases h
    exact .inr rfl

theorem AmongFloats.compile (h : calculator.AmongFloats) (host : σ) :
    Meets Program.AmongFloats Fault.IsExpected ((calculator.compile .standard).run host).1 := by
  have hsnapshot : calculator.snapshot .standard =
      builtinSnapshot calculator.store calculator.missing := by
    rw [snapshot, h.functions, FunctionTable.resolve_empty, builtinSnapshot]
  rcases hrun : (calculator.compile .standard).run host with ⟨fault | program, after⟩
  · unfold Calculator.compile at hrun
    rcases Effect.exists_of_run_bind_eq_error hrun with hrun | ⟨tree, between, htree, hrun⟩
    · rw [Effect.run_ofExcept] at hrun
      exact .inl (isEvaluation_of_requireTree (Prod.mk.inj hrun).1)
    have htree := (tree_of_requireTree htree).1
    rcases Effect.exists_of_run_bind_eq_error hrun with hrun | ⟨program, _, -, hrun⟩
    · have hends := compile_endsInFloats (h.tree tree htree) h.missing Store.all_empty h.store
        .standard host
      rw [Effect.run_ofExcept, hsnapshot] at hrun
      rw [(Prod.mk.inj hrun).1] at hends
      exact .inl hends
    rcases Effect.exists_of_run_bind_eq_error hrun with hrun | ⟨_, _, -, hrun⟩
    · rw [Effect.run_ofExcept] at hrun
      exact isExpected_of_countNodes (Prod.mk.inj hrun).1
    · cases hrun
  · obtain ⟨tree, htree, hcompile⟩ := exists_of_compile hrun
    intro overrides host floats
    have hends := compile_endsInFloats (h.tree tree htree) h.missing floats h.store .standard host
    rw [hsnapshot] at hcompile
    rw [hcompile] at hends
    exact hends.result

/-- Folding a program with built-in functions fails at most for want of room, which becomes a fault
of evaluation. -/
theorem isEvaluation_of_optimize {tree : Expr} (h : tree.IsProgram)
    (hfails : (Formula.optimize (calculator.folding .standard) .standard tree).run host =
      (.error fault, after)) : fault.isEvaluation = true := by
  have hfunctions : (calculator.folding .standard).functions =
      (calculator.functions.builtins .standard).callee? :=
    FunctionTable.foldable_eq_builtins (Registry.all_standard fun function => ⟨function, rfl⟩)
      calculator.functions
  have hcalls : tree.Everywhere ((calculator.functions.builtins .standard).Matches
      (calculator.folding .standard).functions) := by
    rintro (_ | _ | _ | _ | ⟨name, arguments⟩ | _ | _) - <;> first
      | trivial
      | exact congrFun hfunctions name
  obtain ⟨folded, returns, -⟩ := fold_returns (calculator.functions.builtins_isClosed .standard)
    hcalls h.inShape h.isClosed
  rw [Formula.optimize, Effect.run_boundDepth] at hfails
  -- folding without a limit returns, so it is the lack of room alone that stops it
  rcases fold_curbs (calculator.folding .standard) .standard tree host with hsame | hgives
  · rw [hsame, returns host] at hfails
    cases hfails
  · rw [hgives] at hfails
    cases hfails
    rfl

theorem AmongFloats.optimize (h : calculator.AmongFloats) (host : σ) :
    Meets AmongFloats Fault.IsExpected ((calculator.optimize .standard).run host).1 := by
  rcases hrun : (calculator.optimize .standard).run host with ⟨fault | made, after⟩
  · unfold Calculator.optimize at hrun
    rcases Effect.exists_of_run_bind_eq_error hrun with hrun | ⟨tree, between, htree, hrun⟩
    · rw [Effect.run_ofExcept] at hrun
      exact .inl (isEvaluation_of_requireTree (Prod.mk.inj hrun).1)
    have htree := (tree_of_requireTree htree).1
    rcases Effect.exists_of_run_bind_eq_error hrun with hrun | ⟨_, _, -, hrun⟩
    · rw [Effect.run_ofExcept] at hrun
      exact isExpected_of_countNodes (Prod.mk.inj hrun).1
    rcases Effect.exists_of_run_bind_eq_error hrun with hrun | ⟨folded, _, -, hrun⟩
    · exact .inl (isEvaluation_of_optimize (h.tree tree htree) hrun)
    rcases Effect.exists_of_run_bind_eq_error hrun with hrun | ⟨_, _, -, hrun⟩
    · rw [Effect.run_ofExcept] at hrun
      exact isExpected_of_countNodes (Prod.mk.inj hrun).1
    · cases hrun
  · have hholds := holdsProgram_of_optimize (Registry.all_standard fun function => ⟨function, rfl⟩)
      h.tree hrun
    obtain ⟨_, _, -, -, rfl⟩ := exists_of_optimize hrun
    exact ⟨hholds, h.functions, h.missing, h.store⟩

end Calculator

namespace Session

variable [Journal σ] {session : Session σ} {step : Step σ} {made : Calculator σ}

theorem AmongFloats.of_makes (h : session.AmongFloats) (hstep : step.KeepsFloats)
    (hmakes : session.Makes step made) : made.AmongFloats := by
  cases hmakes with
  | create hcreate => exact Calculator.amongFloats_of_create hcreate
  | parse hbefore hparse => exact (h.calculators _ _ hbefore).parse hparse
  | @evaluate name overrides before hbefore =>
    rw [h.registry]
    exact ((h.calculators name before hbefore).evaluate hstep session.host).2
  | optimize hbefore hrun =>
    have hmeets := (h.calculators _ _ hbefore).optimize session.host
    rw [← h.registry, hrun] at hmeets
    exact hmeets
  | register => exact hstep.elim
  | setHandler hbefore =>
    have hcalculator := h.calculators _ _ hbefore
    exact ⟨hcalculator.tree, hcalculator.functions, hstep, hcalculator.store⟩
  | setVariable hbefore =>
    have hcalculator := h.calculators _ _ hbefore
    exact ⟨hcalculator.tree, hcalculator.functions, hcalculator.missing,
      hcalculator.store.set _ hstep⟩
  | deleteVariable hbefore =>
    have hcalculator := h.calculators _ _ hbefore
    exact ⟨hcalculator.tree, hcalculator.functions, hcalculator.missing,
      hcalculator.store.erase _⟩

/-- A program in a session was there before or is what compiling a calculator has just given. -/
theorem AmongFloats.program (h : session.AmongFloats) {name : String} {program : Program σ}
    (found : (session.step step).2.programs.lookup name = some program) :
    program.AmongFloats := by
  rcases (step_after session step).programs with hsame | ⟨source, entered, compiled, rfl, henter⟩
  · rw [hsame] at found
    exact h.programs name program found
  cases hcalculator : session.calculator? source with
  | none =>
    unfold Session.step at found
    dsimp only at found
    rw [hcalculator] at found
    exact h.programs name program found
  | some calculator =>
    have hmeets := (h.calculators source calculator hcalculator).compile session.host
    rw [step_compile hcalculator] at found
    rw [← h.registry] at hmeets
    rcases hrun : (calculator.compile session.registry).run session.host with
      ⟨fault | compiled, after⟩
    · rw [hrun] at found
      exact h.programs name program found
    · rw [hrun] at found hmeets
      dsimp only at found
      rw [lookup_enter] at found
      split at found
      next =>
        cases found
        exact hmeets
      next => exact h.programs name program found

theorem AmongFloats.after_step (h : session.AmongFloats) (hstep : step.KeepsFloats) :
    (session.step step).2.AmongFloats := by
  have hafter := step_after session step
  refine ⟨?_, fun name calculator found => ?_, fun name program found => h.program found⟩
  · rw [hafter.registry, ← h.registry]
    cases step with
    | clearRegistry | registerBuiltins | registerDefinition _ _ => exact hstep.elim
    | _ => rfl
  · rcases hafter.calculators name calculator found with found | hmakes
    · exact h.calculators name calculator found
    · exact h.of_makes hstep hmakes

theorem AmongFloats.after_run {steps : List (Step σ)} (h : session.AmongFloats)
    (hsteps : ∀ step ∈ steps, step.KeepsFloats) : (session.run steps).AmongFloats := by
  induction steps generalizing session with
  | nil => exact h
  | cons step steps ih =>
    obtain ⟨hstep, hsteps⟩ := List.forall_mem_cons.mp hsteps
    exact ih (h.after_step hstep) hsteps

omit [Journal σ] in
theorem standard_amongFloats (host : σ) : (standard host).AmongFloats :=
  ⟨rfl, fun _ _ => nofun, fun _ _ => nofun⟩

/-- Whether a request fails, if at all, for a reason that is reported, an exhausted stack or a
misuse. -/
def Answers {α : Type} (result : Except Trouble α) : Prop :=
  ∀ trouble, result = .error trouble → trouble.IsReported ∨ trouble.IsOverflow ∨ trouble.IsMisuse

theorem AmongFloats.isExpected (h : session.AmongFloats) (hstep : step.KeepsFloats) {fault : Fault}
    (hfault : session.Faults step fault) : fault.IsExpected := by
  cases hfault with
  | @evaluate name overrides calculator _ found hfails =>
    have hmeets := ((h.calculators name calculator found).evaluate hstep session.host).1
    rw [← h.registry, hfails] at hmeets
    exact .inl hmeets
  | @optimize name calculator _ found hfails =>
    have hmeets := (h.calculators name calculator found).optimize session.host
    rw [← h.registry, hfails] at hmeets
    exact hmeets
  | @compile name _ calculator _ found hfails =>
    have hmeets := (h.calculators name calculator found).compile session.host
    rw [← h.registry, hfails] at hmeets
    exact hmeets
  | @call name overrides program _ found hfails =>
    have hmeets := h.programs name program found overrides session.host hstep
    rw [hfails] at hmeets
    exact .inl hmeets
  | listVariables _ hfails =>
    rcases exists_of_bind_eq_error hfails with hfails | ⟨tree, -, hfails⟩
    · exact .inl (Calculator.isEvaluation_of_requireTree hfails)
    · exact Calculator.isExpected_of_listVariables hfails
  | countNodes _ hfails =>
    rcases exists_of_bind_eq_error hfails with hfails | ⟨tree, -, hfails⟩
    · exact .inl (Calculator.isEvaluation_of_requireTree hfails)
    · exact Calculator.isExpected_of_countNodes hfails

/-- Among floats, what is asked of a formula fails for a reason that is reported or for an exhausted
stack, if its calculator or program is there. -/
theorem AmongFloats.answers (h : session.AmongFloats) (hstep : step.KeepsFloats)
    (hasks : step.AsksFormula) : Answers (session.step step).1 := by
  intro trouble htrouble
  cases failsAs_of_step hasks htrouble with
  | @options error _ => exact .inr (.inr (.inl ⟨error, rfl⟩))
  | absent name => exact .inr (.inr (.inr ⟨name, rfl⟩))
  | text error => exact .inl trivial
  | fault hfault =>
    rcases h.isExpected hstep hfault with hevaluation | rfl
    · exact .inl hevaluation
    · exact .inr (.inl rfl)

end Session

end Formula
