import Formula.Proofs.Fold.Joining
import Formula.Proofs.Fold.Shape
import Formula.Proofs.Program.Compiled

namespace Formula

variable {σ : Type} {room within inner : Room} {force : Bool} {text : Option String}
  {tree e : Expr} {overrides store : Store} {missing : String → Effect σ Value}

/-- Whether a run ends with a float or a fault of evaluation, and with floats in its variables. -/
structure EndsInFloats (outcome : Except Fault Value × Frame σ) : Prop where
  result : Meets Value.IsFloat (·.isEvaluation) outcome.1
  store : outcome.2.store.All Value.IsFloat

/-- The built-in functions beside variables and a handler. -/
def builtinSnapshot (store : Store) (missing : String → Effect σ Value) : Snapshot σ :=
  ⟨store, Registry.standard.callee?, missing⟩

/-- A fault of evaluation, or the lack of room that becomes one outside the tree. -/
def Fault.IsExpected (fault : Fault) : Prop :=
  fault.isEvaluation ∨ fault = .stackExhausted

theorem isEvaluation_outermost {fault : Fault} (h : fault.IsExpected) :
    (Effect.outermost fault).isEvaluation := by
  rcases h with h | rfl
  · rwa [outermost_of_isEvaluation h]
  · rfl

theorem functions_builtinSnapshot :
    (builtinSnapshot store missing).functions = PureTable.builtin.callee? := by
  rw [builtinSnapshot, Registry.standard_callee?_eq]

theorem builtinSnapshot_supplies (store : Store) (floats : overrides.All Value.IsFloat)
    (supplied : ∀ name host, Meets Value.IsFloat (·.isEvaluation) ((missing name).run host).1) :
    ((builtinSnapshot store missing).environment overrides).Supplies Value.IsFloat
      Fault.IsExpected where
  overrides := floats
  functions name callee found arguments hfloats host := by
    rw [Snapshot.environment, functions_builtinSnapshot] at found
    obtain ⟨function, hfunction, rfl⟩ := Option.map_eq_some_iff.mp found
    rw [call_pureFunction, Effect.run_ofExcept]
    have hmeets : Meets Value.IsFloat (·.isEvaluation) (callOutcome name function arguments) :=
      callOutcome_meets fun value =>
        PureTable.builtin_isClosed name function hfunction arguments hfloats value
    exact hmeets.mono fun _ => .inl
  missing name host := (supplied name host).mono fun _ => .inl

/-- Evaluating a program among floats, in whatever room. -/
theorem evaluate_endsInFloats (program : e.IsProgram)
    (supplied : ∀ name host, Meets Value.IsFloat (·.isEvaluation) ((missing name).run host).1)
    (hoverrides : overrides.All Value.IsFloat) (hstore : store.All Value.IsFloat) (inner : Room)
    (host : σ) :
    EndsInFloats ((evaluate ((builtinSnapshot store missing).environment overrides) inner e).run
      ⟨store, host⟩) := by
  have leads : e.Everywhere (Expr.Leads Value.IsFloat Fault.IsExpected) :=
    program.isClosed.mono (Expr.IsClosed.leads fun _ => .inl)
  have hroom : inner = .unlimited ∨ Fault.stackExhausted.IsExpected := .inr (.inr rfl)
  have hkeeps := eval_keeps_within (builtinSnapshot_supplies store hoverrides supplied)
    (fun _ => .inl rfl) program.inShape leads hroom
  obtain ⟨hresult, hafter⟩ := hkeeps ⟨store, host⟩ hstore
  rw [evaluate, Effect.run_boundDepth]
  exact ⟨hresult.boundDepth fun _ => isEvaluation_outermost, hafter⟩

/-- Compiling a program finds a missing function or too many levels at most, and among floats a call
of the compiled program ends as evaluation does. -/
theorem compile_endsInFloats (program : e.IsProgram)
    (supplied : ∀ name host, Meets Value.IsFloat (·.isEvaluation) ((missing name).run host).1)
    (hoverrides : overrides.All Value.IsFloat) (hstore : store.All Value.IsFloat) (inner : Room)
    (host : σ) :
    Meets (fun compiled => EndsInFloats (compiled.runFrame overrides host)) (·.isEvaluation)
      (compile (builtinSnapshot store missing) inner e) := by
  cases hcompile : compile (builtinSnapshot store missing) inner e with
  | error fault =>
    have hevaluation : fault.isEvaluation = true := by
      rcases compile_error program.inShape hcompile with h | ⟨name, -, h⟩ <;> rw [h] <;> rfl
    exact hevaluation
  | ok compiled =>
    have hends : EndsInFloats (compiled.runFrame overrides host) := by
      rw [runFrame_of_compile hcompile]
      exact evaluate_endsInFloats program supplied hoverrides hstore inner host
    exact hends

/-- A parsed program among floats stays among floats: optimizing it yields a program, and
evaluating, compiling and calling either of them ends with a float or a fault of evaluation, with
nothing but floats left in the variables. -/
theorem endsInFloats_of_parse (parsed : parse room force text = .ok tree)
    (fits : tree.Fits within) (note : Note → σ → σ)
    (supplied : ∀ name host, Meets Value.IsFloat (·.isEvaluation) ((missing name).run host).1) :
    ∃ folded, (optimize (builtinFolding note) within tree).Returns folded ∧
      ∀ e ∈ [tree, folded], ∀ inner overrides store host, overrides.All Value.IsFloat →
        store.All Value.IsFloat →
          EndsInFloats
            ((evaluate ((builtinSnapshot store missing).environment overrides) inner e).run
              ⟨store, host⟩) ∧
          Meets (fun compiled => EndsInFloats (compiled.runFrame overrides host))
            (·.isEvaluation) (compile (builtinSnapshot store missing) inner e) := by
  obtain ⟨folded, returns⟩ := exists_fold_of_parse parsed PureTable.builtin_isClosed note
  have program := isProgram_of_parse parsed
  refine ⟨folded, ?_, fun e member inner overrides store host hoverrides hstore => ?_⟩
  · rw [builtinFolding_eq, optimize, fold_of_fits fits]
    exact optimize_returns returns
  · have hprogram : e.IsProgram := by
      rcases List.mem_pair.mp member with rfl | rfl
      · exact program
      · exact (Folding.yields_of_returns returns host).isProgram rfl PureTable.builtin_isClosed
          program
    exact ⟨evaluate_endsInFloats hprogram supplied hoverrides hstore inner host,
      compile_endsInFloats hprogram supplied hoverrides hstore inner host⟩

/-- A handler that counts its calls and supplies one variable. -/
def countingHandler (name : String) : Effect Nat Value := do
  modify (· + 1)
  if name = "rate" then return .float Binary.one else throw (.undefinedVariable name)

theorem countingHandler_supplies (name : String) (host : Nat) :
    Meets Value.IsFloat (·.isEvaluation) ((countingHandler name).run host).1 := by
  rw [countingHandler, Effect.run_bind, Effect.run_modify]
  dsimp only
  split <;> trivial

/-- A power that is not real, a remainder of an infinity and a quotient by zero. -/
def escapingSource : String :=
  "x = (0 - 8) ^ (1 / 3); y = limit % 7; z = sqrt(0 - 1) * rate / (2 - 2); pi() + z"

/-- A variable that is infinite. -/
def infiniteVariables : Store :=
  .ofList [("limit", .float (Float.ofBits 0x7ff0000000000000))]

theorem infiniteVariables_floats : infiniteVariables.All Value.IsFloat :=
  Store.all_ofList (by simp [Value.IsFloat])

theorem endsInFloats_of_parse_escaping :
    ∃ tree, parse .standard false (some escapingSource) = .ok tree ∧ tree.Fits .standard ∧
      infiniteVariables.All Value.IsFloat ∧
      (∀ name host, Meets Value.IsFloat (·.isEvaluation) ((countingHandler name).run host).1) ∧
      ∃ folded, (optimize (builtinFolding fun _ (host : Nat) => host) .standard tree).Returns
          folded ∧
        ∀ e ∈ [tree, folded], ∀ host,
          EndsInFloats ((evaluate ((builtinSnapshot infiniteVariables countingHandler).environment
            infiniteVariables) .standard e).run ⟨infiniteVariables, host⟩) ∧
          Meets (fun compiled => EndsInFloats (compiled.runFrame infiniteVariables host))
            (·.isEvaluation)
            (compile (builtinSnapshot infiniteVariables countingHandler) .standard e) := by
  obtain ⟨tree, parsed, fits⟩ := @exists_ok_of_any _ _
    (parse .standard false (some escapingSource))
    (fun tree => decide (tree.Fits .standard)) (by decide +kernel)
  have fits := of_decide_eq_true fits
  obtain ⟨folded, returns, hends⟩ := endsInFloats_of_parse parsed fits
    (fun _ (host : Nat) => host) countingHandler_supplies
  refine ⟨tree, parsed, fits, infiniteVariables_floats, countingHandler_supplies, folded, returns,
    fun e member host => ?_⟩
  exact hends e member .standard infiniteVariables infiniteVariables host infiniteVariables_floats
    infiniteVariables_floats

end Formula
