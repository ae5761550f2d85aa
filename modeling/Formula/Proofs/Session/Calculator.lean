import Formula.Calculator
import Formula.Proofs.Fold.Shape

namespace Formula

variable {σ : Type}

namespace Calculator

variable {calculator made : Calculator σ} {source : Option String}

theorem exists_of_parse (h : calculator.parse source = .ok made) :
    ∃ tree, Formula.parse .standard calculator.options.forceSemicolon source = .ok tree ∧
      made = { calculator with tree := some tree } := by
  obtain ⟨tree, htree, h⟩ := exists_of_bind_eq_ok h
  cases h
  exact ⟨tree, htree, rfl⟩

/-- A new calculator has no formula, or has just parsed it. -/
theorem eq_of_create {options : Options} (h : create source options = .ok made) :
    made = empty options ∨ (empty options).parse source = .ok made := by
  unfold create at h
  split at h
  next => exact .inr h
  next =>
    cases h
    exact .inl rfl

theorem tree_of_requireTree {tree : Expr} {host after : σ}
    (h : (Effect.ofExcept calculator.requireTree : Effect σ Expr).run host = (.ok tree, after)) :
    calculator.tree = some tree ∧ after = host := by
  rw [Effect.run_ofExcept] at h
  unfold requireTree at h
  split at h
  next htree =>
    cases h
    exact ⟨htree, rfl⟩
  next => cases h

variable [Journal σ] {registry : Registry σ} {host after : σ}

theorem exists_of_evaluate (calculator : Calculator σ) (registry : Registry σ) (overrides : Store)
    (host : σ) :
    ∃ store, (calculator.evaluate registry overrides host).2.1 = { calculator with store } := by
  unfold evaluate
  split
  next => exact ⟨calculator.store, rfl⟩
  next => exact ⟨_, rfl⟩

theorem fst_evaluate {tree : Expr} (holds : calculator.tree = some tree) (overrides : Store)
    (host : σ) :
    (calculator.evaluate registry overrides host).1 =
      ((Formula.evaluate (calculator.environment registry overrides) .standard tree).run
        ⟨calculator.store, host⟩).1 := by
  rw [evaluate, requireTree, holds]

/-- Optimizing replaces the formula by one that folding yields. -/
theorem exists_of_optimize (h : (calculator.optimize registry).run host = (.ok made, after)) :
    ∃ tree folded, calculator.tree = some tree ∧
      (calculator.folding registry).Yields tree folded ∧
      made = { calculator with tree := some folded } := by
  unfold optimize at h
  obtain ⟨tree, _, htree, h⟩ := Effect.exists_of_run_bind h
  obtain ⟨_, first, -, h⟩ := Effect.exists_of_run_bind h
  obtain ⟨folded, second, hfolded, h⟩ := Effect.exists_of_run_bind h
  obtain ⟨_, _, -, h⟩ := Effect.exists_of_run_bind h
  obtain ⟨_, _, -, h⟩ := Effect.exists_of_run_bind h
  exact ⟨tree, folded, (tree_of_requireTree htree).1, yields_of_optimize hfolded,
    Effect.eq_of_run_pure h⟩

theorem exists_of_compile {program : Program σ}
    (h : (calculator.compile registry).run host = (.ok program, after)) :
    ∃ tree, calculator.tree = some tree ∧
      Formula.compile (calculator.snapshot registry) .standard tree = .ok program := by
  unfold compile at h
  obtain ⟨tree, _, htree, h⟩ := Effect.exists_of_run_bind h
  obtain ⟨compiled, _, hcompiled, h⟩ := Effect.exists_of_run_bind h
  obtain ⟨_, _, -, h⟩ := Effect.exists_of_run_bind h
  obtain ⟨_, _, -, h⟩ := Effect.exists_of_run_bind h
  rw [Effect.eq_of_run_pure h]
  rw [Effect.run_ofExcept] at hcompiled
  exact ⟨tree, (tree_of_requireTree htree).1, (Prod.mk.inj hcompiled).1⟩

theorem eq_of_register {function : String} {callee : Callee σ}
    (h : (calculator.register registry function callee).run host = (.ok made, after)) :
    made = { calculator with functions := calculator.functions.register function callee } := by
  cases callee with
  | inert => cases h
  | function call =>
    dsimp only [register] at h
    split at h
    next =>
      obtain ⟨_, _, -, h⟩ := Effect.exists_of_run_bind h
      obtain ⟨_, _, -, h⟩ := Effect.exists_of_run_bind h
      exact Effect.eq_of_run_pure h
    next =>
      obtain ⟨_, _, -, h⟩ := Effect.exists_of_run_bind h
      exact Effect.eq_of_run_pure h

/-- Registering a function always works, and what it leaves behind is the same for all
calculators. -/
theorem exists_run_register (registry : Registry σ) (name : String)
    (function : List Value → Effect σ Value) (host : σ) :
    ∃ after, ∀ calculator : Calculator σ,
      (calculator.register registry name (.function function)).run host =
        (.ok { calculator with
          functions := calculator.functions.register name (.function function) }, after) := by
  by_cases h : registry.contains name
  · exact ⟨_, fun calculator => by simp only [register, if_pos h]; rfl⟩
  · exact ⟨_, fun calculator => by simp only [register, if_neg h]; rfl⟩

end Calculator

end Formula
