import Formula.Expr.Equality
import Formula.Proofs.Fold.Settled
import Formula.Proofs.Session.Steps

namespace Formula

open Formula.Expr

variable {σ : Type}

namespace FunctionTable

variable {functions : FunctionTable σ} {registry : Registry σ} {name other : String}

/-- A function that is registered hides no other. -/
theorem resolve_register_of_ne (h : other ≠ name) (registry : Registry σ) (callee : Callee σ) :
    (functions.register name callee).resolve registry other =
      functions.resolve registry other := by
  have hlookup : (functions.register name callee).own.lookup other = functions.own.lookup other :=
    Session.lookup_enter.trans (if_neg h)
  rw [resolve, resolve, hlookup]

/-- Registering a function leaves the built-in ones of other names in place. -/
theorem below_register (hregistry : registry.All Definition.IsBuiltin) (name : String)
    (callee : Callee σ) (node : Expr) :
    ((functions.builtins registry).without name).Below
      ((functions.register name callee).resolve registry) node := by
  refine PureTable.below_of_sub (fun other function found => ?_) node
  have hother : other ≠ name := by
    rintro rfl
    rw [PureTable.without_self] at found
    cases found
  rw [PureTable.without_of_ne hother] at found
  rw [resolve_register_of_ne hother]
  refine resolve_of_foldable ?_
  rw [foldable_eq_builtins hregistry, PureTable.callee?_eq_some found]

end FunctionTable

namespace Calculator

variable [Journal σ] {calculator : Calculator σ} {registry : Registry σ} {tree folded : Expr}

/-- Registers a function and then evaluates the formula: the value or fault, the variables of the
calculator, and the state of the host. -/
def registerThenEvaluate (calculator : Calculator σ) (registry : Registry σ) (name : String)
    (callee : Callee σ) (overrides : Store) (host : σ) : Except Fault Value × Store × σ :=
  match (calculator.register registry name callee).run host with
  | (.error fault, after) => (.error fault, calculator.store, after)
  | (.ok made, after) =>
    let (result, last, host) := made.evaluate registry overrides after
    (result, last.store, host)

/-- Formulas that do the same with the new function do the same after registering it. -/
theorem registerThenEvaluate_congr {name : String} {callee : Callee σ}
    (h : ∀ overrides missing frame,
      (Formula.evaluate
          ⟨overrides, (calculator.functions.register name callee).resolve registry, missing⟩
          .standard folded).run frame =
        (Formula.evaluate
          ⟨overrides, (calculator.functions.register name callee).resolve registry, missing⟩
          .standard tree).run frame) (overrides : Store) (host : σ) :
    { calculator with tree := some folded }.registerThenEvaluate registry name callee overrides
        host =
      { calculator with tree := some tree }.registerThenEvaluate registry name callee overrides
        host := by
  cases callee with
  | inert => rfl
  | function call =>
    obtain ⟨after, hrun⟩ := exists_run_register registry name call host
    simp only [registerThenEvaluate, hrun, evaluate, requireTree, environment, h]

/-- Optimizing a formula that fits and can be folded puts the folded one in its place. -/
theorem optimize_returns_of_fold (holds : calculator.tree = some tree)
    (fits : tree.Fits .standard)
    (returns : (fold (calculator.folding registry) .unlimited tree).Returns folded) :
    (calculator.optimize registry).Returns { calculator with tree := some folded } := by
  have hrequire : calculator.requireTree = .ok tree := by rw [requireTree, holds]
  have hcount : ∀ {e : Expr}, e.Fits .standard → countNodes e = .ok e.nodeCount := fun hfits =>
    if_pos (Room.holds_mono hfits (Nat.le_mul_of_pos_left _ (by decide)))
  have hfolds : (Formula.optimize (calculator.folding registry) .standard tree).Returns folded := by
    rw [Formula.optimize, fold_of_fits fits]
    exact optimize_returns returns
  intro host
  have yields := Folding.yields_of_returns returns host
  have hafter := Effect.Returns.ofExcept (σ := σ) (hcount (fits_of_yields fits yields))
  exact (Effect.Returns.ofExcept hrequire).bind ((Effect.Returns.ofExcept (hcount fits)).bind
    (hfolds.bind (hafter.bind fun _ => rfl))) host

end Calculator

/-- With a function that was registered after folding the folded tree does what the settled tree
does. -/
theorem evaluate_folded_eq_settled [Journal σ] {calculator : Calculator σ} {registry : Registry σ}
    {tree folded : Expr} (hregistry : registry.All Definition.IsBuiltin)
    (fits : tree.Fits .standard) (joinless : (calculator.folding registry).JoinsNothing tree)
    (yields : (calculator.folding registry).Yields tree folded) (name : String) (callee : Callee σ)
    (overrides : Store) (missing : String → Effect σ Value) :
    Formula.evaluate
        ⟨overrides, (calculator.functions.register name callee).resolve registry, missing⟩
        .standard folded =
      Formula.evaluate
        ⟨overrides, (calculator.functions.register name callee).resolve registry, missing⟩
        .standard (tree.settle (calculator.functions.builtins registry) name) := by
  have calls : tree.Everywhere ((calculator.functions.builtins registry).Matches
      (calculator.folding registry).functions) := by
    rw [Calculator.folding, FunctionTable.foldable_eq_builtins hregistry]
    exact fun node _ => PureTable.matches_folding _ Journal.write node
  have serves : tree.Everywhere (((calculator.functions.builtins registry).without name).Below
      ((calculator.functions.register name callee).resolve registry)) :=
    fun node _ => FunctionTable.below_register hregistry name callee node
  rw [evaluate, evaluate, eval_of_fits (fits_of_yields fits yields),
    eval_of_fits (fits_settle fits), (mirrors_settle calls serves joinless yields).eval_eq]

/-- Optimizing a formula in which no constants are joined and registering a function after that
comes to evaluating the formula with the settled calls of that name replaced by their values. Where
no call of it outside of assignments has a value, it comes to what it does without optimizing. -/
theorem registerThenEvaluate_optimize [Journal σ] {calculator held : Calculator σ}
    {registry : Registry σ} {source : Option String} {tree : Expr}
    (hregistry : registry.All Definition.IsBuiltin) (parsed : calculator.parse source = .ok held)
    (holds : held.tree = some tree) (fits : tree.Fits .standard)
    (joinless : (held.folding registry).JoinsNothing tree) (name : String) (callee : Callee σ) :
    ∃ optimized, (held.optimize registry).Returns optimized ∧
      (∀ overrides host,
        optimized.registerThenEvaluate registry name callee overrides host =
          { held with tree := some (tree.settle (held.functions.builtins registry) name)
            }.registerThenEvaluate registry name callee overrides host) ∧
      ((∀ arguments, .call name arguments ∈ tree.outerNodes →
          (Expr.call name arguments).constant? (held.functions.builtins registry) = none) →
        ∀ overrides host,
          optimized.registerThenEvaluate registry name callee overrides host =
            held.registerThenEvaluate registry name callee overrides host) := by
  obtain ⟨parsedTree, hparse, rfl⟩ := Calculator.exists_of_parse parsed
  cases holds
  obtain ⟨folded, returns⟩ := exists_fold_of_parse hparse
    (calculator.functions.builtins_isClosed registry) (Journal.write (σ := σ))
  rw [PureTable.folding, ← FunctionTable.foldable_eq_builtins hregistry] at returns
  have hsame : ∀ overrides host,
      { calculator with tree := some folded }.registerThenEvaluate registry name callee overrides
          host =
        { calculator with
          tree := some (tree.settle (calculator.functions.builtins registry) name)
          }.registerThenEvaluate registry name callee overrides host :=
    Calculator.registerThenEvaluate_congr fun overrides missing frame => congrArg (·.run frame)
      (evaluate_folded_eq_settled hregistry fits joinless
        (Folding.yields_of_returns returns frame.host) name callee overrides missing)
  refine ⟨{ calculator with tree := some folded },
    Calculator.optimize_returns_of_fold rfl fits returns, hsame, fun hnone overrides host => ?_⟩
  rw [hsame, settle_eq_self hnone]

def circleSource : String := "area = pi() * r ^ 2; pi() * area"

/-- A function of any number of arguments with one value. -/
def constantFunction (value : Value) : Callee Unit :=
  .function fun _ => pure value

theorem registerThenEvaluate_optimize_circle :
    ∃ held tree, (Calculator.empty ⟨false⟩ : Calculator Unit).parse (some circleSource) = .ok held ∧
      held.tree = some tree ∧ tree.Fits .standard ∧ (held.folding .standard).JoinsNothing tree ∧
      ∃ optimized, (held.optimize .standard).Returns optimized ∧ ∀ overrides host,
        optimized.registerThenEvaluate .standard "pi" (constantFunction (.int 3)) overrides host =
          { held with tree := some (tree.settle (held.functions.builtins .standard) "pi")
            }.registerThenEvaluate .standard "pi" (constantFunction (.int 3)) overrides host := by
  have hregistry : (Registry.standard : Registry Unit).All Definition.IsBuiltin :=
    Registry.all_standard fun function => ⟨function, rfl⟩
  obtain ⟨tree, hparse, hchecks⟩ := @exists_ok_of_any _ _
    (parse .standard false (some circleSource))
    (fun tree => decide (tree.Fits .standard ∧ ∀ node ∈ tree.outerNodes,
      node.IsUnmixed (FunctionTable.builtins (.empty : FunctionTable Unit) .standard)))
    (by decide +kernel)
  obtain ⟨fits, unmixed⟩ := of_decide_eq_true hchecks
  have parsed : (Calculator.empty ⟨false⟩ : Calculator Unit).parse (some circleSource) =
      .ok { Calculator.empty ⟨false⟩ with tree := some tree } := by
    rw [Calculator.parse]
    exact congrArg (· >>= _) hparse
  have joinless : (Calculator.folding { (Calculator.empty ⟨false⟩ : Calculator Unit) with
      tree := some tree } .standard).JoinsNothing tree := by
    rw [Calculator.folding, FunctionTable.foldable_eq_builtins hregistry]
    exact joinsNothing_of_isUnmixed Journal.write unmixed
  obtain ⟨optimized, returns, hsettled, -⟩ := registerThenEvaluate_optimize hregistry parsed rfl
    fits joinless "pi" (constantFunction (.int 3))
  exact ⟨_, tree, parsed, rfl, fits, joinless, optimized, returns, hsettled⟩

/-- The value of a formula for which `pi` has become a function of the value 42. -/
def shadowedPi (calculator : Calculator Unit) : Except Fault Value :=
  (calculator.registerThenEvaluate .standard "pi" (constantFunction (.int 42)) ∅ ()).1

/-- A function that is registered after its only call was settled is not asked. -/
theorem shadowing_unseen :
    ∃ held tree optimized, (Calculator.empty ⟨false⟩ : Calculator Unit).parse (some "pi()") =
        .ok held ∧ held.tree = some tree ∧ (held.folding .standard).JoinsNothing tree ∧
      (held.optimize .standard).run () = (.ok optimized, ()) ∧
      shadowedPi held = .ok (.int 42) ∧ shadowedPi optimized ≠ .ok (.int 42) := by
  obtain ⟨held, parsed, hchecks⟩ := @exists_ok_of_any _ _
    ((Calculator.empty ⟨false⟩ : Calculator Unit).parse (some "pi()"))
    (fun held => decide (held.tree = some (.call "pi" []) ∧ shadowedPi held = .ok (.int 42)) &&
      ((held.optimize .standard).run ()).1.toOption.any fun optimized : Calculator Unit =>
        decide (shadowedPi optimized ≠ .ok (.int 42)))
    (by decide +kernel)
  rw [Bool.and_eq_true, decide_eq_true_eq] at hchecks
  obtain ⟨⟨htree, hheld⟩, hoptimized⟩ := hchecks
  obtain ⟨optimized, returns, hdiffers⟩ := exists_ok_of_any hoptimized
  refine ⟨held, _, optimized, parsed, htree, ?_, Prod.ext returns rfl, hheld,
    of_decide_eq_true hdiffers⟩
  intro operator operands member
  simp [outerNodes, outerNodesOf] at member

end Formula
