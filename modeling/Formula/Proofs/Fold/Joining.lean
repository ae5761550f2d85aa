import Formula.Proofs.Fold.Exact
import Formula.Proofs.Fold.Height
import Formula.Proofs.Function.Builtin

namespace Formula

variable {σ : Type}

namespace Value

/-- Whether a value is a finite number. -/
def IsFinite : Value → Prop
  | .float x => Binary.isFinite x
  | .int _ | .bool _ => True
  | .none => False

instance : DecidablePred IsFinite
  | .float x => inferInstanceAs (Decidable (Binary.isFinite x = true))
  | .int _ | .bool _ => inferInstanceAs (Decidable True)
  | .none => inferInstanceAs (Decidable False)

end Value

/-- Whether two evaluations work alike: with the same fault, or with two finite values or none. -/
def WorksAlike : Except Fault Value → Except Fault Value → Prop
  | .ok value, .ok other => value.IsFinite ↔ other.IsFinite
  | .error fault, .error other => fault = other
  | _, _ => False

instance : ∀ first second, Decidable (WorksAlike first second)
  | .ok value, .ok other => inferInstanceAs (Decidable (value.IsFinite ↔ other.IsFinite))
  | .error fault, .error other => inferInstanceAs (Decidable (fault = other))
  | .ok _, .error _ | .error _, .ok _ => inferInstanceAs (Decidable False)

theorem WorksAlike.refl : ∀ result, WorksAlike result result
  | .ok _ => Iff.rfl
  | .error _ => rfl

/-- The built-in functions, and nothing else beside the variables. -/
def builtinEnvironment (overrides : Store) : Environment σ :=
  ⟨overrides, Registry.standard.callee?, undefinedVariable⟩

/-- Folding with the built-in functions. -/
def builtinFolding (note : Note → σ → σ) : Folding σ :=
  ⟨Registry.standard.callee?, note⟩

theorem functions_builtinEnvironment (overrides : Store) :
    (builtinEnvironment overrides : Environment σ).functions = PureTable.builtin.callee? := by
  rw [builtinEnvironment, Registry.standard_callee?_eq]

theorem builtinFolding_eq (note : Note → σ → σ) :
    builtinFolding note = PureTable.builtin.folding note := by
  rw [builtinFolding, Registry.standard_callee?_eq]
  rfl

theorem below_builtin (overrides : Store) (node : Expr) :
    PureTable.builtin.Below (builtinEnvironment overrides : Environment σ).functions node := by
  refine PureTable.below_of_sub (fun name function found => ?_) node
  rw [functions_builtinEnvironment, PureTable.callee?_eq_some found]

variable {room within : Room} {force : Bool} {text : Option String} {tree : Expr}

/-- Optimizing a program always works. The optimized program has exactly the effect of the regrouped
one, and so it works as the given one does just where the regrouped one does; it does in any case
where there is nothing to regroup. -/
theorem evaluate_optimize_regroup (parsed : parse room force text = .ok tree)
    (fits : tree.Fits within) (note : Note → σ → σ) :
    ∃ folded, (optimize (builtinFolding note) within tree).Returns folded ∧
      ∀ overrides (frame : Frame σ),
        (evaluate (builtinEnvironment overrides) within folded).run frame =
          (evaluate (builtinEnvironment overrides) .unlimited (tree.regroup .builtin)).run frame ∧
        (WorksAlike ((evaluate (builtinEnvironment overrides) within folded).run frame).1
            ((evaluate (builtinEnvironment overrides) within tree).run frame).1 ↔
          WorksAlike ((evaluate (builtinEnvironment overrides) .unlimited
              (tree.regroup .builtin)).run frame).1
            ((evaluate (builtinEnvironment overrides) within tree).run frame).1) ∧
        ((∀ node ∈ tree.outerNodes, node.IsUnmixed .builtin) →
          WorksAlike ((evaluate (builtinEnvironment overrides) within folded).run frame).1
            ((evaluate (builtinEnvironment overrides) within tree).run frame).1) := by
  obtain ⟨folded, returns⟩ := exists_fold_of_parse parsed PureTable.builtin_isClosed note
  rw [builtinFolding_eq]
  refine ⟨folded, ?_, fun overrides frame => ?_⟩
  · rw [optimize, fold_of_fits fits]
    exact optimize_returns returns
  · have yields := Folding.yields_of_returns returns frame.host
    have calls : tree.Everywhere
        (PureTable.builtin.Matches (PureTable.builtin.folding note).functions) :=
      fun node _ => PureTable.builtin.matches_folding note node
    have serves : tree.Everywhere
        (PureTable.builtin.Below (builtinEnvironment overrides : Environment σ).functions) :=
      fun node _ => below_builtin overrides node
    have mirrors := mirrors_regroup calls serves yields
    have heval : (evaluate (builtinEnvironment overrides) within folded : Run σ Value) =
        evaluate (builtinEnvironment overrides) .unlimited (tree.regroup .builtin) := by
      rw [evaluate, evaluate, eval_of_fits (fits_of_yields fits yields), mirrors.eval_eq]
    rw [heval]
    refine ⟨rfl, Iff.rfl, fun unmixed => ?_⟩
    have hself : tree.regroup .builtin = tree :=
      regroup_eq_self calls serves (joinsNothing_of_isUnmixed note unmixed) yields
    rw [hself, evaluate, evaluate, eval_of_fits fits]
    exact .refl _

/-- A sum of large constants around a variable. -/
def overflowSource : String := "1e308 + a + 1e308"

/-- The variable that keeps the sum from left to right in range. -/
def overflowVariables : Store :=
  .ofList [("a", .float (Float.ofBits 0xffe1ccf385ebc8a0))]

theorem evaluate_optimize_regroup_overflow :
    ∃ tree, parse .standard false (some overflowSource) = .ok tree ∧ tree.Fits .standard ∧
      ∃ folded, (optimize (builtinFolding fun _ (host : Unit) => host) .standard tree).Returns
          folded ∧
        (evaluate (builtinEnvironment overflowVariables) .standard folded).run ⟨∅, ()⟩ =
          (evaluate (builtinEnvironment overflowVariables) .unlimited
            (tree.regroup .builtin)).run ⟨∅, ()⟩ := by
  obtain ⟨tree, parsed, fits⟩ := @exists_ok_of_any _ _
    (parse .standard false (some overflowSource))
    (fun tree => decide (tree.Fits .standard)) (by decide +kernel)
  have fits := of_decide_eq_true fits
  obtain ⟨folded, returns, agrees⟩ :=
    evaluate_optimize_regroup parsed fits fun _ (host : Unit) => host
  exact ⟨tree, parsed, fits, folded, returns, (agrees overflowVariables ⟨∅, ()⟩).1⟩

/-- The sum of the constants overflows, and the optimized sum with it, while the given one is
finite. -/
theorem joining_overflows :
    overflowVariables.All Value.IsFinite ∧
      ∃ tree folded, parse .standard false (some overflowSource) = .ok tree ∧
        ((optimize (builtinFolding fun _ (host : Unit) => host) .standard tree).run ()).1 =
          .ok folded ∧
        ¬ WorksAlike
          ((evaluate (builtinEnvironment overflowVariables) .standard folded).run ⟨∅, ()⟩).1
          ((evaluate (builtinEnvironment overflowVariables) .standard tree).run ⟨∅, ()⟩).1 := by
  refine ⟨?_, ?_⟩
  · intro name value found
    rw [overflowVariables, Store.ofList, List.foldl_cons, List.foldl_nil, Store.get?_set] at found
    split at found
    next =>
      cases found
      decide
    next => simp at found
  · obtain ⟨tree, parsed, hfolded⟩ := @exists_ok_of_any _ _
      (parse .standard false (some overflowSource))
      (fun tree => ((optimize (builtinFolding fun _ (host : Unit) => host) .standard tree).run
        ()).1.toOption.any fun folded => decide (¬ WorksAlike
          ((evaluate (builtinEnvironment overflowVariables) .standard folded).run ⟨∅, ()⟩).1
          ((evaluate (builtinEnvironment overflowVariables) .standard tree).run ⟨∅, ()⟩).1))
      (by decide +kernel)
    obtain ⟨folded, returns, differs⟩ := exists_ok_of_any hfolded
    exact ⟨tree, folded, parsed, returns, of_decide_eq_true differs⟩

end Formula
