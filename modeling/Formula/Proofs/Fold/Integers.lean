import Formula.Function.Registry
import Formula.Proofs.Fold.Height
import Formula.Proofs.Fold.Simulation
import Formula.Proofs.Fold.Total
import Formula.Proofs.Value.Integers

namespace Formula

variable {σ : Type} {table : PureTable} {env : Environment σ}

open Run

namespace Expr

/-- Whether a node brings in only integers and operators that are exact on them. -/
def IsIntegral : Expr → Prop
  | .number value => value.IsInteger
  | .operation operator _ => operator.IsExact
  | _ => True

instance : DecidablePred IsIntegral
  | .number value => inferInstanceAs (Decidable value.IsInteger)
  | .operation operator _ => inferInstanceAs (Decidable operator.IsExact)
  | .variable _ | .assignment .. | .call .. | .block _ | .unknown =>
    inferInstanceAs (Decidable True)

/-- Whether a node calls no function of a table. -/
def IsOutside (functions : String → Option (Callee σ)) : Expr → Prop
  | .call name _ => (functions name).isNone
  | _ => True

instance (functions : String → Option (Callee σ)) : DecidablePred (IsOutside functions)
  | .call name _ => inferInstanceAs (Decidable ((functions name).isNone = true))
  | .number _ | .variable _ | .operation .. | .assignment .. | .block _ | .unknown =>
    inferInstanceAs (Decidable True)

theorem isClosed_of_isIntegral : ∀ node : Expr, node.IsIntegral → node.IsClosed Value.IsInteger
  | .number _, h => h
  | .operation _ _, h => Operator.isClosed_integers h
  | .variable _, _ | .assignment .., _ | .call .., _ | .block _, _ | .unknown, _ => trivial

end Expr

/-- Operands are evaluated as the open ones among them are, with the values of the constants put in
between. -/
theorem evalAll_eq_weave {es : List Expr} {constants : List Value}
    (each : ∀ e ∈ es, ∀ value, e.constant? table = some value →
      eval env .unlimited e = pure value)
    (hconstants : List.Forall₂ (fun e value => e.constant? table = some value)
      (es.filter (·.isConstant table)) constants) :
    ∃ weave : List Value → List Value,
      (∀ values, values.length = (es.filter (!·.isConstant table)).length →
        (weave values).Perm (values ++ constants)) ∧
      evalAll env .unlimited es =
        evalAll env .unlimited (es.filter (!·.isConstant table)) >>= fun values =>
          pure (weave values) := by
  induction es generalizing constants with
  | nil =>
    cases hconstants
    exact ⟨id, by simp, by simp [evalAll]⟩
  | cons first rest ih =>
    obtain ⟨hhead, hrest⟩ := List.forall_mem_cons.mp each
    cases hfirst : first.constant? table with
    | some value =>
      rw [List.filter_cons_of_pos (by simp [Expr.isConstant, hfirst])] at hconstants
      obtain ⟨found, others, hfound, hothers, rfl⟩ := List.forall₂_cons_left_iff.mp hconstants
      cases hfirst.symm.trans hfound
      obtain ⟨weave, hperm, heval⟩ := ih hrest hothers
      rw [List.filter_cons_of_neg (by simp [Expr.isConstant, hfirst])]
      -- a constant has no effect, so its value may be put in whenever the rest is done
      refine ⟨fun values => value :: weave values, fun values hlength => ?_, ?_⟩
      · exact ((hperm values hlength).cons value).trans List.perm_middle.symm
      · rw [evalAll, hhead value hfirst, pure_bind, heval, bind_assoc]
        simp
    | none =>
      rw [List.filter_cons_of_neg (by simp [Expr.isConstant, hfirst])] at hconstants
      obtain ⟨weave, hperm, heval⟩ := ih hrest hconstants
      rw [List.filter_cons_of_pos (by simp [Expr.isConstant, hfirst])]
      refine ⟨fun values => values.take 1 ++ weave values.tail, fun values hlength => ?_, ?_⟩
      · obtain _ | ⟨value, others⟩ := values
        · simp at hlength
        · exact (hperm others (by simpa using hlength)).cons value
      · rw [evalAll, heval, evalAll]
        simp

variable {fine : Fault → Prop} {folding : Folding σ} {room : Room}

theorem constants_keep {es : List Expr} {constants : List Value} (frame : Frame σ)
    (hframe : frame.store.All Value.IsInteger)
    (keeps : ∀ e ∈ es, Keeps Value.IsInteger fine Value.IsInteger (eval env .unlimited e))
    (each : ∀ e ∈ es, ∀ value, e.constant? table = some value →
      eval env .unlimited e = pure value)
    (hconstants : Expr.constants? table es = some constants) :
    ∀ value ∈ constants, value.IsInteger := by
  have hall := (evalAll_keeps keeps frame hframe).1
  rw [evalAll_constants each hconstants, Effect.run_pure] at hall
  exact hall.2

/-- An operation whose last operand is another one on constants. -/
theorem eval_gathered {operator : Operator} {es constants : List Expr} {values : List Value}
    (h : evalAll env .unlimited constants = pure values) :
    eval env .unlimited (.operation operator (es ++ [.operation operator constants])) =
      evalAll env .unlimited es >>= fun others =>
        Effect.ofExcept (operator.apply values) >>= fun joined =>
          Effect.ofExcept (operator.apply (others ++ [joined])) := by
  rw [eval_operation, evalAll_append_singleton, eval_operation, h]
  simp [bind_assoc]

/-- Gathering the constants of a sum or product of integers changes nothing. -/
theorem gather_same {operator : Operator} {parts : List Expr}
    (keeps : ∀ e ∈ parts, Keeps Value.IsInteger fine Value.IsInteger (eval env .unlimited e))
    (each : ∀ e ∈ parts, ∀ value, e.constant? table = some value →
      eval env .unlimited e = pure value) :
    Same Value.IsInteger (eval env .unlimited (Expr.gather table operator parts))
      (eval env .unlimited (.operation operator parts)) := by
  unfold Expr.gather
  split
  next hmixed =>
    obtain ⟨commutes, hmany, e, member, hopen⟩ := hmixed
    intro frame hframe
    have hsub {p : Expr → Bool} : ∀ e ∈ parts.filter p, e ∈ parts :=
      fun e member => List.mem_of_mem_filter member
    obtain ⟨constants, hconstants⟩ :=
      @Expr.exists_constants table (parts.filter (·.isConstant table)) (by simp)
    have hpairs := Expr.constants?_eq_some.mp hconstants
    have hintegers := constants_keep frame hframe (fun e member => keeps e (hsub e member))
      (fun e member => each e (hsub e member)) hconstants
    obtain ⟨weave, hperm, hweave⟩ := evalAll_eq_weave each hpairs
    have hgathered : evalAll env .unlimited (parts.filter (·.isConstant table)) = pure constants :=
      evalAll_constants (fun e member => each e (hsub e member)) hconstants
    have hright : eval env .unlimited (.operation operator parts) =
        evalAll env .unlimited (parts.filter (!·.isConstant table)) >>= fun values =>
          Effect.ofExcept (operator.apply (weave values)) := by
      rw [eval_operation, hweave]
      simp
    rw [eval_gathered hgathered, hright]
    refine Same.bind (.refl _) (evalAll_keeps fun e member => keeps e (hsub e member))
      (fun values hvalues => ?_) frame hframe
    have hsome : values ≠ [] := by
      rw [← List.length_pos_iff, hvalues.1]
      exact List.length_pos_of_mem (List.mem_filter.mpr ⟨member, by simp [hopen]⟩)
    obtain ⟨joined, hjoined, heq⟩ := Operator.apply_gathered commutes hvalues.2 hintegers hsome
      (hpairs.length_eq ▸ hmany) (hperm values hvalues.1)
    rw [hjoined, Effect.ofExcept_ok, pure_bind, heq]
    exact .refl _
  next => exact .refl _

/-- Regrouping a tree of integers changes nothing. -/
theorem regroup_same (supplies : env.Supplies Value.IsInteger fine)
    (hfine : ∀ fault : Fault, fault.isEvaluation → fine fault) {e : Expr}
    (shape : e.Everywhere Expr.InShape) (closed : e.Everywhere (Expr.IsClosed Value.IsInteger)) :
    Same Value.IsInteger (eval env .unlimited (e.regroup .empty)) (eval env .unlimited e) := by
  have constant_eval (e : Expr) (value : Value) (h : e.constant? .empty = some value) :
      eval env .unlimited e = pure value :=
    eval_constant (fun node _ => PureTable.below_empty env.functions node) h
  have keeps {es : List Expr} (hshape : ∀ e ∈ es, e.Everywhere Expr.InShape)
      (hclosed : ∀ e ∈ es, e.Everywhere (Expr.IsClosed Value.IsInteger)) : ∀ e ∈ es,
      Keeps Value.IsInteger fine Value.IsInteger (eval env .unlimited e) :=
    fun e member => eval_keeps supplies hfine (hshape e member) (hclosed e member)
  induction e using Expr.inductionOn with
  | operation operator operands ih =>
    rw [Expr.everywhere_operation] at shape closed
    have hkeeps := keeps shape.2 closed.2
    have hsame := fun e member => ih e member (shape.2 e member) (closed.2 e member)
    rw [Expr.regroup, Expr.regroupAll_eq_map]
    -- the regrouped operands keep to integers because they do what the operands do
    have hregrouped : ∀ e ∈ operands.map (Expr.regroup .empty),
        Keeps Value.IsInteger fine Value.IsInteger (eval env .unlimited e) := by
      intro e member
      obtain ⟨original, horiginal, rfl⟩ := List.mem_map.mp member
      exact (hkeeps original horiginal).of_same (hsame original horiginal)
    refine (gather_same hregrouped fun e _ => constant_eval e).trans ?_
    have hall := evalAll_same hkeeps hsame
    rw [eval_operation, eval_operation]
    exact hall.bind ((evalAll_keeps hkeeps).of_same hall) fun values _ => .refl _
  | call name arguments ih =>
    rw [Expr.everywhere_call] at shape closed
    have hkeeps := keeps shape.2 closed.2
    have hall := evalAll_same hkeeps fun e member =>
      ih e member (shape.2 e member) (closed.2 e member)
    rw [Expr.regroup, Expr.regroupAll_eq_map]
    cases hname : env.functions name with
    | none =>
      rw [eval_call_unknown hname, eval_call_unknown hname]
      exact .refl _
    | some callee =>
      rw [eval_call hname, eval_call hname]
      exact hall.bind ((evalAll_keeps hkeeps).of_same hall) fun values _ => .refl _
  | block statements ih =>
    rw [Expr.everywhere_block] at shape closed
    rw [Expr.regroup, Expr.regroupAll_eq_map, eval_block, eval_block]
    exact evalStatements_same (keeps shape.2 closed.2)
      (fun e member => ih e member (shape.2 e member) (closed.2 e member)) .none
  | number value | reference name | assignment target value | unknown => exact .refl _

/-- Optimizing a tree of integers, without functions of the optimizer's table, changes neither its
value nor its fault nor any effect, wherever the tree fits; without a limit each one does. -/
theorem evaluate_optimize_integers {e : Expr} (fits : e.Fits room)
    (shape : e.Everywhere Expr.InShape) (integral : e.Everywhere Expr.IsIntegral)
    (outside : e.Everywhere (Expr.IsOutside folding.functions)) :
    ∃ folded, (optimize folding room e).Returns folded ∧
      ∀ env : Environment σ, env.Supplies Value.IsInteger (fun _ => True) →
        ∀ frame, frame.store.All Value.IsInteger →
          (evaluate env room folded).run frame = (evaluate env room e).run frame ∧
            Meets Value.IsInteger (fun _ => True) ((evaluate env room e).run frame).1 := by
  have closed := integral.mono Expr.isClosed_of_isIntegral
  have calls : e.Everywhere (PureTable.empty.Matches folding.functions) := by
    refine outside.mono fun node hnode => ?_
    cases node with
    | call name arguments => exact Option.isNone_iff_eq_none.mp hnode
    | _ => trivial
  obtain ⟨folded, returns, -⟩ := fold_returns (fun _ _ found => by simp [PureTable.empty] at found)
    calls shape closed
  refine ⟨folded, ?_, fun env supplies frame hframe => ?_⟩
  · rw [optimize, fold_of_fits fits]
    exact optimize_returns returns
  · have yields := Folding.yields_of_returns returns frame.host
    have mirrors := mirrors_regroup calls
      (fun node _ => PureTable.below_empty env.functions node) yields
    have hsame := regroup_same supplies (fun _ _ => trivial) shape closed
    have hkeeps := eval_keeps supplies (fun _ _ => trivial) shape closed
    rw [evaluate, evaluate, eval_of_fits fits, eval_of_fits (fits_of_yields fits yields),
      mirrors.eval_eq]
    rw [Effect.run_boundDepth, Effect.run_boundDepth, hsame frame hframe]
    exact ⟨rfl, (hkeeps frame hframe).1.boundDepth fun _ _ => trivial⟩

/-- An environment whose only function returns how often it was called. -/
def tallyEnvironment : Environment Nat where
  overrides := .ofList [("y", .int 5)]
  functions := fun name =>
    if name = "tally" then
      some (.function fun _ => do
        modify (· + 1)
        let calls ← get
        return .int calls)
    else none
  missing := undefinedVariable

theorem tallyEnvironment_supplies : tallyEnvironment.Supplies Value.IsInteger (fun _ => True) where
  overrides := by
    intro name value found
    rw [tallyEnvironment, Store.ofList, List.foldl_cons, List.foldl_nil, Store.get?_set] at found
    split at found
    next => exact Option.some.inj found ▸ rfl
    next => simp at found
  functions := by
    intro name callee found arguments _ host
    simp only [tallyEnvironment] at found
    split at found
    next =>
      cases found
      rfl
    next => simp at found
  missing := fun _ _ => trivial

/-- The tree of `x = 2 * tally() * 3; 1 + x + 2 - y`, with integers. -/
def tallyTree : Expr :=
  .block [.assignment (.variable "x") (.operation .multiply
      [.number (.int 2), .call "tally" [], .number (.int 3)]),
    .operation .add [.number (.int 1), .variable "x", .number (.int 2),
      .operation .negate [.variable "y"]]]

/-- Folding with the functions of the registry, which has none of that name. -/
def tallyFolding : Folding Nat :=
  ⟨Registry.standard.callee?, fun _ host => host⟩

theorem evaluate_optimize_integers_tally :
    tallyTree.Fits .standard ∧ tallyTree.Everywhere Expr.InShape ∧
      tallyTree.Everywhere Expr.IsIntegral ∧
      tallyTree.Everywhere (Expr.IsOutside tallyFolding.functions) ∧
      ∃ folded, (optimize tallyFolding .standard tallyTree).Returns folded ∧
        (evaluate tallyEnvironment .standard folded).run ⟨∅, 0⟩ =
          (evaluate tallyEnvironment .standard tallyTree).run ⟨∅, 0⟩ := by
  have fits : tallyTree.Fits .standard := by decide
  have shape : tallyTree.Everywhere Expr.InShape := by decide
  have integral : tallyTree.Everywhere Expr.IsIntegral := by decide
  have outside : tallyTree.Everywhere (Expr.IsOutside tallyFolding.functions) := by decide
  obtain ⟨folded, returns, agrees⟩ := evaluate_optimize_integers fits shape integral outside
  exact ⟨fits, shape, integral, outside, folded, returns,
    (agrees tallyEnvironment tallyEnvironment_supplies ⟨∅, 0⟩ Store.all_empty).1⟩

end Formula
