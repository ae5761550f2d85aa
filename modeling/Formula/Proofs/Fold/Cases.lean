import Formula.Proofs.Fold.Constant

namespace Formula

variable {σ : Type}

namespace Folding

variable {folding : Folding σ} {node folded : Expr} {host after : σ}

/-- Evaluating a node of numbers whose value is a pure result replaces it by that value, or leaves
it where the result is a fault of evaluation. -/
theorem run_evaluateConstant {result : Except Fault Value}
    (h : eval folding.environment .unlimited node = Effect.ofExcept result) (host : σ) :
    (folding.evaluateConstant node).run host =
      match result.mapError Effect.outermost with
      | .ok value => (.ok (.number value), host)
      | .error fault =>
        if fault.isEvaluation then (.ok node, folding.note (.notFolded node fault) host)
        else (.error fault, host) := by
  have hrun : (evaluate folding.environment .unlimited node).run ⟨∅, host⟩ =
      (result.mapError Effect.outermost, ⟨∅, host⟩) := by
    rw [evaluate, h, Effect.run_boundDepth, Effect.run_ofExcept]
  cases hresult : result.mapError Effect.outermost with
  | ok value => simp [evaluateConstant, hrun, hresult]
  | error fault => simp [evaluateConstant, hrun, hresult]

theorem evaluateConstant_cases {result : Except Fault Value}
    (h : eval folding.environment .unlimited node = Effect.ofExcept result)
    (returns : (folding.evaluateConstant node).run host = (.ok folded, after)) :
    (∃ value, result = .ok value ∧ folded = .number value) ∨
      ∃ fault, result = .error fault ∧ (Effect.outermost fault).isEvaluation ∧ folded = node := by
  rw [run_evaluateConstant h] at returns
  cases result with
  | ok value => exact .inl ⟨value, rfl, Effect.eq_of_run_pure returns⟩
  | error fault =>
    simp only [Except.mapError] at returns
    split at returns
    next hf => exact .inr ⟨fault, rfl, hf, (Except.ok.inj (Prod.mk.inj returns).1).symm⟩
    next => simp at returns

/-- A node that is not made of numbers alone stays as it is, unless it is a sum or product with
several numbers. Those are evaluated by themselves and put behind the other operands. -/
theorem foldNode_cases (returns : (folding.foldNode node).run host = (.ok folded, after)) :
    (node.children.all Expr.isNumber = true ∧
      (folding.evaluateConstant node).run host = (.ok folded, after)) ∨
    (node.children.all Expr.isNumber = false ∧ folded = node ∧
      ∀ operator operands, node = .operation operator operands → operator.isCommutative →
        (operands.filter Expr.isNumber).length ≤ 1) ∨
    ∃ operator operands constant between, node = .operation operator operands ∧
      operands.all Expr.isNumber = false ∧ operator.isCommutative ∧
      2 ≤ (operands.filter Expr.isNumber).length ∧
      (folding.evaluateConstant (.operation operator (operands.filter Expr.isNumber))).run host =
        (.ok constant, between) ∧
      folded = if constant.isNumber then
          .operation operator (operands.filter (!·.isNumber) ++ [constant])
        else node := by
  unfold foldNode at returns
  split at returns
  next hall => exact .inl ⟨hall, returns⟩
  next hall =>
    have hsome : node.children.all Expr.isNumber = false := by simpa using hall
    split at returns
    next operator operands =>
      split at returns
      next hcomm =>
        unfold join at returns
        dsimp only at returns
        split at returns
        next hfew =>
          refine .inr (.inl ⟨hsome, Effect.eq_of_run_pure returns, ?_⟩)
          rintro operator' operands' heq -
          cases heq
          exact hfew
        next hmany =>
          obtain ⟨constant, between, hconstant, hrest⟩ := Effect.exists_of_run_bind returns
          refine .inr (.inr ⟨operator, operands, constant, between, rfl, hsome, hcomm, by omega,
            hconstant, ?_⟩)
          split at hrest
          next hnumber =>
            obtain ⟨_, _, _, hlast⟩ := Effect.exists_of_run_bind hrest
            rw [if_pos hnumber]
            exact Effect.eq_of_run_pure hlast
          next hnumber =>
            rw [if_neg hnumber]
            exact Effect.eq_of_run_pure hrest
      next hcomm =>
        refine .inr (.inl ⟨hsome, Effect.eq_of_run_pure returns, ?_⟩)
        rintro operator' operands' heq hcomm'
        cases heq
        exact absurd hcomm' hcomm
    next hnode =>
      refine .inr (.inl ⟨hsome, Effect.eq_of_run_pure returns, ?_⟩)
      rintro operator operands heq -
      exact absurd heq (hnode operator operands)

/-- Whether folding a tree can yield another one. -/
def Yields (folding : Folding σ) (e folded : Expr) : Prop :=
  ∃ host after, (fold folding .unlimited e).run host = (.ok folded, after)

theorem forall₂_yields_of_foldAll {es operands : List Expr}
    (returns : (foldAll folding .unlimited es).run host = (.ok operands, after)) :
    List.Forall₂ folding.Yields es operands := by
  induction es generalizing operands host after with
  | nil =>
    rw [Effect.eq_of_run_pure returns]
    exact .nil
  | cons first rest ih =>
    rw [foldAll] at returns
    obtain ⟨folded, between, hfirst, hnext⟩ := Effect.exists_of_run_bind returns
    obtain ⟨others, last, hrest, hlast⟩ := Effect.exists_of_run_bind hnext
    rw [Effect.eq_of_run_pure hlast]
    exact .cons ⟨host, between, hfirst⟩ (ih hrest)

namespace Yields

theorem eq_of_number {value : Value} (h : folding.Yields (.number value) folded) :
    folded = .number value := by
  obtain ⟨host, after, returns⟩ := h
  exact Effect.eq_of_run_pure returns

theorem eq_of_variable {name : String} (h : folding.Yields (.variable name) folded) :
    folded = .variable name := by
  obtain ⟨host, after, returns⟩ := h
  exact Effect.eq_of_run_pure returns

theorem eq_of_assignment {target value : Expr}
    (h : folding.Yields (.assignment target value) folded) : folded = .assignment target value := by
  obtain ⟨host, after, returns⟩ := h
  exact Effect.eq_of_run_pure returns

theorem not_unknown : ¬ folding.Yields .unknown folded := by
  rintro ⟨host, after, returns⟩
  simp [fold] at returns

theorem operation {operator : Operator} {operands : List Expr}
    (h : folding.Yields (.operation operator operands) folded) :
    ∃ parts host after, List.Forall₂ folding.Yields operands parts ∧
      (folding.foldNode (.operation operator parts)).run host = (.ok folded, after) := by
  obtain ⟨host, after, returns⟩ := h
  rw [fold_operation] at returns
  obtain ⟨parts, between, hparts, hnode⟩ := Effect.exists_of_run_bind returns
  exact ⟨parts, between, after, forall₂_yields_of_foldAll hparts, hnode⟩

/-- A call of a function that folding may not use keeps its place. -/
theorem call {name : String} {arguments : List Expr}
    (h : folding.Yields (.call name arguments) folded) :
    ∃ parts host after, List.Forall₂ folding.Yields arguments parts ∧
      (folding.functions name = none ∧ folded = .call name parts ∨
        (folding.functions name).isSome ∧
          (folding.foldNode (.call name parts)).run host = (.ok folded, after)) := by
  obtain ⟨host, after, returns⟩ := h
  rw [fold_call] at returns
  obtain ⟨parts, between, hparts, hnode⟩ := Effect.exists_of_run_bind returns
  refine ⟨parts, between, after, forall₂_yields_of_foldAll hparts, ?_⟩
  split at hnode
  next hnone => exact .inl ⟨Option.isNone_iff_eq_none.mp hnone, Effect.eq_of_run_pure hnode⟩
  next hsome => exact .inr ⟨Option.isSome_iff_ne_none.mpr (by simpa using hsome), hnode⟩

theorem block {statements : List Expr} (h : folding.Yields (.block statements) folded) :
    ∃ parts host after, List.Forall₂ folding.Yields statements parts ∧
      (folding.foldNode (.block parts)).run host = (.ok folded, after) := by
  obtain ⟨host, after, returns⟩ := h
  rw [fold_block] at returns
  obtain ⟨parts, between, hparts, hnode⟩ := Effect.exists_of_run_bind returns
  exact ⟨parts, between, after, forall₂_yields_of_foldAll hparts, hnode⟩

end Yields

end Folding

end Formula
