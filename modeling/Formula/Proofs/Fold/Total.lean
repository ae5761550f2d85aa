import Formula.Proofs.Eval.Closure
import Formula.Proofs.Fold.Cases

namespace Formula

variable {σ : Type} {good : Value → Prop} {table : PureTable} {folding : Folding σ}

/-- Whether the functions of a table return good values for good arguments. -/
def PureTable.IsClosed (table : PureTable) (good : Value → Prop) : Prop :=
  ∀ name function, table name = some function → ∀ arguments : List Value,
    (∀ value ∈ arguments, good value) → ∀ value, function arguments = .ok value → good value

theorem callOutcome_meets {name : String} {function : List Value → Except Fault Value}
    {arguments : List Value} (h : ∀ value, function arguments = .ok value → good value) :
    Meets good (·.isEvaluation) (callOutcome name function arguments) := by
  rw [callOutcome]
  cases hresult : function arguments with
  | ok value => exact h value hresult
  | error fault =>
    simp only [Except.mapError, Meets]
    split
    next hevaluation => exact hevaluation
    next => rfl

theorem outermost_of_isEvaluation {fault : Fault} (h : fault.isEvaluation) :
    Effect.outermost fault = fault := by
  have hkind : fault.kind = .evaluation := by simpa [Fault.isEvaluation] using h
  simp [Effect.outermost, hkind]

namespace Expr

/-- Whether a tree is, if a number, a good one. -/
def IsGoodNumber (good : Value → Prop) (e : Expr) : Prop :=
  ∀ value, e = .number value → good value

theorem isGoodNumber_of_isNumber {e : Expr} (h : e.isNumber = false) : e.IsGoodNumber good := by
  rintro value rfl
  simp [isNumber] at h

theorem good_of_map_number {values : List Value}
    (h : ∀ e ∈ values.map Expr.number, e.IsGoodNumber good) : ∀ value ∈ values, good value :=
  fun value member => h (.number value) (List.mem_map_of_mem member) value rfl

end Expr

namespace Folding

variable {node : Expr} {operands : List Expr}

theorem evaluateConstant_returns {result : Except Fault Value}
    (hnode : eval folding.environment .unlimited node = Effect.ofExcept result)
    (hkind : node.isNumber = false) (hresult : Meets good (·.isEvaluation) result) :
    ∃ folded, (folding.evaluateConstant node).Returns folded ∧ folded.IsGoodNumber good := by
  cases result with
  | ok value =>
    refine ⟨.number value, fun host => ?_, ?_⟩
    · rw [run_evaluateConstant hnode]
      rfl
    · rintro _ ⟨⟩
      exact hresult
  | error fault =>
    have hevaluation : fault.isEvaluation = true := hresult
    refine ⟨node, fun host => ?_, Expr.isGoodNumber_of_isNumber hkind⟩
    rw [run_evaluateConstant hnode]
    simp [Except.mapError, outermost_of_isEvaluation hevaluation, hevaluation]

theorem evaluateConstant_operation_returns {operator : Operator}
    (closed : operator.IsClosed good) (takes : operator.Takes operands.length)
    (hall : operands.all Expr.isNumber = true) (hgood : ∀ e ∈ operands, e.IsGoodNumber good) :
    ∃ folded, (folding.evaluateConstant (.operation operator operands)).Returns folded ∧
      folded.IsGoodNumber good := by
  obtain ⟨values, rfl⟩ := Expr.exists_numbers hall
  exact evaluateConstant_returns (eval_operation_numbers operator) rfl
    (closed values (by simpa using takes) (Expr.good_of_map_number hgood))

theorem foldNode_operation_returns {operator : Operator} (closed : operator.IsClosed good)
    (takes : operator.Takes operands.length) (hgood : ∀ e ∈ operands, e.IsGoodNumber good) :
    ∃ folded, (folding.foldNode (.operation operator operands)).Returns folded ∧
      folded.IsGoodNumber good := by
  have stays : ∃ folded, (pure (.operation operator operands) : Effect σ Expr).Returns folded ∧
      folded.IsGoodNumber good :=
    ⟨_, .pure _, Expr.isGoodNumber_of_isNumber rfl⟩
  unfold foldNode
  split
  next hall => exact evaluateConstant_operation_returns closed takes hall hgood
  next =>
    dsimp only
    split
    next hcomm =>
      unfold join
      dsimp only
      split
      next => exact stays
      next hmany =>
        have hconstants : operator.Takes (operands.filter Expr.isNumber).length := by
          cases operator with
          | add | multiply =>
            show 1 ≤ (operands.filter Expr.isNumber).length
            omega
          | _ => simp [Operator.isCommutative] at hcomm
        have hfilter : ∀ e ∈ operands.filter Expr.isNumber, e.IsGoodNumber good :=
          fun e member => hgood e (List.mem_of_mem_filter member)
        obtain ⟨constant, hconstant, -⟩ :=
          @evaluateConstant_operation_returns σ good folding _ _ closed hconstants (by simp) hfilter
        refine ⟨if constant.isNumber then
          .operation operator (operands.filter (!·.isNumber) ++ [constant])
          else .operation operator operands, hconstant.bind ?_, ?_⟩
        · split
          · exact fun _ => rfl
          · exact .pure _
        · split <;> exact Expr.isGoodNumber_of_isNumber rfl
    next => exact stays

theorem foldNode_block_returns (nonempty : operands ≠ [])
    (hgood : ∀ e ∈ operands, e.IsGoodNumber good) :
    ∃ folded, (folding.foldNode (.block operands)).Returns folded ∧ folded.IsGoodNumber good := by
  unfold foldNode
  split
  next hall =>
    have hall : operands.all Expr.isNumber = true := hall
    obtain ⟨values, rfl⟩ := Expr.exists_numbers hall
    have hvalues : values ≠ [] := by simpa using nonempty
    have hlast : good (values.getLastD .none) := by
      rw [List.getLastD_eq_getLast?, List.getLast?_eq_some_getLast hvalues]
      exact Expr.good_of_map_number hgood _ (List.getLast_mem hvalues)
    exact evaluateConstant_returns eval_block_numbers rfl hlast
  next => exact ⟨_, .pure _, Expr.isGoodNumber_of_isNumber rfl⟩

theorem foldNode_call_returns {name : String} {function : List Value → Except Fault Value}
    (hfolding : folding.functions name = some (.pureFunction function))
    (hfunction : ∀ arguments : List Value, (∀ value ∈ arguments, good value) →
      ∀ value, function arguments = .ok value → good value)
    (hgood : ∀ e ∈ operands, e.IsGoodNumber good) :
    ∃ folded, (folding.foldNode (.call name operands)).Returns folded ∧
      folded.IsGoodNumber good := by
  unfold foldNode
  split
  next hall =>
    have hall : operands.all Expr.isNumber = true := hall
    obtain ⟨values, rfl⟩ := Expr.exists_numbers hall
    have found : folding.environment.functions name = some (.pureFunction function) := hfolding
    exact evaluateConstant_returns (eval_call_numbers found) rfl
      (callOutcome_meets (hfunction values (Expr.good_of_map_number hgood)))
  next => exact ⟨_, .pure _, Expr.isGoodNumber_of_isNumber rfl⟩

theorem foldAll_returns {es : List Expr}
    (each : ∀ e ∈ es, ∃ folded, (fold folding .unlimited e).Returns folded ∧
      folded.IsGoodNumber good) :
    ∃ operands, (foldAll folding .unlimited es).Returns operands ∧
      operands.length = es.length ∧ ∀ e ∈ operands, e.IsGoodNumber good := by
  induction es with
  | nil => exact ⟨[], .pure _, rfl, by simp⟩
  | cons first rest ih =>
    obtain ⟨⟨folded, hfolded, hgood⟩, hrest⟩ := List.forall_mem_cons.mp each
    obtain ⟨others, hothers, hlength, hall⟩ := ih hrest
    refine ⟨folded :: others, ?_, by simp [hlength], List.forall_mem_cons.mpr ⟨hgood, hall⟩⟩
    rw [foldAll]
    exact hfolded.bind (hothers.bind (.pure _))

end Folding

/-- Folding a tree in shape yields a tree, the same one for every state of the host. -/
theorem fold_returns {e : Expr} (functions : table.IsClosed good)
    (calls : e.Everywhere (table.Matches folding.functions)) (shape : e.Everywhere Expr.InShape)
    (closed : e.Everywhere (Expr.IsClosed good)) :
    ∃ folded, (fold folding .unlimited e).Returns folded ∧ folded.IsGoodNumber good := by
  induction e using Expr.inductionOn with
  | number value =>
    rw [Expr.everywhere_number] at closed
    refine ⟨_, .pure _, ?_⟩
    rintro _ ⟨⟩
    exact closed
  | reference name => exact ⟨_, .pure _, Expr.isGoodNumber_of_isNumber rfl⟩
  | operation operator operands ih =>
    rw [Expr.everywhere_operation] at calls shape closed
    obtain ⟨parts, hparts, hlength, hgood⟩ := Folding.foldAll_returns fun e member =>
      ih e member (calls.2 e member) (shape.2 e member) (closed.2 e member)
    have takes : operator.Takes parts.length := hlength ▸ shape.1
    obtain ⟨folded, hfolded, hnumber⟩ := Folding.foldNode_operation_returns closed.1 takes hgood
    exact ⟨folded, hparts.bind hfolded, hnumber⟩
  | assignment target value _ _ => exact ⟨_, .pure _, Expr.isGoodNumber_of_isNumber rfl⟩
  | call name arguments ih =>
    rw [Expr.everywhere_call] at calls shape closed
    obtain ⟨parts, hparts, -, hgood⟩ := Folding.foldAll_returns fun e member =>
      ih e member (calls.2 e member) (shape.2 e member) (closed.2 e member)
    have hname : folding.functions name = (table name).map .pureFunction := calls.1
    cases hentry : table name with
    | none =>
      refine ⟨.call name parts, ?_, Expr.isGoodNumber_of_isNumber rfl⟩
      rw [fold_call, hname, hentry]
      exact hparts.bind (.pure _)
    | some function =>
      rw [hentry] at hname
      obtain ⟨folded, hfolded, hnumber⟩ :=
        Folding.foldNode_call_returns hname (functions name function hentry) hgood
      refine ⟨folded, ?_, hnumber⟩
      rw [fold_call, hname]
      exact hparts.bind hfolded
  | block statements ih =>
    rw [Expr.everywhere_block] at calls shape closed
    obtain ⟨parts, hparts, hlength, hgood⟩ := Folding.foldAll_returns fun e member =>
      ih e member (calls.2 e member) (shape.2 e member) (closed.2 e member)
    have nonempty : parts ≠ [] := by
      rw [← List.length_pos_iff, hlength, List.length_pos_iff]
      exact shape.1
    obtain ⟨folded, hfolded, hnumber⟩ := Folding.foldNode_block_returns nonempty hgood
    exact ⟨folded, hparts.bind hfolded, hnumber⟩
  | unknown => simp [Expr.InShape] at shape

theorem Folding.yields_of_returns {folding : Folding σ} {e folded : Expr}
    (returns : (fold folding .unlimited e).Returns folded) (host : σ) : folding.Yields e folded :=
  ⟨host, _, Prod.ext (returns host) rfl⟩

/-- What a whole tree is folded to where folding yields it from every state. -/
theorem optimize_returns {folding : Folding σ} {e folded : Expr}
    (returns : (fold folding .unlimited e).Returns folded) :
    (optimize folding .unlimited e).Returns folded := by
  intro host
  rw [optimize, Effect.run_boundDepth, returns host]
  rfl

end Formula
