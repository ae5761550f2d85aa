import Formula.Proofs.Fold.Constant
import Formula.Proofs.Function.Recorded

namespace Formula

open Formula.Expr

variable {σ : Type} {folding : Folding σ}

namespace Folding

/-- Folding with functions that write down what they are called with. -/
def recorded (folding : Folding σ) : Folding (Recorded σ) where
  functions name := (folding.functions name).map fun callee =>
    callee.recorded (.registered name callee)
  note note before := { before with host := folding.note note before.host }

theorem functions_recorded (folding : Folding σ) (name : String) :
    folding.recorded.functions name =
      (folding.functions name).map fun callee => callee.recorded (.registered name callee) := rfl

/-- The calls of functions that folding may use. -/
def Calls (folding : Folding σ) (event : Event σ) : Prop :=
  ∃ name callee arguments, folding.functions name = some callee ∧
    event = .registered name callee arguments

/-- Evaluating a node of numbers in terms of the effect that it comes to. -/
theorem evaluateConstant_eq {node : Expr} {x : Effect σ Value}
    (h : eval folding.environment .unlimited node = Run.ofHost x) :
    folding.evaluateConstant node =
      (x.boundDepth >>= fun value => pure (.number value)).orElse fun fault =>
        if fault.isEvaluation then
          modify (folding.note (.notFolded node fault)) >>= fun _ => pure node
        else throw fault := by
  ext1
  funext host
  have hrun : (evaluate folding.environment .unlimited node).run ⟨∅, host⟩ =
      ((x.boundDepth.run host).1, ⟨∅, (x.boundDepth.run host).2⟩) := by
    rw [evaluate, h, Effect.run_boundDepth, Effect.run_boundDepth]
    rfl
  simp only [evaluateConstant, hrun, Effect.orElse, Effect.run_bind]
  rcases x.boundDepth.run host with ⟨fault | value, after⟩
  · dsimp only
    split <;> rfl
  · rfl

/-- Evaluating a node of numbers calls what its effect calls. -/
theorem records_evaluateConstant {node : Expr} {x : Effect σ Value} {y : Effect (Recorded σ) Value}
    (hx : eval folding.environment .unlimited node = Run.ofHost x)
    (hy : eval folding.recorded.environment .unlimited node = Run.ofHost y)
    (h : Records folding.Calls x y) :
    Records folding.Calls (folding.evaluateConstant node)
      (folding.recorded.evaluateConstant node) := by
  rw [evaluateConstant_eq hx, evaluateConstant_eq hy]
  refine (h.boundDepth.bind fun value => .pure _).orElse fun fault => ?_
  split
  · exact (Records.onHost _).bind fun _ => .pure _
  · exact .throw _

theorem records_evaluateConstant_operation (operator : Operator) {operands : List Expr}
    (hall : operands.all isNumber = true) :
    Records folding.Calls (folding.evaluateConstant (.operation operator operands))
      (folding.recorded.evaluateConstant (.operation operator operands)) := by
  obtain ⟨values, rfl⟩ := exists_numbers hall
  exact records_evaluateConstant
    ((eval_operation_numbers operator).trans (ofHost_ofExcept _).symm)
    ((eval_operation_numbers operator).trans (ofHost_ofExcept _).symm) (.ofExcept _)

theorem records_evaluateConstant_block {statements : List Expr}
    (hall : statements.all isNumber = true) :
    Records folding.Calls (folding.evaluateConstant (.block statements))
      (folding.recorded.evaluateConstant (.block statements)) := by
  obtain ⟨values, rfl⟩ := exists_numbers hall
  exact records_evaluateConstant (eval_block_numbers.trans (ofHost_ofExcept _).symm)
    (eval_block_numbers.trans (ofHost_ofExcept _).symm) (.ofExcept _)

/-- The one call that evaluating a call of numbers makes is that of its function. -/
theorem records_evaluateConstant_call {name : String} {callee : Callee σ} {arguments : List Expr}
    (hcallee : folding.functions name = some callee) (hall : arguments.all isNumber = true) :
    Records folding.Calls (folding.evaluateConstant (.call name arguments))
      (folding.recorded.evaluateConstant (.call name arguments)) := by
  obtain ⟨values, rfl⟩ := exists_numbers hall
  have hrecorded : folding.recorded.environment.functions name =
      some (callee.recorded (.registered name callee)) :=
    (functions_recorded folding name).trans (by rw [hcallee, Option.map_some])
  refine records_evaluateConstant (x := callee.call name values) ?_ ?_
    (.call (fun arguments => ⟨name, callee, arguments, hcallee, rfl⟩) name values)
  · rw [eval_call (show folding.environment.functions name = some callee from hcallee),
      evalAll_numbers, pure_bind]
  · rw [eval_call hrecorded, evalAll_numbers, pure_bind]

theorem records_join (operator : Operator) (operands : List Expr) :
    Records folding.Calls (folding.join operator operands)
      (folding.recorded.join operator operands) := by
  unfold join
  dsimp only
  split
  · exact .pure _
  · refine (records_evaluateConstant_operation operator (by simp)).bind fun constant => ?_
    split
    · exact (Records.onHost _).bind fun _ => .pure _
    · exact .pure _

theorem records_foldNode {node : Expr}
    (hconstant : node.children.all isNumber = true →
      Records folding.Calls (folding.evaluateConstant node)
        (folding.recorded.evaluateConstant node)) :
    Records folding.Calls (folding.foldNode node) (folding.recorded.foldNode node) := by
  unfold foldNode
  split
  next hall => exact hconstant hall
  next =>
    cases node with
    | operation operator operands =>
      dsimp only
      split
      · exact records_join operator operands
      · exact .pure _
    | _ => exact .pure _

theorem records_foldAll {room : Room} {es : List Expr}
    (each : ∀ e ∈ es, Records folding.Calls (fold folding room e) (fold folding.recorded room e)) :
    Records folding.Calls (foldAll folding room es) (foldAll folding.recorded room es) := by
  induction es with
  | nil => exact .pure _
  | cons first rest ih =>
    obtain ⟨hfirst, hrest⟩ := List.forall_mem_cons.mp each
    rw [foldAll, foldAll]
    exact hfirst.bind fun _ => (ih hrest).bind fun _ => .pure _

end Folding

/-- Folding any tree in any room calls only functions that it may use. -/
theorem records_fold (e : Expr) (room : Room) :
    Records folding.Calls (fold folding room e) (fold folding.recorded room e) := by
  induction e using Expr.inductionOn generalizing room with
  | number value | reference name | assignment target value => exact .pure _
  | unknown => exact .throw _
  | operation operator operands ih =>
    rw [fold, fold]
    refine (Records.descend room _).bind fun inner => ?_
    refine (Folding.records_foldAll fun e member => ih e member inner).bind fun parts => ?_
    exact Folding.records_foldNode (Folding.records_evaluateConstant_operation operator)
  | call name arguments ih =>
    rw [fold, fold]
    refine (Records.descend room _).bind fun inner => ?_
    refine (Folding.records_foldAll fun e member => ih e member inner).bind fun parts => ?_
    rw [Folding.functions_recorded, Option.isNone_map]
    split
    next => exact .pure _
    next hsome =>
      obtain ⟨callee, hcallee⟩ := Option.ne_none_iff_exists'.mp (by simpa using hsome)
      exact Folding.records_foldNode (Folding.records_evaluateConstant_call hcallee)
  | block statements ih =>
    rw [fold, fold]
    refine (Records.descend room _).bind fun inner => ?_
    refine (Folding.records_foldAll fun e member => ih e member inner).bind fun parts => ?_
    exact Folding.records_foldNode Folding.records_evaluateConstant_block

theorem records_optimize (e : Expr) (room : Room) :
    Records folding.Calls (optimize folding room e) (optimize folding.recorded room e) :=
  (records_fold e room).boundDepth

end Formula
