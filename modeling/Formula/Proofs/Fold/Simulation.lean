import Formula.Proofs.Fold.Cases
import Formula.Proofs.Fold.Regroup
import Formula.Proofs.Value.Sums

namespace Formula

variable {σ : Type} {table : PureTable} {env : Environment σ} {folding : Folding σ}

/-- A folded tree beside the one that it stands for. -/
structure Mirrors (table : PureTable) (env : Environment σ) (folded e : Expr) : Prop where
  eval_eq : eval env .unlimited folded = eval env .unlimited e
  constant : ∀ value, folded = .number value ↔ e.constant? table = some value

namespace Mirrors

variable {folded e : Expr} {operands parts : List Expr}

theorem isNumber_eq (h : Mirrors table env folded e) : folded.isNumber = e.isConstant table := by
  rw [Bool.eq_iff_iff, Expr.isConstant, Option.isSome_iff_exists]
  constructor
  · intro number
    cases folded with
    | number value => exact ⟨value, (h.constant value).mp rfl⟩
    | _ => simp [Expr.isNumber] at number
  · rintro ⟨value, hvalue⟩
    rw [(h.constant value).mpr hvalue]
    rfl

theorem number (value : Value) : Mirrors table env (.number value) (.number value) :=
  ⟨rfl, by simp [Expr.constant?]⟩

/-- A node that is no constant and has an effect-equal counterpart. -/
theorem ofOpen (heval : eval env .unlimited folded = eval env .unlimited e)
    (hfolded : folded.isNumber = false) (he : e.constant? table = none) :
    Mirrors table env folded e := by
  refine ⟨heval, fun value => ⟨?_, by simp [he]⟩⟩
  rintro rfl
  simp [Expr.isNumber] at hfolded

theorem evalAll_eq (h : List.Forall₂ (Mirrors table env) operands parts) :
    evalAll env .unlimited operands = evalAll env .unlimited parts := by
  induction h with
  | nil => rfl
  | cons first _ ih => rw [evalAll, evalAll, first.eval_eq, ih]

theorem evalStatements_eq (h : List.Forall₂ (Mirrors table env) operands parts) (before : Value) :
    evalStatements env .unlimited before operands =
      evalStatements env .unlimited before parts := by
  induction h generalizing before with
  | nil => rfl
  | cons first _ ih =>
    rw [evalStatements, evalStatements, first.eval_eq]
    exact congrArg _ (funext fun value => ih value)

theorem constants_eq {values : List Value}
    (h : List.Forall₂ (Mirrors table env) (values.map .number) parts) :
    Expr.constants? table parts = some values := by
  induction values generalizing parts with
  | nil =>
    cases h
    rfl
  | cons value values ih =>
    obtain ⟨part, rest, first, others, rfl⟩ := List.forall₂_cons_left_iff.mp h
    rw [Expr.constants?, (first.constant value).mp rfl, ih others]
    rfl

/-- Where one operand is no number its counterpart is not constant. -/
theorem constants_eq_none (h : List.Forall₂ (Mirrors table env) operands parts)
    (hsome : operands.all Expr.isNumber = false) : Expr.constants? table parts = none := by
  rw [Expr.constants?_eq_none]
  induction h with
  | nil => simp at hsome
  | @cons folded e _ _ first _ ih =>
    by_cases hnumber : folded.isNumber
    · obtain ⟨e', member, he'⟩ := ih (by simpa [hnumber] using hsome)
      exact ⟨e', List.mem_cons_of_mem _ member, he'⟩
    · refine ⟨e, by simp, ?_⟩
      rw [first.isNumber_eq] at hnumber
      simpa [Expr.isConstant] using hnumber

theorem filter {p q : Expr → Bool} (h : List.Forall₂ (Mirrors table env) operands parts)
    (hpq : ∀ folded e, Mirrors table env folded e → p folded = q e) :
    List.Forall₂ (Mirrors table env) (operands.filter p) (parts.filter q) := by
  induction h with
  | nil => exact .nil
  | cons first _ ih =>
    rw [List.filter_cons, List.filter_cons, hpq _ _ first]
    split
    · exact .cons first ih
    · exact ih

theorem filter_isNumber (h : List.Forall₂ (Mirrors table env) operands parts) :
    List.Forall₂ (Mirrors table env) (operands.filter Expr.isNumber)
      (parts.filter (·.isConstant table)) :=
  filter h fun _ _ mirrors => mirrors.isNumber_eq

theorem filter_not_isNumber (h : List.Forall₂ (Mirrors table env) operands parts) :
    List.Forall₂ (Mirrors table env) (operands.filter (!·.isNumber))
      (parts.filter (!·.isConstant table)) :=
  filter h fun _ _ mirrors => by rw [mirrors.isNumber_eq]

theorem all_isNumber (h : List.Forall₂ (Mirrors table env) operands parts) :
    operands.all Expr.isNumber = parts.all (·.isConstant table) := by
  induction h with
  | nil => rfl
  | cons first _ ih => rw [List.all_cons, List.all_cons, first.isNumber_eq, ih]

theorem isMixed_iff (operator : Operator) (h : List.Forall₂ (Mirrors table env) operands parts) :
    Expr.IsMixed table operator parts ↔ operator.isCommutative = true ∧
      2 ≤ (operands.filter Expr.isNumber).length ∧ operands.all Expr.isNumber = false := by
  rw [Expr.IsMixed, (filter_isNumber h).length_eq, all_isNumber h, List.all_eq_false]
  simp

/-- A node of numbers is replaced by its value or stays, and either is its counterpart. -/
theorem ofConstant {node : Expr} {result : Except Fault Value} {host after : σ}
    (hfolding : eval folding.environment .unlimited node = Effect.ofExcept result)
    (hnode : eval env .unlimited node = Effect.ofExcept result) (hkind : node.isNumber = false)
    (he : eval env .unlimited e = Effect.ofExcept result)
    (hconstant : e.constant? table = result.toOption)
    (returns : (folding.evaluateConstant node).run host = (.ok folded, after)) :
    Mirrors table env folded e := by
  rcases Folding.evaluateConstant_cases hfolding returns with
    ⟨value, rfl, rfl⟩ | ⟨fault, rfl, -, rfl⟩
  · exact ⟨he.symm, by simp [hconstant, Except.toOption]⟩
  · exact ofOpen (hnode.trans he.symm) hkind (by simp [hconstant, Except.toOption])

theorem ofConstantOperation {operator : Operator} {host after : σ}
    (h : List.Forall₂ (Mirrors table env) operands parts)
    (hall : operands.all Expr.isNumber = true)
    (returns : (folding.evaluateConstant (.operation operator operands)).run host =
      (.ok folded, after)) :
    Mirrors table env folded (.operation operator parts) := by
  obtain ⟨values, rfl⟩ := Expr.exists_numbers hall
  refine ofConstant (eval_operation_numbers operator) (eval_operation_numbers operator) rfl ?_ ?_
    returns
  · rw [eval_operation, ← evalAll_eq h, evalAll_numbers, pure_bind]
  · rw [Expr.constant?, constants_eq h]
    rfl

theorem ofConstantBlock {host after : σ} (h : List.Forall₂ (Mirrors table env) operands parts)
    (hall : operands.all Expr.isNumber = true)
    (returns : (folding.evaluateConstant (.block operands)).run host = (.ok folded, after)) :
    Mirrors table env folded (.block parts) := by
  obtain ⟨values, rfl⟩ := Expr.exists_numbers hall
  refine ofConstant eval_block_numbers eval_block_numbers rfl ?_ ?_ returns
  · rw [eval_block, ← evalStatements_eq h, evalStatements_numbers]
    rfl
  · rw [Expr.constant?, constants_eq h]
    rfl

theorem ofConstantCall {name : String} {function : List Value → Except Fault Value}
    {host after : σ} (h : List.Forall₂ (Mirrors table env) operands parts)
    (hall : operands.all Expr.isNumber = true) (hentry : table name = some function)
    (hfolding : folding.functions name = some (.pureFunction function))
    (henv : env.functions name = some (.pureFunction function))
    (returns : (folding.evaluateConstant (.call name operands)).run host = (.ok folded, after)) :
    Mirrors table env folded (.call name parts) := by
  obtain ⟨values, rfl⟩ := Expr.exists_numbers hall
  have found : folding.environment.functions name = some (.pureFunction function) := hfolding
  refine ofConstant (eval_call_numbers found) (eval_call_numbers henv) rfl ?_ ?_ returns
  · rw [eval_call henv, ← evalAll_eq h, evalAll_numbers, pure_bind, ofHost_pureFunction]
  · rw [Expr.constant?, hentry, constants_eq h]
    rfl

/-- A call, also of an unknown function. -/
theorem call_eq {name : String} (h : List.Forall₂ (Mirrors table env) operands parts) :
    eval env .unlimited (.call name operands) = eval env .unlimited (.call name parts) := by
  cases hname : env.functions name with
  | none => rw [eval_call_unknown hname, eval_call_unknown hname]
  | some callee => rw [eval_call hname, eval_call hname, evalAll_eq h]

/-- An operation that keeps its operands. -/
theorem operation (operator : Operator) (h : List.Forall₂ (Mirrors table env) operands parts)
    (hsome : operands.all Expr.isNumber = false) :
    Mirrors table env (.operation operator operands) (.operation operator parts) := by
  refine ofOpen ?_ rfl ?_
  · rw [eval_operation, eval_operation, evalAll_eq h]
  · rw [Expr.constant?, constants_eq_none h hsome]
    rfl

/-- The numbers of a sum or product always have a value of their own where they are joined. -/
theorem isNumber_of_joined {operator : Operator} {constants : List Expr} {host after : σ}
    (hall : constants.all Expr.isNumber = true) (commutes : operator.isCommutative)
    (returns : (folding.evaluateConstant (.operation operator constants)).run host =
      (.ok folded, after)) :
    folded.isNumber = true := by
  obtain ⟨values, rfl⟩ := Expr.exists_numbers hall
  rcases Folding.evaluateConstant_cases (eval_operation_numbers operator) returns with
    ⟨value, -, rfl⟩ | ⟨fault, hfault, he, -⟩
  · rfl
  · -- no fault of values is one of evaluation, so none leaves the group in place
    obtain ⟨hevaluation, hrecursion⟩ := Operator.apply_foreign commutes hfault
    simp [Effect.outermost, hrecursion, Fault.isEvaluation, hevaluation] at he

/-- One step of folding an operation mirrors gathering its constants. -/
theorem gather {operator : Operator} {host after : σ}
    (h : List.Forall₂ (Mirrors table env) operands parts)
    (returns : (folding.foldNode (.operation operator operands)).run host = (.ok folded, after)) :
    Mirrors table env folded (Expr.gather table operator parts) := by
  have hmixed := isMixed_iff operator h
  rcases Folding.foldNode_cases returns with ⟨hall, hconstant⟩ | ⟨hsome, rfl, hfew⟩ |
    ⟨operator', operands', constant, between, heq, hsome, hcomm, hmany, hconstant, rfl⟩
  · have hall : operands.all Expr.isNumber = true := hall
    rw [Expr.gather, if_neg fun h' => ?_]
    · exact ofConstantOperation h hall hconstant
    · simp [hall] at hmixed
      exact hmixed h'
  · rw [Expr.gather, if_neg fun h' => ?_]
    · exact operation operator h hsome
    · have := hfew operator operands rfl (hmixed.mp h').1
      have := (hmixed.mp h').2.1
      omega
  · cases heq
    rw [Expr.gather, if_pos (hmixed.mpr ⟨hcomm, hmany, hsome⟩)]
    have hnumbers : (operands.filter Expr.isNumber).all Expr.isNumber = true := by simp
    rw [if_pos (isNumber_of_joined hnumbers hcomm hconstant)]
    have hjoined := ofConstantOperation (filter_isNumber h) hnumbers hconstant
    have hparts := List.rel_append (filter_not_isNumber h) (.cons hjoined .nil)
    obtain ⟨e, member, he⟩ := List.all_eq_false.mp hsome
    refine operation operator hparts (List.all_eq_false.mpr ⟨e, ?_, he⟩)
    exact List.mem_append_left _ (List.mem_filter.mpr ⟨member, by simpa using he⟩)

/-- One step of folding a call of a function of the table. -/
theorem foldedCall {name : String} {function : List Value → Except Fault Value} {host after : σ}
    (h : List.Forall₂ (Mirrors table env) operands parts) (hentry : table name = some function)
    (hfolding : folding.functions name = some (.pureFunction function))
    (henv : env.functions name = some (.pureFunction function))
    (returns : (folding.foldNode (.call name operands)).run host = (.ok folded, after)) :
    Mirrors table env folded (.call name parts) := by
  rcases Folding.foldNode_cases returns with ⟨hall, hconstant⟩ | ⟨hopen, rfl, -⟩ |
    ⟨_, _, _, _, heq, _⟩
  · exact ofConstantCall h hall hentry hfolding henv hconstant
  · refine ofOpen (call_eq h) rfl ?_
    rw [Expr.constant?, constants_eq_none h hopen, hentry]
    rfl
  · cases heq

/-- One step of folding a block. -/
theorem foldedBlock {host after : σ} (h : List.Forall₂ (Mirrors table env) operands parts)
    (returns : (folding.foldNode (.block operands)).run host = (.ok folded, after)) :
    Mirrors table env folded (.block parts) := by
  rcases Folding.foldNode_cases returns with ⟨hall, hconstant⟩ | ⟨hopen, rfl, -⟩ |
    ⟨_, _, _, _, heq, _⟩
  · exact ofConstantBlock h hall hconstant
  · refine ofOpen ?_ rfl ?_
    · rw [eval_block, eval_block, evalStatements_eq h]
    · rw [Expr.constant?, constants_eq_none h hopen]
      rfl
  · cases heq

theorem regroupAll {es : List Expr} (yields : List.Forall₂ folding.Yields es operands)
    (each : ∀ e ∈ es, ∀ {folded}, folding.Yields e folded →
      Mirrors table env folded (e.regroup table)) :
    List.Forall₂ (Mirrors table env) operands (Expr.regroupAll table es) := by
  induction yields with
  | nil => exact .nil
  | cons first _ ih =>
    obtain ⟨hfirst, hrest⟩ := List.forall_mem_cons.mp each
    exact .cons (hfirst first) (ih hrest)

end Mirrors

/-- Whatever folding makes of a tree mirrors the regrouped tree. -/
theorem mirrors_regroup {e folded : Expr} (calls : e.Everywhere (table.Matches folding.functions))
    (serves : e.Everywhere (table.Below env.functions)) (yields : folding.Yields e folded) :
    Mirrors table env folded (e.regroup table) := by
  induction e using Expr.inductionOn generalizing folded with
  | number value =>
    rw [yields.eq_of_number]
    exact .number value
  | reference name =>
    rw [yields.eq_of_variable]
    exact .ofOpen rfl rfl rfl
  | operation operator operands ih =>
    rw [Expr.everywhere_operation] at calls serves
    obtain ⟨parts, host, after, hparts, hnode⟩ := yields.operation
    exact .gather (Mirrors.regroupAll hparts fun e member _ =>
      ih e member (calls.2 e member) (serves.2 e member)) hnode
  | assignment target value _ _ =>
    rw [yields.eq_of_assignment]
    exact .ofOpen rfl rfl rfl
  | call name arguments ih =>
    rw [Expr.everywhere_call] at calls serves
    obtain ⟨parts, host, after, hparts, hcases⟩ := yields.call
    have hentry : folding.functions name = table.callee? name := calls.1
    have each : List.Forall₂ (Mirrors table env) parts (Expr.regroupAll table arguments) :=
      Mirrors.regroupAll hparts fun e member _ =>
        ih e member (calls.2 e member) (serves.2 e member)
    rcases hcases with ⟨hnone, rfl⟩ | ⟨hsome, hnode⟩
    · -- the environment may have a function of that name all the same
      have hmissing : table name = none := by
        rw [hentry] at hnone
        simpa [PureTable.callee?] using hnone
      refine .ofOpen (Mirrors.call_eq each) rfl ?_
      rw [Expr.regroup, Expr.constant?, hmissing]
      rfl
    · obtain ⟨function, hfunction⟩ : ∃ function, table name = some function := by
        rw [hentry, PureTable.callee?, Option.isSome_map] at hsome
        exact Option.isSome_iff_exists.mp hsome
      have hfolding : folding.functions name = some (.pureFunction function) :=
        hentry.trans (PureTable.callee?_eq_some hfunction)
      exact .foldedCall each hfunction hfolding (serves.1 function hfunction) hnode
  | block statements ih =>
    rw [Expr.everywhere_block] at calls serves
    obtain ⟨parts, host, after, hparts, hnode⟩ := yields.block
    exact .foldedBlock (Mirrors.regroupAll hparts fun e member _ =>
      ih e member (calls.2 e member) (serves.2 e member)) hnode
  | unknown => exact absurd yields Folding.Yields.not_unknown

end Formula
