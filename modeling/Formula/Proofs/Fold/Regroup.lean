import Formula.Proofs.Fold.Constant

namespace Formula

namespace Expr

/-- Whether an operation has several constants beside other operands and may reorder them. -/
def IsMixed (table : PureTable) (operator : Operator) (operands : List Expr) : Prop :=
  operator.isCommutative ∧ 2 ≤ (operands.filter (·.isConstant table)).length ∧
    ∃ e ∈ operands, e.isConstant table = false

instance (table : PureTable) (operator : Operator) (operands : List Expr) :
    Decidable (IsMixed table operator operands) :=
  inferInstanceAs (Decidable (_ ∧ _ ∧ _))

/-- An operation with its constants, if it is mixed, as one operand behind the others. -/
def gather (table : PureTable) (operator : Operator) (operands : List Expr) : Expr :=
  if IsMixed table operator operands then
    .operation operator (operands.filter (!·.isConstant table) ++
      [.operation operator (operands.filter (·.isConstant table))])
  else .operation operator operands

mutual

/-- A tree with the constants of its sums and products gathered, outside of assignments. -/
def regroup (table : PureTable) : Expr → Expr
  | .operation operator operands => gather table operator (regroupAll table operands)
  | .call name arguments => .call name (regroupAll table arguments)
  | .block statements => .block (regroupAll table statements)
  | .number value => .number value
  | .variable name => .variable name
  | .assignment target value => .assignment target value
  | .unknown => .unknown

def regroupAll (table : PureTable) : List Expr → List Expr
  | [] => []
  | first :: rest => first.regroup table :: regroupAll table rest

end

variable {table : PureTable}

theorem regroupAll_eq_map (es : List Expr) : regroupAll table es = es.map (regroup table) := by
  induction es with
  | nil => rfl
  | cons first rest ih => rw [regroupAll, ih, List.map_cons]

end Expr

end Formula
