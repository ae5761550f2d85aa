import Formula.Proofs.Expr.Nodes

namespace Formula

/-- The numbers of operands that an operator is made for. -/
def Operator.Takes : Operator → Nat → Prop
  | .add, count | .multiply, count => 1 ≤ count
  | .negate, count | .reciprocal, count => count = 1
  | .remainder, count | .power, count => count = 2
  | .other _, _ => False

instance : ∀ (operator : Operator) (count : Nat), Decidable (operator.Takes count)
  | .add, count | .multiply, count => inferInstanceAs (Decidable (1 ≤ count))
  | .negate, count | .reciprocal, count => inferInstanceAs (Decidable (count = 1))
  | .remainder, count | .power, count => inferInstanceAs (Decidable (count = 2))
  | .other _, _ => inferInstanceAs (Decidable False)

namespace Expr

/-- Whether a node has the parts that its kind asks for. -/
def InShape : Expr → Prop
  | .operation operator operands => operator.Takes operands.length
  | .assignment target _ => target.name?.isSome
  | .block statements => statements ≠ []
  | .unknown => False
  | _ => True

instance : DecidablePred InShape
  | .operation operator operands => inferInstanceAs (Decidable (operator.Takes operands.length))
  | .assignment target _ => inferInstanceAs (Decidable (target.name?.isSome = true))
  | .block statements => inferInstanceAs (Decidable (statements ≠ []))
  | .unknown => inferInstanceAs (Decidable False)
  | .number _ | .variable _ | .call .. => inferInstanceAs (Decidable True)

end Expr

end Formula
