import Formula.Expr

namespace Formula

namespace Expr

mutual

/-- Whether two trees are the same. -/
def same : Expr → Expr → Bool
  | .number x, .number y => x == y
  | .variable name, .variable other => name == other
  | .operation operator operands, .operation operator' operands' =>
    operator == operator' && sameAll operands operands'
  | .assignment target value, .assignment target' value' => same target target' && same value value'
  | .call name arguments, .call name' arguments' => name == name' && sameAll arguments arguments'
  | .block statements, .block statements' => sameAll statements statements'
  | .unknown, .unknown => true
  | _, _ => false

def sameAll : List Expr → List Expr → Bool
  | [], [] => true
  | first :: rest, other :: others => same first other && sameAll rest others
  | _, _ => false

end

mutual

theorem same_iff : ∀ a b : Expr, same a b = true ↔ a = b
  | .number _, b => by cases b <;> simp [same]
  | .variable _, b => by cases b <;> simp [same]
  | .operation _ operands, b => by cases b <;> simp [same, sameAll_iff operands]
  | .assignment target value, b => by cases b <;> simp [same, same_iff target, same_iff value]
  | .call _ arguments, b => by cases b <;> simp [same, sameAll_iff arguments]
  | .block statements, b => by cases b <;> simp [same, sameAll_iff statements]
  | .unknown, b => by cases b <;> simp [same]

theorem sameAll_iff : ∀ a b : List Expr, sameAll a b = true ↔ a = b
  | [], b => by cases b <;> simp [sameAll]
  | first :: rest, b => by cases b <;> simp [sameAll, same_iff first, sameAll_iff rest]

end

instance : DecidableEq Expr := fun a b => decidable_of_iff _ (same_iff a b)

end Expr

end Formula
