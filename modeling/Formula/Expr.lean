import Formula.Value

namespace Formula

/-- The operators of trees. A tree built by hand may carry a symbol that stands for none. -/
inductive Operator where
  | add
  | multiply
  | negate
  | reciprocal
  | remainder
  | power
  | other (symbol : String)
  deriving DecidableEq

namespace Operator

def symbol : Operator → String
  | .add => "+"
  | .multiply => "*"
  | .negate => "-"
  | .reciprocal => "/"
  | .remainder => "%"
  | .power => "^"
  | .other symbol => symbol

def ofSymbol (symbol : String) : Operator :=
  if symbol == "+" then .add
  else if symbol == "*" then .multiply
  else if symbol == "-" then .negate
  else if symbol == "/" then .reciprocal
  else if symbol == "%" then .remainder
  else if symbol == "^" then .power
  else .other symbol

/-- Whether the order of operands does not matter in exact arithmetic. -/
def isCommutative (operator : Operator) : Bool :=
  operator == .add || operator == .multiply

end Operator

/-- The tree of a formula. Sums and products have any number of operands; a difference is a sum with
a negated operand and a quotient a product with a reciprocal factor. -/
inductive Expr where
  | number (value : Value)
  | variable (name : String)
  | operation (operator : Operator) (operands : List Expr)
  | assignment (target value : Expr)
  | call (name : String) (arguments : List Expr)
  | block (statements : List Expr)
  /-- A node of no known kind. -/
  | unknown
  deriving Inhabited

namespace Expr

/-- The kinds of nodes, which error texts name. -/
inductive Kind where
  | number
  | variable
  | operation
  | assignment
  | call
  | block
  | unknown
  deriving DecidableEq, Repr

def Kind.name : Kind → String
  | .number => "Number"
  | .variable => "Variable"
  | .operation => "BinaryOp"
  | .assignment => "Assignment"
  | .call => "FunctionCall"
  | .block => "Block"
  | .unknown => "ASTNode"

def kind : Expr → Kind
  | .number _ => .number
  | .variable _ => .variable
  | .operation .. => .operation
  | .assignment .. => .assignment
  | .call .. => .call
  | .block _ => .block
  | .unknown => .unknown

def isNumber : Expr → Bool
  | .number _ => true
  | _ => false

/-- The direct parts of a node in the order in which they are evaluated. -/
def children : Expr → List Expr
  | .operation _ operands => operands
  | .assignment target value => [target, value]
  | .call _ arguments => arguments
  | .block statements => statements
  | _ => []

mutual

/-- A node and all nodes below it, each before its parts. -/
def nodes : Expr → List Expr
  | .number value => [.number value]
  | .variable name => [.variable name]
  | .operation operator operands => .operation operator operands :: nodesOf operands
  | .assignment target value => .assignment target value :: (target.nodes ++ value.nodes)
  | .call name arguments => .call name arguments :: nodesOf arguments
  | .block statements => .block statements :: nodesOf statements
  | .unknown => [.unknown]

def nodesOf : List Expr → List Expr
  | [] => []
  | first :: rest => first.nodes ++ nodesOf rest

end

def nodeCount (e : Expr) : Nat :=
  e.nodes.length

def name? : Expr → Option String
  | .variable name => some name
  | _ => none

/-- The names of all variables, assigned ones among them, as often and in the order as written. -/
def variableNames (e : Expr) : List String :=
  e.nodes.filterMap name?

mutual

/-- The number of levels of a tree. -/
def height : Expr → Nat
  | .operation _ operands => heightOf operands + 1
  | .assignment target value => max target.height value.height + 1
  | .call _ arguments => heightOf arguments + 1
  | .block statements => heightOf statements + 1
  | _ => 1

def heightOf : List Expr → Nat
  | [] => 0
  | first :: rest => max first.height (heightOf rest)

end

/-- `n` signs in front of an expression. -/
def negated : Nat → Expr → Expr
  | 0, e => e
  | n + 1, e => .operation .negate [negated n e]

end Expr

end Formula
