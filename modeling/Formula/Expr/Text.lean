import Formula.Expr
import Formula.Fault
import Formula.Room
import Formula.Text.Quoted

namespace Formula

namespace Expr

/-- The name under which a value is assigned. A call has a name too. -/
def targetName : Expr → Except Fault String
  | .variable name => .ok name
  | .call name _ => .ok name
  | target => .error (.targetWithoutName target.kind)

def descend (room : Room) : Except Fault Room :=
  match room.enter? price.printing with
  | some inner => .ok inner
  | none => .error .stackExhausted

mutual

/-- The compact form of a tree. -/
def text (room : Room) : Expr → Except Fault String
  | .number value => .ok value.text
  | .variable name => .ok name
  | .operation operator operands => do
    let inner ← descend room
    let parts ← textAll inner operands
    return operator.symbol ++ "(" ++ ", ".intercalate parts ++ ")"
  | .assignment target value => do
    let inner ← descend room
    let name ← target.targetName
    let written ← text inner value
    return name ++ " = " ++ written
  | .call name arguments => do
    let inner ← descend room
    let parts ← textAll inner arguments
    return name ++ "(" ++ ", ".intercalate parts ++ ")"
  | .block statements => do
    let inner ← descend room
    let parts ← textAll inner statements
    return "; ".intercalate parts
  | .unknown => .error .unprintableNode

def textAll (room : Room) : List Expr → Except Fault (List String)
  | [] => .ok []
  | first :: rest => do
    let written ← text room first
    let others ← textAll room rest
    return written :: others

end

mutual

/-- The verbose form of a tree. -/
def literal : Expr → String
  | .number value => "Number(value=" ++ value.literal ++ ")"
  | .variable name => "Variable(name=" ++ Text.quoted name ++ ")"
  | .operation operator operands =>
    "BinaryOp(operator=" ++ Text.quoted operator.symbol ++ ", operands=[" ++
      ", ".intercalate (literals operands) ++ "])"
  | .assignment target value =>
    "Assignment(target=" ++ literal target ++ ", value=" ++ literal value ++ ")"
  | .call name arguments =>
    "FunctionCall(name=" ++ Text.quoted name ++ ", arguments=[" ++
      ", ".intercalate (literals arguments) ++ "])"
  | .block statements => "Block(statements=[" ++ ", ".intercalate (literals statements) ++ "])"
  | .unknown => "ASTNode()"

def literals : List Expr → List String
  | [] => []
  | first :: rest => literal first :: literals rest

end

end Expr

end Formula
