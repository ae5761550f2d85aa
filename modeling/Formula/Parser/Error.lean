import Formula.Token

namespace Formula

/-- Why a row of tokens is no formula. -/
inductive ParseFault where
  | tooDeep
  | empty
  | unopened
  | unclosed
  | notSeparated
  | missingOperator (left right : String)
  | notAssignable
  | expectedClosing (inCall : Bool)
  | dangling (operator : String)
  | successive (first second : String)
  | endOfInput
  | unexpected (token : String)
  deriving DecidableEq

structure ParseError where
  fault : ParseFault
  token : Token
  deriving DecidableEq

namespace ParseError

def position (error : ParseError) : Nat :=
  error.token.position

def reason (error : ParseError) : String :=
  match error.fault with
  | .tooDeep => "Expression nested too deeply"
  | .empty => "Empty expression"
  | .unopened => "Unbalanced ')'"
  | .unclosed => "Unbalanced '(': missing ')'"
  | .notSeparated => "Expected ';' between statements"
  | .missingOperator left right => s!"Missing operator between '{left}' and '{right}'"
  | .notAssignable => "Assignment to non-lvalue"
  | .expectedClosing inCall =>
    if inCall then "Expected ')' after arguments" else "Expected ')' after expression"
  | .dangling operator => s!"Dangling operator '{operator}'"
  | .successive first second => s!"Successive operators '{first}' and '{second}'"
  | .endOfInput => "Unexpected end of input"
  | .unexpected token => s!"Unexpected token '{token}'"

def message (error : ParseError) : String :=
  s!"{error.reason} at position {error.position}"

end ParseError

end Formula
