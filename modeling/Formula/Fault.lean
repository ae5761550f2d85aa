import Formula.Expr
import Formula.Fault.Kind
import Formula.Text.Quoted

namespace Formula

/-- How many arguments a function takes, with the words of its complaint. -/
inductive ArgumentRule where
  | exactlyOne (function : String)
  | oneOrTwo (function : String)
  | named (function : String) (parameters : List String)
  deriving DecidableEq

namespace ArgumentRule

def plural (n : Nat) (word : String) : String :=
  if n = 1 then word else word ++ "s"

/-- The complaint about a number of arguments that the rule does not allow. -/
def complaint (given : Nat) : ArgumentRule → String
  | exactlyOne function => s!"{function}() takes exactly one argument ({given} given)"
  | oneOrTwo function => s!"{function} requires 1 to 2 arguments"
  | named function parameters =>
    let expected := parameters.length
    if given < expected then
      let missing := parameters.drop given
      let names := ", ".intercalate (missing.map fun name => "'" ++ name ++ "'")
      let noun := plural missing.length "positional argument"
      s!"{function}() missing {missing.length} required {noun}: {names}"
    else
      let noun := plural expected "positional argument"
      let verb := if given = 1 then "was" else "were"
      s!"{function}() takes {expected} {noun} but {given} {verb} given"

end ArgumentRule

/-- Why a power has no float value although its operands have. -/
inductive PowerOverflow where
  | result
  | complexResult
  | operand
  deriving DecidableEq

/-- What can go wrong when formulas are evaluated, folded or compiled. -/
inductive Fault where
  | undefinedVariable (name : String)
  | unknownFunction (name : String)
  | unknownOperator (symbol : String)
  | unknownNode
  | badTarget (kind : Expr.Kind)
  | divisionByZero
  | remainderByZero
  | remainderNotFinite (reason : Binary.NotFinite)
  | zeroToNegativePower
  | powerOverflow (reason : PowerOverflow)
  | noRealPower (base exponent : Value)
  | callFailed (name : String) (cause : Fault)
  | tooDeep
  | noFormula
  /-- A fault of evaluation in the words of the caller. -/
  | reported (message : String)
  | intTooLarge
  | notFinite (reason : Binary.NotFinite)
  | mathDomain
  | mathRange
  | quotientByZero
  | badOperands (symbol : String) (left right : Value.Kind)
  | badNegation (kind : Value.Kind)
  | notToInt (kind : Value.Kind)
  | notToFloat (kind : Value.Kind)
  | notReal (kind : Value.Kind)
  | notOrdered (kind : Value.Kind)
  | notCallable
  | mustBeCallable (name : String)
  | argumentCount (rule : ArgumentRule) (given : Nat)
  | missingOperand
  | tooFewParts (expected given : Nat)
  | noParts
  | tooManyParts (expected : Nat)
  | targetWithoutName (kind : Expr.Kind)
  | unprintableNode
  | stackExhausted
  | unknownCategory (text : String)
  /-- A fault of the caller's own functions. -/
  | external (kind : FaultKind) (message : String)
  deriving DecidableEq

namespace Fault

def kind : Fault → FaultKind
  | intTooLarge | notFinite .infinite | mathRange => .overflow
  | notFinite .nan | mathDomain | tooFewParts .. | noParts | tooManyParts _
  | unknownCategory _ => .value
  | quotientByZero => .zeroDivision
  | badOperands .. | badNegation _ | notToInt _ | notToFloat _ | notReal _ | notOrdered _
  | notCallable | mustBeCallable _ | argumentCount .. | unprintableNode => .type
  | missingOperand => .index
  | targetWithoutName _ => .attribute
  | stackExhausted => .recursion
  | external kind _ => kind
  | _ => .evaluation

def isEvaluation (fault : Fault) : Bool :=
  fault.kind == .evaluation

/-- The variable or function that a fault is about. -/
def name? : Fault → Option String
  | undefinedVariable name | unknownFunction name | callFailed name _ => some name
  | _ => none

def notFiniteText : Binary.NotFinite → String
  | .nan => "cannot convert float NaN to integer"
  | .infinite => "cannot convert float infinity to integer"

def intTooLargeText : String := "int too large to convert to float"

def powerOverflowText : PowerOverflow → String
  | .result => "(34, 'Numerical result out of range')"
  | .complexResult => "complex exponentiation"
  | .operand => intTooLargeText

def message : Fault → String
  | undefinedVariable name => s!"Variable '{name}' not defined"
  | unknownFunction name => s!"Unknown function: {name}"
  | unknownOperator symbol => s!"Unknown operator: {symbol}"
  | unknownNode => s!"Unknown node type: {Expr.Kind.unknown.name}"
  | badTarget kind => s!"Invalid assignment target: {kind.name}"
  | divisionByZero => "Division by zero"
  | remainderByZero => "Modulo by zero"
  | remainderNotFinite reason => s!"Modulo needs finite operands: {notFiniteText reason}"
  | zeroToNegativePower => "Zero cannot be raised to a negative power"
  | powerOverflow reason => s!"Numeric overflow in power: {powerOverflowText reason}"
  | noRealPower base exponent =>
    s!"Power {base.literal} ^ {exponent.literal} has no real result"
  | callFailed name cause => s!"Error calling {name}: {cause.message}"
  | tooDeep => "Expression nested too deeply"
  | noFormula => "No expression has been parsed"
  | reported message => message
  | intTooLarge => intTooLargeText
  | notFinite reason => notFiniteText reason
  | mathDomain => "math domain error"
  | mathRange => "math range error"
  | quotientByZero => "float division by zero"
  | badOperands symbol left right =>
    s!"unsupported operand type(s) for {symbol}: '{left.name}' and '{right.name}'"
  | badNegation kind => s!"bad operand type for unary -: '{kind.name}'"
  | notToInt kind =>
    s!"int() argument must be a string, a bytes-like object or a real number, not '{kind.name}'"
  | notToFloat kind => s!"float() argument must be a string or a real number, not '{kind.name}'"
  | notReal kind => s!"must be real number, not {kind.name}"
  | notOrdered kind => s!"'>' not supported between instances of '{kind.name}' and 'int'"
  | notCallable => "'int' object is not callable"
  | mustBeCallable name => s!"Function '{name}' must be callable"
  | argumentCount rule given => rule.complaint given
  | missingOperand => "list index out of range"
  | tooFewParts expected given => s!"not enough values to unpack (expected {expected}, got {given})"
  | noParts => "not enough values to unpack (expected at least 1, got 0)"
  | tooManyParts expected => s!"too many values to unpack (expected {expected})"
  | targetWithoutName kind => s!"'{kind.name}' object has no attribute 'name'"
  | unprintableNode => s!"Unknown node type: {Expr.Kind.unknown.name}"
  | stackExhausted => ""
  | unknownCategory text => Text.quoted text ++ " is not a valid FunctionCategory"
  | external _ message => message

end Fault

end Formula
