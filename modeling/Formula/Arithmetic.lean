import Formula.Fault
import Formula.Number.Power

namespace Formula

namespace Value

/-- The float of a value under arithmetic, or the kind of a value that has none. -/
def toFloat : Value → Except Fault Float
  | .float x => .ok x
  | .int n => match Binary.ofInt? n with
    | some x => .ok x
    | Option.none => .error .intTooLarge
  | .bool b => .ok (if b then Binary.one else Binary.zero false)
  | .none => .error (.notToFloat .none)

/-- An operation that is exact on integers and rounds on floats. -/
def combine (symbol : String) (exact : Int → Int → Int) (rounded : Float → Float → Float)
    (left right : Value) : Except Fault Value :=
  match left, right with
  | .none, _ | _, .none => .error (.badOperands symbol left.kind right.kind)
  | .float x, .float y => .ok (.float (rounded x y))
  | _, _ =>
    match left.asInt?, right.asInt? with
    | some m, some n => .ok (.int (exact m n))
    | _, _ => do
      let x ← left.toFloat
      let y ← right.toFloat
      return .float (rounded x y)

def add : Value → Value → Except Fault Value :=
  combine "+" (· + ·) (· + ·)

def multiply : Value → Value → Except Fault Value :=
  combine "*" (· * ·) (· * ·)

/-- A sum from left to right. It starts with its first operand and so needs one. -/
def sum : List Value → Except Fault Value
  | [] => .error .missingOperand
  | first :: rest => rest.foldlM add first

/-- A product from left to right, starting with the integer one. -/
def product (factors : List Value) : Except Fault Value :=
  factors.foldlM multiply (.int 1)

def negate : Value → Except Fault Value
  | .float x => .ok (.float (-x))
  | .int n => .ok (.int (-n))
  | .bool b => .ok (.int (if b then -1 else 0))
  | .none => .error (.badNegation .none)

def reciprocal : Value → Except Fault Value
  | .float x =>
    if x == Binary.zero false then .error .divisionByZero else .ok (.float (Binary.one / x))
  | .none => .error (.badOperands "/" .int .none)
  | value =>
    match value.asInt? with
    | some n => if n = 0 then .error .divisionByZero else .ok (.float (Binary.ofQuotient 1 n))
    | Option.none => .error .divisionByZero

/-- The whole part of an operand of a remainder. -/
def wholeOperand : Value → Except Fault Int
  | .float x => (Binary.toInt .towardZero x).mapError .remainderNotFinite
  | .int n => .ok n
  | .bool b => .ok (if b then 1 else 0)
  | .none => .error (.notToInt .none)

/-- The remainder of the whole parts, as a float. It takes the sign of the divisor. -/
def remainder (left right : Value) : Except Fault Value := do
  let dividend ← left.wholeOperand
  let divisor ← right.wholeOperand
  if divisor = 0 then throw .remainderByZero
  match Binary.ofInt? (dividend.fmod divisor) with
  | some x => return .float x
  | Option.none => throw .intTooLarge

/-- The float of an operand of a power. -/
def powerOperand (value : Value) : Except Fault Float :=
  value.toFloat.mapError fun fault =>
    if fault = .intTooLarge then .powerOverflow .operand else fault

def power (base exponent : Value) : Except Fault Value := do
  let x ← base.powerOperand
  let y ← exponent.powerOperand
  match Binary.power x y with
  | .value z => return .float z
  | .zeroToNegative => throw .zeroToNegativePower
  | .overflow => throw (.powerOverflow .result)
  | .notReal => throw (.noRealPower base exponent)
  | .notRealOverflow => throw (.powerOverflow .complexResult)

end Value

/-- The first operand of an operation. -/
def firstOperand : List Value → Except Fault Value
  | first :: _ => .ok first
  | [] => .error .missingOperand

/-- The first two operands of an operation. -/
def firstTwoOperands : List Value → Except Fault (Value × Value)
  | first :: second :: _ => .ok (first, second)
  | _ => .error .missingOperand

/-- Applies an operator to values. An operator with a fixed number of operands passes over any
further ones. -/
def Operator.apply : Operator → List Value → Except Fault Value
  | .add, values => Value.sum values
  | .multiply, values => Value.product values
  | .negate, values => firstOperand values >>= Value.negate
  | .reciprocal, values => firstOperand values >>= Value.reciprocal
  | .remainder, values => firstTwoOperands values >>= fun (left, right) => left.remainder right
  | .power, values => firstTwoOperands values >>= fun (base, exponent) => base.power exponent
  | .other symbol, _ => .error (.unknownOperator symbol)

end Formula
