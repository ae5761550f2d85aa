import Formula.Arithmetic

namespace Formula

inductive FunctionCategory where
  | trigonometric
  | hyperbolic
  | exponential
  | rounding
  | constant
  | other
  deriving DecidableEq, Repr

namespace FunctionCategory

def all : List FunctionCategory :=
  [.trigonometric, .hyperbolic, .exponential, .rounding, .constant, .other]

def text : FunctionCategory → String
  | .trigonometric => "trigonometric"
  | .hyperbolic => "hyperbolic"
  | .exponential => "exponential"
  | .rounding => "rounding"
  | .constant => "constant"
  | .other => "other"

def ofText? (text : String) : Option FunctionCategory :=
  all.find? (·.text == text)

end FunctionCategory

inductive Builtin where
  | sin | cos | tan | asin | acos | atan
  | sinh | cosh
  | sqrt | exp | log | log10 | log2
  | ceil | floor
  | theta
  | pi
  deriving DecidableEq, Repr

namespace Builtin

/-- All built-in functions in the order in which they are listed. -/
def all : List Builtin :=
  [.sin, .cos, .tan, .asin, .acos, .atan, .sinh, .cosh, .sqrt, .exp, .log, .log10, .log2, .ceil,
    .floor, .theta, .pi]

def name : Builtin → String
  | sin => "sin" | cos => "cos" | tan => "tan" | asin => "asin" | acos => "acos" | atan => "atan"
  | sinh => "sinh" | cosh => "cosh"
  | sqrt => "sqrt" | exp => "exp" | log => "log" | log10 => "log10" | log2 => "log2"
  | ceil => "ceil" | floor => "floor"
  | theta => "theta"
  | pi => "pi"

def category : Builtin → FunctionCategory
  | sin | cos | tan | asin | acos | atan => .trigonometric
  | sinh | cosh => .hyperbolic
  | sqrt | exp | log | log10 | log2 => .exponential
  | ceil | floor => .rounding
  | theta => .other
  | pi => .constant

def description : Builtin → String
  | sin => "Sine of x (radians)"
  | cos => "Cosine of x (radians)"
  | tan => "Tangent of x (radians)"
  | asin => "Inverse sine, in radians"
  | acos => "Inverse cosine, in radians"
  | atan => "Inverse tangent, in radians"
  | sinh => "Hyperbolic sine"
  | cosh => "Hyperbolic cosine"
  | sqrt => "Square root"
  | exp => "e raised to the power x"
  | log => "Natural logarithm"
  | log10 => "Base 10 logarithm"
  | log2 => "Base 2 logarithm"
  | ceil => "Smallest integer not less than x"
  | floor => "Largest integer not greater than x"
  | theta => "Step function: 1 if x > 0, else 0"
  | pi => "The constant pi; parentheses distinguish it from a variable"

def parameters : Builtin → List String
  | pi => []
  | _ => ["x"]

def examples : Builtin → List String
  | sin => ["sin(pi() / 2)"]
  | cos => ["cos(0)"]
  | sqrt => ["sqrt(a^2 + b^2)"]
  | log10 => ["log10(1000)"]
  | log2 => ["log2(16)"]
  | theta => ["theta(x - 3)"]
  | pi => ["2 * pi() * r"]
  | function => [function.name ++ "(x)"]

def argumentRule : Builtin → ArgumentRule
  | log => .oneOrTwo "math.log"
  | ceil => .named "_ceil" ["x"]
  | floor => .named "_floor" ["x"]
  | theta => .named "_theta" ["x"]
  | pi => .named "_pi" []
  | function => .exactlyOne ("math." ++ function.name)

/-- The float of an argument. -/
def realArgument (value : Value) : Except Fault Float :=
  value.toFloat.mapError fun fault =>
    if fault = .notToFloat .none then .notReal .none else fault

/-- Checks a result against the argument it came from: what is undefined there lies outside the
domain, and what is infinite there is a pole or, for a function that grows without bound, beyond
the range of floats. -/
def checked (grows : Bool) (argument result : Float) : Except Fault Value :=
  if Binary.isNaN result && !Binary.isNaN argument then .error .mathDomain
  else if Binary.isInfinite result && Binary.isFinite argument then
    .error (if grows then .mathRange else .mathDomain)
  else .ok (.float result)

def real (grows : Bool) (function : Float → Float) (value : Value) : Except Fault Value := do
  let x ← realArgument value
  checked grows x (function x)

/-- A natural number that has no float as `fraction * 2 ^ exponent`, with a fraction from one half
to below one that is rounded to a float. -/
def fractionAndExponent (n : Nat) : Float × Nat :=
  let bits := n.log2 + 1
  let fraction := Binary.nearest false ((Ratio.ofNat n).onScale 2 bits)
  if fraction == Binary.one then (Binary.nearest false ⟨1, 2⟩, bits + 1) else (fraction, bits)

/-- A logarithm. That of an integer exists beyond the range of floats. -/
def logarithm (function : Float → Float) (value : Value) : Except Fault Value :=
  match value.asInt? with
  | some n =>
    if n ≤ 0 then .error .mathDomain
    else match Binary.ofInt? n with
      | some x => .ok (.float (function x))
      | none =>
        let (fraction, exponent) := fractionAndExponent n.toNat
        .ok (.float (function fraction + function (Binary.ofNat 2) * Binary.ofNat exponent))
  | none => real false function value

def quotient : Value → Value → Except Fault Value
  | .float x, .float y =>
    if y == Binary.zero false then .error .quotientByZero else .ok (.float (x / y))
  | left, right => .error (.badOperands "/" left.kind right.kind)

/-- A value rounded to a whole float. -/
def rounded (direction : Binary.Direction) (value : Value) : Except Fault Value := do
  let n ← match value with
    | .float x => (Binary.toInt direction x).mapError Fault.notFinite
    | value => match value.asInt? with
      | some n => pure n
      | none => throw (.notReal value.kind)
  match Binary.ofInt? n with
  | some x => return .float x
  | none => throw .intTooLarge

def isPositive : Value → Except Fault Bool
  | .float x => .ok (Binary.zero false < x)
  | value => match value.asInt? with
    | some n => .ok (0 < n)
    | none => .error (.notOrdered value.kind)

def piValue : Float := Float.ofBits 0x400921fb54442d18

def run : Builtin → List Value → Except Fault Value
  | sin, [x] => real false Float.sin x
  | cos, [x] => real false Float.cos x
  | tan, [x] => real false Float.tan x
  | asin, [x] => real false Float.asin x
  | acos, [x] => real false Float.acos x
  | atan, [x] => real false Float.atan x
  | sinh, [x] => real true Float.sinh x
  | cosh, [x] => real true Float.cosh x
  | sqrt, [x] => real false Float.sqrt x
  | exp, [x] => real true Float.exp x
  | log, [x] => logarithm Float.log x
  | log, [x, base] => do
    let numerator ← logarithm Float.log x
    let denominator ← logarithm Float.log base
    quotient numerator denominator
  | log10, [x] => logarithm Float.log10 x
  | log2, [x] => logarithm Float.log2 x
  | ceil, [x] => rounded .up x
  | floor, [x] => rounded .down x
  | theta, [x] => do
    let positive ← isPositive x
    return .float (if positive then Binary.one else Binary.zero false)
  | pi, [] => .ok (.float piValue)
  | function, arguments => .error (.argumentCount function.argumentRule arguments.length)

end Builtin

end Formula
