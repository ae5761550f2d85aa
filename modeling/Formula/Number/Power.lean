import Formula.Number.Binary

namespace Formula.Binary

/-- What a power comes to. -/
inductive Power where
  | value (x : Float)
  | zeroToNegative
  | overflow
  /-- A negative base with a fractional exponent. -/
  | notReal
  /-- The same where even the absolute value of the result is beyond all floats. -/
  | notRealOverflow
  deriving DecidableEq

/-- Whether a float is an odd whole number. -/
def isOdd (x : Float) : Bool :=
  isWhole x && match toInt .towardZero x with
    | .ok n => n % 2 == 1
    | .error _ => false

def absolute (x : Float) : Float :=
  if isNegative x then -x else x

def one : Float := ofMagnitude false (1023 * fractions)

def zero (negative : Bool) : Float := ofMagnitude negative 0

/-- The power of a base that is neither zero, infinite nor one in absolute value, to a finite
exponent other than zero. -/
def generalPower (base exponent : Float) : Power :=
  let magnitude := Float.pow (absolute base) exponent
  if isNegative base && !isWhole exponent then
    if isInfinite magnitude then .notRealOverflow else .notReal
  else if isInfinite magnitude then .overflow
  else .value (if isNegative base && isOdd exponent then -magnitude else magnitude)

/-- Special operands are decided first, so the general power is only taken of a positive base other
than one and a finite exponent. -/
def power (base exponent : Float) : Power :=
  if exponent == zero false then .value one
  else if isNaN base then .value base
  else if isNaN exponent then .value (if base == one then one else exponent)
  else if isInfinite exponent then
    if absolute base == one then .value one
    else if isNegative exponent == decide (absolute base < one) then .value (infinity false)
    else .value (zero false)
  else if isInfinite base then
    let odd := isOdd exponent
    if isNegative exponent then .value (zero (odd && isNegative base))
    else .value (infinity (odd && isNegative base))
  else if base == zero false then
    if isNegative exponent then .zeroToNegative
    else .value (zero (isOdd exponent && isNegative base))
  else if absolute base == one then
    if isNegative base && !isWhole exponent then .notReal
    else .value (if isNegative base && isOdd exponent then -one else one)
  else generalPower base exponent

end Formula.Binary
