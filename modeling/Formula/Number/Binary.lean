import Formula.Number.Ratio

namespace Formula.Binary

/-- What a float stands for: nothing, an infinity, or `± significand * 2 ^ exponent`. -/
inductive Parts where
  | nan
  | infinite (negative : Bool)
  | finite (negative : Bool) (significand : Nat) (exponent : Int)
  deriving DecidableEq, Repr

/-- An integer is a number of ones. -/
def Parts.ofInt (n : Int) : Parts :=
  .finite (n < 0) n.natAbs 0

/-- A finite number as a multiple of `2 ^ base`, where `base` is at most its exponent. -/
def Parts.multiple (base : Int) (negative : Bool) (significand : Nat) (exponent : Int) : Int :=
  let magnitude : Int := significand * Nat.pow 2 (exponent - base).toNat
  if negative then -magnitude else magnitude

/-- Whether a number is below another one, exactly. What is no number is not below anything, and
nothing is below it. -/
def Parts.isBelow : Parts → Parts → Bool
  | .nan, _ => false
  | _, .nan => false
  | .infinite first, .infinite second => first && !second
  | .infinite negative, .finite .. => negative
  | .finite .., .infinite negative => !negative
  | .finite first m i, .finite second n j =>
    decide (Parts.multiple (min i j) first m i < Parts.multiple (min i j) second n j)

/-- Whether two numbers are the same one, zeros of both signs included. What is no number is the
same as itself. -/
def Parts.isSame (first second : Parts) : Bool :=
  (first == .nan) == (second == .nan) && !first.isBelow second && !second.isBelow first

/-- The number of bit patterns that share a sign and an exponent field. -/
def fractions : Nat := Nat.pow 2 52

/-- The bit pattern of positive infinity; those of the finite floats without sign lie below it. -/
def infinityBits : Nat := 2047 * fractions

def signBit : Nat := 2048 * fractions

def parts (x : Float) : Parts :=
  let bits := x.toBits.toNat
  let negative := decide (signBit ≤ bits)
  let field : Nat := bits / fractions % 2048
  let fraction : Nat := bits % fractions
  if field = 2047 then
    if fraction = 0 then .infinite negative else .nan
  else if field = 0 then .finite negative fraction (-1074)
  else .finite negative (fractions + fraction) ((field : Int) - 1075)

/-- The float with the given sign whose other bits are the given number. -/
def ofMagnitude (negative : Bool) (bits : Nat) : Float :=
  Float.ofBits (UInt64.ofNat (if negative then signBit + bits else bits))

def infinity (negative : Bool) : Float :=
  ofMagnitude negative infinityBits

/-- The bits of the float closest to a ratio. The significand has 53 bits where the exponent allows
it, so adding it to the shifted exponent sets the exponent field, and a significand that rounds up
to the next power of two carries into that field. -/
def nearestBits (ratio : Ratio) : Nat :=
  if ratio.num = 0 then 0
  else
    let exponent := max (ratio.binaryLog - 52) (-1074)
    min infinityBits
      ((ratio.onScale 2 exponent).round + (exponent + 1074).toNat * fractions)

def nearest (negative : Bool) (ratio : Ratio) : Float :=
  ofMagnitude negative (nearestBits ratio)

/-- The float closest to a natural, or an infinity. -/
def ofNat (n : Nat) : Float :=
  nearest false (.ofNat n)

/-- The float closest to an integer, or nothing where that is an infinity. -/
def ofInt? (n : Int) : Option Float :=
  let bits := nearestBits (.ofNat n.natAbs)
  if bits < infinityBits then some (ofMagnitude (n < 0) bits) else none

/-- The float closest to the quotient of two integers, the second of them not zero. -/
def ofQuotient (num den : Int) : Float :=
  nearest ((num < 0) != (den < 0)) ⟨num.natAbs, den.natAbs⟩

/-- The three ways to make a finite float whole. -/
inductive Direction where
  | towardZero
  | down
  | up
  deriving DecidableEq

/-- A finite float made whole in the given direction. -/
def Parts.whole (direction : Direction) (negative : Bool) (significand : Nat) (exponent : Int) :
    Int :=
  let ratio := Ratio.ofScaled significand 2 exponent
  let away := match direction with
    | .towardZero => false
    | .down => negative
    | .up => !negative
  let magnitude : Int := if away then ratio.ceil else ratio.floor
  if negative then -magnitude else magnitude

/-- Why a float has no integer value. -/
inductive NotFinite where
  | nan
  | infinite
  deriving DecidableEq, Repr

/-- The integer that a float rounds to in the given direction. -/
def toInt (direction : Direction) (x : Float) : Except NotFinite Int :=
  match parts x with
  | .nan => .error .nan
  | .infinite _ => .error .infinite
  | .finite negative significand exponent =>
    .ok (Parts.whole direction negative significand exponent)

def isFinite (x : Float) : Bool :=
  match parts x with
  | .finite .. => true
  | _ => false

def isNaN (x : Float) : Bool :=
  parts x == .nan

def isInfinite (x : Float) : Bool :=
  match parts x with
  | .infinite _ => true
  | _ => false

def isNegative (x : Float) : Bool :=
  decide (signBit ≤ x.toBits.toNat)

/-- Whether a float is a whole number. -/
def isWhole (x : Float) : Bool :=
  match parts x with
  | .finite _ significand exponent => (Ratio.ofScaled significand 2 exponent).isWhole
  | _ => false

end Formula.Binary
