import Formula.Number.Binary
import Formula.Text.Digit

namespace Formula.Decimal

/-- The float closest to `digits * 10 ^ exponent`. The two outer tests only keep the powers of ten
small: beyond them the result is an infinity or zero whatever the digits are. -/
def ofDecimal (negative : Bool) (digits : Nat) (exponent : Int) : Float :=
  if digits = 0 then Binary.nearest negative (.ofNat 0)
  else if 400 < exponent then Binary.infinity negative
  else if exponent < -(400 + digits.log2 : Int) then Binary.nearest negative (.ofNat 0)
  else Binary.nearest negative (.ofScaled digits 10 exponent)

/-- The optional exponent of a numeral. Nothing else may follow it. -/
def readExponent : List Char → Option Int
  | [] => some 0
  | mark :: rest =>
    if mark == 'e' || mark == 'E' then
      let (negative, digits) := match rest with
        | '-' :: digits => (true, digits)
        | '+' :: digits => (false, digits)
        | digits => (false, digits)
      if digits.isEmpty || !digits.all Text.isDigit then none
      else some (if negative then -(Text.digitsValue digits : Int) else Text.digitsValue digits)
    else none

/-- The part of a numeral behind its whole digits: an optional point with digits. -/
def readFraction : List Char → List Char × List Char
  | '.' :: rest => (rest.takeWhile Text.isDigit, rest.dropWhile Text.isDigit)
  | rest => ([], rest)

/-- Reads digits with an optional point among, before or after them, and an optional exponent. -/
def readNumeral (negative : Bool) (text : List Char) : Option Float :=
  let whole := text.takeWhile Text.isDigit
  let (fraction, rest) := readFraction (text.dropWhile Text.isDigit)
  if whole.isEmpty && fraction.isEmpty then none
  else
    (readExponent rest).map fun exponent =>
      ofDecimal negative (Text.digitsValue (whole ++ fraction)) (exponent - fraction.length)

/-- The multiple of `10 ^ exponent` that reads back as the float `target`, if one does. The closer
neighbour of the ratio is tried first. -/
def onGrid? (target : Float) (ratio : Ratio) (exponent : Int) : Option (Nat × Int) :=
  let steps := ratio.onScale 10 exponent
  let back (digits : Nat) : Bool := ofDecimal false digits exponent == target
  let first := if steps.roundsDown then steps.floor else steps.ceil
  let second := if steps.roundsDown then steps.ceil else steps.floor
  if back first then some (first, exponent)
  else if back second then some (second, exponent)
  else none

/-- All digits of `significand * 2 ^ exponent`. -/
def exactDigits (significand : Nat) (exponent : Int) : Nat × Int :=
  if 0 ≤ exponent then (significand * Nat.pow 2 exponent.toNat, 0)
  else (significand * Nat.pow 5 (-exponent).toNat, exponent)

/-- Digits and an exponent of ten that read back as the positive float
`significand * 2 ^ exponent`: the fewest digits, and of those the closest to it. -/
def shortest (significand : Nat) (exponent : Int) : Nat × Int :=
  let ratio := Ratio.ofScaled significand 2 exponent
  let target := Binary.nearest false ratio
  let top := ratio.decimalLog
  let grids := (List.range 17).map fun (n : Nat) => top - (n + 1)
  (grids.findSome? (onGrid? target ratio)).getD (exactDigits significand exponent)

end Formula.Decimal
