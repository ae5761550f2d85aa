import Formula.Number.Decimal

namespace Formula.Decimal

/-- Where positional notation begins and ends, and the least width of an exponent. -/
structure Style where
  /-- The least power of ten of a leading digit that is written positionally. -/
  low : Int
  /-- The least power of ten above it that is written with an exponent. -/
  high : Int
  exponentWidth : Nat

/-- Leading digits from the fourth place behind the point to the sixteenth before it are written
positionally, others with an exponent of at least two digits. -/
def Style.standard : Style := ⟨-4, 16, 2⟩

def dropTrailingZeros (digits : List Char) : List Char :=
  (digits.reverse.dropWhile (· == '0')).reverse

/-- Digits with the point behind the first `point` of them, filled with zeros. A whole number keeps
one zero behind its point. -/
def positional (digits : List Char) (point : Int) : List Char :=
  if point ≤ 0 then
    '0' :: '.' :: (List.replicate (-point).toNat '0' ++ digits)
  else
    let whole := digits.take point.toNat
    let fraction := digits.drop point.toNat
    whole ++ List.replicate (point.toNat - digits.length) '0' ++
      '.' :: (if fraction.isEmpty then ['0'] else fraction)

/-- Digits with the point behind the first, and the power of ten of that first digit. -/
def scientific (style : Style) (digits : List Char) (power : Int) : List Char :=
  let exponent := Nat.toDigits 10 power.natAbs
  let mantissa := match digits with
    | [] => []
    | first :: rest => first :: (if rest.isEmpty then [] else '.' :: rest)
  mantissa ++ 'e' :: (if power < 0 then '-' else '+') ::
    (List.replicate (style.exponentWidth - exponent.length) '0' ++ exponent)

/-- The written form of `digits * 10 ^ exponent`. -/
def spell (style : Style) (digits : Nat) (exponent : Int) : List Char :=
  if digits = 0 then ['0', '.', '0']
  else
    let all := Nat.toDigits 10 digits
    let point : Int := all.length + exponent
    let kept := dropTrailingZeros all
    let power := point - 1
    if style.low ≤ power && power < style.high then positional kept point
    else scientific style kept power

/-- The written form of any float. -/
def spellFloat (x : Float) : String :=
  match Binary.parts x with
  | .nan => "nan"
  | .infinite negative => if negative then "-inf" else "inf"
  | .finite negative significand exponent =>
    let digits := if significand = 0 then (0, 0) else shortest significand exponent
    let written := spell .standard digits.1 digits.2
    String.ofList (if negative then '-' :: written else written)

end Formula.Decimal
