namespace Formula

/-- A ratio of naturals, which need not be reduced. Its denominator is not zero. -/
structure Ratio where
  num : Nat
  den : Nat
  deriving DecidableEq, Repr

namespace Ratio

def ofNat (n : Nat) : Ratio := ⟨n, 1⟩

/-- A ratio divided by a power of a base, so that the ratio at one on the new scale is that power on
the old one. -/
def onScale (ratio : Ratio) (base : Nat) (exponent : Int) : Ratio :=
  ⟨ratio.num * Nat.pow base (-exponent).toNat, ratio.den * Nat.pow base exponent.toNat⟩

/-- The ratio `n * base ^ exponent`. -/
def ofScaled (n base : Nat) (exponent : Int) : Ratio :=
  (ofNat n).onScale base (-exponent)

def atLeastOne (ratio : Ratio) : Bool :=
  ratio.den ≤ ratio.num

/-- The greatest natural that is at most a ratio. -/
def floor (ratio : Ratio) : Nat :=
  ratio.num / ratio.den

def isWhole (ratio : Ratio) : Bool :=
  ratio.num % ratio.den == 0

/-- The least natural that is at least a ratio. -/
def ceil (ratio : Ratio) : Nat :=
  if ratio.isWhole then ratio.floor else ratio.floor + 1

/-- Whether a ratio rounds down: it is closer to the natural below than to the one above, or as
close, and the one below is even. -/
def roundsDown (ratio : Ratio) : Bool :=
  let twice := 2 * (ratio.num % ratio.den)
  twice < ratio.den || (twice == ratio.den && ratio.floor % 2 == 0)

/-- The natural closest to a ratio, of two the even one. -/
def round (ratio : Ratio) : Nat :=
  if ratio.roundsDown then ratio.floor else ratio.floor + 1

/-- The exponent of the greatest power of two that is at most a positive ratio. -/
def binaryLog (ratio : Ratio) : Int :=
  let guess : Int := ratio.num.log2 - ratio.den.log2
  if (ratio.onScale 2 guess).atLeastOne then guess else guess - 1

/-- The exponent of the least power of ten above a positive ratio: first a guess from the binary
logarithm, then steps of one. -/
def decimalLog (ratio : Ratio) : Int :=
  let guess := ratio.binaryLog * 30103 / 100000
  let reaches (exponent : Int) : Bool := (ratio.onScale 10 exponent).atLeastOne
  if reaches (guess + 1) then guess + 2 else if reaches guess then guess + 1 else guess

end Ratio

end Formula
