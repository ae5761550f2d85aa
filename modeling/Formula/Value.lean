import Formula.Number.Spelling

namespace Formula

/-- Numerals denote floats. The caller may also supply integers, truth values, which count as the
integers 0 and 1, and nothing at all. -/
inductive Value where
  | float (x : Float)
  | int (n : Int)
  | bool (b : Bool)
  | none
  deriving DecidableEq

namespace Value

/-- The kinds of values, which error texts name. -/
inductive Kind where
  | float
  | int
  | bool
  | none
  deriving DecidableEq, Repr

def Kind.name : Kind → String
  | .float => "float"
  | .int => "int"
  | .bool => "bool"
  | .none => "NoneType"

def kind : Value → Kind
  | .float _ => .float
  | .int _ => .int
  | .bool _ => .bool
  | .none => .none

/-- The integer that a value is, where it is one. -/
def asInt? : Value → Option Int
  | .int n => some n
  | .bool b => some (if b then 1 else 0)
  | _ => Option.none

/-- The text of a value from which its kind can be told. -/
def literal : Value → String
  | .float x => Decimal.spellFloat x
  | .int n => toString n
  | .bool true => "True"
  | .bool false => "False"
  | .none => "None"

/-- Whole floats of at most this size are shown without a point. -/
def wholeLimit : Nat := Nat.pow 10 16

/-- The text of a value for a reader: a whole float that is not too large looks like an integer. -/
def text : Value → String
  | .float x =>
    match Binary.toInt .towardZero x with
    | .ok n =>
      if Binary.isWhole x && n.natAbs < wholeLimit then toString n else Decimal.spellFloat x
    | .error _ => Decimal.spellFloat x
  | value => value.literal

end Value

end Formula
