import Formula.Number.Power
import Formula.Number.Decimal
import Formula.Text.Blank

namespace Formula.Decimal

/-- The blanks that may stand around a number that is all in the first 128 characters. -/
def isPlainBlank (c : Char) : Bool :=
  c == ' ' || ('\t' ≤ c && c ≤ '\x0d')

/-- A text in which digits of all scripts and blanks of all kinds beyond the first 128 characters
are the plain ones. Other characters beyond them are not part of any number. -/
def plainly (text : List Char) : List Char :=
  text.map fun c =>
    if c.toNat < 127 then c
    else if Text.isBlank c then ' '
    else match Text.digitValue? c with
      | some value => Char.ofNat (48 + value)
      | none => '?'

def trimPlain (text : List Char) : List Char :=
  ((text.dropWhile isPlainBlank).reverse.dropWhile isPlainBlank).reverse

/-- A text without its underscores, each of which must stand between two digits. `behindDigit`
tells whether the character before is a digit. -/
def dropUnderscores (behindDigit : Bool) : List Char → Option (List Char)
  | [] => some []
  | '_' :: rest =>
    match rest with
    | next :: _ => if behindDigit && next.isDigit then dropUnderscores false rest else none
    | [] => none
  | c :: rest => (dropUnderscores c.isDigit rest).map (c :: ·)

/-- Reads a number as people type it. -/
def readFreeForm (text : String) : Option Float := do
  let trimmed := trimPlain (plainly text.toList)
  let digits ← dropUnderscores false trimmed
  let (negative, body) := match digits with
    | '-' :: rest => (true, rest)
    | '+' :: rest => (false, rest)
    | rest => (false, rest)
  let word := String.ofList (body.map Char.toLower)
  if word == "inf" || word == "infinity" then some (Binary.infinity negative)
  else if word == "nan" then some (Float.ofBits 0x7ff8000000000000)
  else readNumeral negative body

end Formula.Decimal
