import Formula.Number.Decimal
import Formula.Options.Datum
import Formula.Options.Document.Fault

namespace Formula.Document

/-- Whether a character separates words on a line. -/
def isSpace (c : Char) : Bool :=
  c == ' ' || c == '\t'

def trueWords : List String :=
  ["yes", "Yes", "YES", "true", "True", "TRUE", "on", "On", "ON"]

def falseWords : List String :=
  ["no", "No", "NO", "false", "False", "FALSE", "off", "Off", "OFF"]

def nullWords : List String :=
  ["", "~", "null", "Null", "NULL"]

/-- Words with a meaning of their own, which is none for a scalar. -/
def reservedWords : List String :=
  ["=", "<<"]

def isDigitOf (base : Nat) (c : Char) : Bool :=
  (Text.hexDigit? c).any (· < base)

def isDecimal (c : Char) : Bool :=
  isDigitOf 10 c

/-- Whether a text has digits of a base only, which underscores may part and surround. -/
def isDigits (base : Nat) (text : List Char) : Bool :=
  text.all fun c => isDigitOf base c || c == '_'

def withoutUnderscores (text : List Char) : List Char :=
  text.filter (· != '_')

/-- The number that digits of a base write. Underscores do not count. -/
def digitsValue (base : Nat) (text : List Char) : Nat :=
  (text.filterMap Text.hexDigit?).foldl (fun n digit => base * n + digit) 0

def splitSign : List Char → Bool × List Char
  | '-' :: rest => (true, rest)
  | '+' :: rest => (false, rest)
  | rest => (false, rest)

/-- Whether a text is a digit of a number to the base sixty: a decimal number below sixty. -/
def isSixtieth : List Char → Bool
  | [ones] => isDecimal ones
  | [tens, ones] => isDigitOf 6 tens && isDecimal ones
  | _ => false

/-- The parts of a text between its colons. -/
def splitColons : List Char → List (List Char)
  | [] => [[]]
  | ':' :: rest => [] :: splitColons rest
  | c :: rest =>
    match splitColons rest with
    | [] => [[c]]
    | first :: parts => (c :: first) :: parts

/-- The digits of an integer behind the mark of their base. There must be some. -/
def readMarked (base : Nat) (digits : List Char) : Except DocumentFault Nat :=
  if (withoutUnderscores digits).isEmpty then .error (.noDigits base)
  else .ok (digitsValue base digits)

/-- An integer without sign: in binary or hexadecimal digits behind a mark, in octal ones behind a
zero, in decimal ones, or to the base sixty with colons between the digits. -/
def readNatural? (text : List Char) : Option (Except DocumentFault Nat) :=
  match text with
  | '0' :: 'b' :: digits =>
    if !digits.isEmpty && isDigits 2 digits then some (readMarked 2 digits) else none
  | '0' :: 'x' :: digits =>
    if !digits.isEmpty && isDigits 16 digits then some (readMarked 16 digits) else none
  | '0' :: digits => if isDigits 8 digits then some (.ok (digitsValue 8 digits)) else none
  | digit :: _ =>
    match splitColons text with
    | whole :: sixtieths =>
      if isDecimal digit && isDigits 10 whole && sixtieths.all isSixtieth then
        some (.ok (sixtieths.foldl (fun n part => 60 * n + digitsValue 10 part)
          (digitsValue 10 whole)))
      else none
    | [] => none
  | [] => none

def readInt? (text : List Char) : Option (Except DocumentFault Int) :=
  let (negative, digits) := splitSign text
  (readNatural? digits).map fun magnitude =>
    magnitude.map fun n => if negative then -(n : Int) else n

/-- The sum of numbers of which each counts sixty times as much as the one before, added up from
the first. -/
def sixtiethSum (numbers : List Float) : Float :=
  (numbers.foldl
    (fun (sum, base) number => (sum + number * Binary.ofNat base, 60 * base))
    (Binary.ofNat 0, 1)).1

/-- A float without sign to the base sixty, whose last digit has a point. -/
def readSixtieths? (body : List Char) : Option Float := do
  let whole := body.takeWhile (· != '.')
  let fraction := (body.dropWhile (· != '.')).drop 1
  let parts := splitColons whole
  match parts with
  | first :: second :: rest =>
    guard (first.head?.any isDecimal && isDigits 10 first)
    guard ((second :: rest).all isSixtieth)
    guard (body.contains '.' && isDigits 10 fraction)
    let last := parts.getLastD []
    let numerals := parts.dropLast ++ [last ++ '.' :: fraction]
    let numbers ← numerals.mapM fun numeral =>
      Decimal.readNumeral false (withoutUnderscores numeral)
    some (sixtiethSum numbers.reverse)
  | _ => none

/-- A sign and digits behind the mark of an exponent. -/
def isExponent : List Char → Bool
  | [] => true
  | mark :: sign :: digits =>
    (mark == 'e' || mark == 'E') && (sign == '-' || sign == '+') && !digits.isEmpty &&
      digits.all isDecimal
  | _ => false

/-- Whether a text is a numeral with a point that begins with a digit, or with the point and a digit
where no sign is before it. -/
def isPointed (signed : Bool) (body : List Char) : Bool :=
  let whole := body.takeWhile fun c => isDecimal c || c == '_'
  let rest := body.dropWhile fun c => isDecimal c || c == '_'
  match rest with
  | '.' :: rest =>
    let fraction := rest.takeWhile fun c => isDecimal c || c == '_'
    let exponent := rest.dropWhile fun c => isDecimal c || c == '_'
    isExponent exponent &&
      (if whole.isEmpty then !signed && fraction.head?.any isDecimal
      else whole.head?.any isDecimal)
  | _ => false

/-- A scalar with a point among its digits, an infinity, or what is no number. -/
def readFloat? (text : List Char) : Option Float :=
  let (negative, body) := splitSign text
  let signed := body.length < text.length
  let word := String.ofList body
  if [".inf", ".Inf", ".INF"].contains word then some (Binary.infinity negative)
  else if !signed && [".nan", ".NaN", ".NAN"].contains word then
    some (Float.ofBits 0x7ff8000000000000)
  else if isPointed signed body then Decimal.readNumeral negative (withoutUnderscores body)
  else (readSixtieths? body).map fun x => if negative then -x else x

/-- A number in as many decimal digits as there are, but not more than `most`. -/
def readNumber? (least most : Nat) (text : List Char) : Option (Nat × List Char) :=
  let digits := (text.take most).takeWhile isDecimal
  if digits.length < least then none else some (digitsValue 10 digits, text.drop digits.length)

def dropChar? (c : Char) : List Char → Option (List Char)
  | first :: rest => if first == c then some rest else none
  | [] => none

/-- The text behind the mark between a date and a time: a letter or blanks. -/
def dropTimeMark? : List Char → Option (List Char)
  | 'T' :: rest => some rest
  | 't' :: rest => some rest
  | ' ' :: rest => some (rest.dropWhile isSpace)
  | _ => none

/-- The millionths of a second behind a point, without the digits that are smaller. -/
def readFraction? : List Char → Option (Nat × List Char)
  | '.' :: rest =>
    let digits := rest.takeWhile isDecimal
    let kept := digits.take 6
    some (digitsValue 10 (kept ++ List.replicate (6 - kept.length) '0'), rest.drop digits.length)
  | rest => some (0, rest)

/-- The distance from world time at the end of a moment, in seconds. -/
def readOffset? (text : List Char) : Option (Option Int) :=
  match text, text.dropWhile isSpace with
  | [], _ => some none
  | _, ['Z'] => some (some 0)
  | _, sign :: rest =>
    if sign == '-' || sign == '+' then do
      let (hours, rest) ← readNumber? 1 2 rest
      let (minutes, rest) ←
        if rest.isEmpty then some (0, rest) else (dropChar? ':' rest).bind (readNumber? 2 2)
      guard rest.isEmpty
      let seconds : Int := 3600 * hours + 60 * minutes
      some (some (if sign == '-' then -seconds else seconds))
    else none
  | _, [] => none

/-- A date, or a moment. The month and the day of a date alone have two digits each. -/
def readDate? (text : List Char) : Option (Except DocumentFault Datum) := do
  let (year, rest) ← readNumber? 4 4 text
  let (month, rest) ← (dropChar? '-' rest).bind (readNumber? 1 2)
  let (day, rest) ← (dropChar? '-' rest).bind (readNumber? 1 2)
  if rest.isEmpty then
    guard (text.length == 10)
    some (((Date.create year month day).map .date).mapError .date)
  else
    let (hour, rest) ← (dropTimeMark? rest).bind (readNumber? 1 2)
    let (minute, rest) ← (dropChar? ':' rest).bind (readNumber? 2 2)
    let (second, rest) ← (dropChar? ':' rest).bind (readNumber? 2 2)
    let (micros, rest) ← readFraction? rest
    let offset ← readOffset? rest
    some (((Moment.create year month day hour minute second micros offset).map .moment).mapError
      .date)

/-- What a scalar without quotes stands for. -/
def resolve (text : List Char) : Except DocumentFault Datum :=
  let word := String.ofList text
  if trueWords.contains word then .ok (.bool true)
  else if falseWords.contains word then .ok (.bool false)
  else if nullWords.contains word then .ok .null
  else if reservedWords.contains word then .error .malformed
  else
    match readInt? text, readFloat? text, readDate? text with
    | some result, _, _ => result.map .int
    | none, some x, _ => .ok (.float x)
    | none, none, some result => result
    | none, none, none => .ok (.text word)

end Formula.Document
