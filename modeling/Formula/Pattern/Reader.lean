import Formula.Pattern

namespace Formula.Pattern

/-- The characters that letters behind a backslash stand for. -/
def escapes : List (Char × Char) :=
  [('a', '\x07'), ('f', '\x0c'), ('n', '\n'), ('r', '\r'), ('t', '\t'), ('v', '\x0b')]

/-- The letters behind a backslash that announce a code, with the number of its digits. -/
def codeWidths : List (Char × Nat) :=
  [('x', 2), ('u', 4), ('U', 8)]

/-- The character with the code that some digits write. -/
def charOfDigits? (base : Nat) (digits : List Char) : Option CharTest :=
  let code := (digits.filterMap Text.hexDigit?).foldl (fun n digit => base * n + digit) 0
  if code.isValidChar then Option.some (.range (Char.ofNat code) (Char.ofNat code)) else Option.none

def isOctal (c : Char) : Bool :=
  '0' ≤ c && c ≤ '7'

/-- What an escape stands for, from behind its backslash on, and the text behind it. Codes are
hexadecimal, or up to three octal digits, of which outside a class the first is zero or none is
missing. Letters and digits without a meaning are no escapes. -/
def readEscape (inClass : Bool) : List Char → Option (CharTest × List Char)
  | [] => Option.none
  | 'd' :: rest => Option.some (.digit, rest)
  | 's' :: rest => Option.some (.blank, rest)
  | c :: rest =>
    match codeWidths.lookup c, escapes.lookup c with
    | Option.some width, _ =>
      let digits := rest.take width
      if digits.length == width && digits.all (Text.hexDigit? · |>.isSome) then
        (charOfDigits? 16 digits).map (·, rest.drop width)
      else Option.none
    | Option.none, Option.some meant => Option.some (.range meant meant, rest)
    | Option.none, Option.none =>
      let more := (rest.take 2).takeWhile isOctal
      if isOctal c && (c == '0' || inClass || more.length == 2) then
        (charOfDigits? 8 (c :: more)).map (·, rest.drop more.length)
      else if inClass && c == 'b' then Option.some (.range '\x08' '\x08', rest)
      else if c.isAlphanum then Option.none
      else Option.some (.range c c, rest)

/-- A character or an escape in a class. -/
def readMember : List Char → Option (CharTest × List Char)
  | [] => Option.none
  | '\\' :: rest => readEscape true rest
  | c :: rest => Option.some (.range c c, rest)

/-- The range between two single characters. -/
def upTo? : CharTest → CharTest → Option CharTest
  | .range first _, .range last _ =>
    if first ≤ last then Option.some (.range first last) else Option.none
  | _, _ => Option.none

/-- The members of a class up to its closing bracket, which is a member itself where it stands
`first`. A dash is a member in front of that bracket, and otherwise makes a range of its neighbours.
Each call reads a character at least. -/
def readMembers (first : Bool) : Nat → List Char → Option (List CharTest × List Char)
  | 0, _ => Option.none
  | room + 1, text =>
    if !first && text.head? == Option.some ']' then Option.some ([], text.tail)
    else
      (readMember text).bind fun (test, rest) =>
        match rest with
        | '-' :: ']' :: rest => Option.some ([test, .range '-' '-'], rest)
        | '-' :: rest =>
          (readMember rest).bind fun (last, rest) =>
            (upTo? test last).bind fun range =>
              (readMembers false room rest).map fun (tests, rest) => (range :: tests, rest)
        | rest => (readMembers false room rest).map fun (tests, rest) => (test :: tests, rest)

/-- A class, from behind its opening bracket on. -/
def readClass (negated : Bool) (text : List Char) : Option (Pattern × List Char) :=
  (readMembers true (text.length + 1) text).map fun (tests, rest) => (.oneOf negated tests, rest)

/-- Puts the repetition marks behind an atom. -/
def readMarks (atom : Pattern) : List Char → Pattern × List Char
  | '*' :: '?' :: rest => readMarks (.fewest atom) rest
  | '+' :: '?' :: rest => readMarks (.seq atom (.fewest atom)) rest
  | '?' :: '?' :: rest => readMarks (.either .empty atom) rest
  | '*' :: rest => readMarks (.many atom) rest
  | '+' :: rest => readMarks (.some atom) rest
  | '?' :: rest => readMarks (.optional atom) rest
  | rest => (atom, rest)

mutual

/-- Reads alternatives up to the end or to a closing parenthesis. Every call reads at least one
character less than the one around it, so the length of the text bounds their nesting. -/
def readEither : Nat → List Char → Option (Pattern × List Char)
  | 0, _ => Option.none
  | depth + 1, text =>
    (readSeq depth text).bind fun (first, rest) =>
      match rest with
      | '|' :: rest =>
        (readEither depth rest).map fun (second, rest) => (.either first second, rest)
      | rest => Option.some (first, rest)

def readSeq : Nat → List Char → Option (Pattern × List Char)
  | 0, _ => Option.none
  | _ + 1, [] => Option.some (.empty, [])
  | depth + 1, c :: rest =>
    if c == '|' || c == ')' then Option.some (.empty, c :: rest)
    else
      (readAtom depth (c :: rest)).bind fun (atom, rest) =>
        let (marked, rest) := readMarks atom rest
        (readSeq depth rest).map fun (second, rest) => (.seq marked second, rest)

def readAtom : Nat → List Char → Option (Pattern × List Char)
  | 0, _ => Option.none
  | _ + 1, [] => Option.none
  | depth + 1, '(' :: '?' :: ':' :: rest =>
    (readEither depth rest).bind fun (group, rest) =>
      match rest with
      | ')' :: rest => Option.some (group, rest)
      | _ => Option.none
  | _ + 1, '[' :: '^' :: rest => readClass true rest
  | _ + 1, '[' :: rest => readClass false rest
  | _ + 1, '\\' :: rest =>
    (readEscape false rest).map fun (test, rest) => (.oneOf false [test], rest)
  | _ + 1, '.' :: rest => Option.some (.oneOf true [.range '\n' '\n'], rest)
  | _ + 1, c :: rest => Option.some (char c, rest)

end

/-- Reads a whole text as a pattern. -/
def ofText? (text : String) : Option Pattern :=
  let chars := text.toList
  match readEither (3 * chars.length + 3) chars with
  | Option.some (pattern, []) => Option.some pattern
  | _ => Option.none

end Formula.Pattern
