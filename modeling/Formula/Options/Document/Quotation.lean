import Formula.Options.Document.Node

namespace Formula.Document

/-- Whether a character ends a line. -/
def isBreak (c : Char) : Bool :=
  c == '\n' || c == '\x85' || c == '\u2028' || c == '\u2029'

/-- What a line break is inside a scalar. -/
def breakChar (c : Char) : Char :=
  if c == '\x85' then '\n' else c

/-- What the line breaks between two parts of a scalar stand for. -/
def folded : List Char → List Char
  | ['\n'] => [' ']
  | '\n' :: rest => rest
  | breaks => breaks

/-- What stands between two parts of a scalar: blanks on a line, or line breaks, of which the first
may be left out because a backslash is before it. -/
inductive Gap where
  | blanks (found : List Char)
  | breaks (joined : Bool) (found : List Char)

namespace Gap

def empty : Gap := .blanks []

/-- A gap with one more blank or line break. Blanks around line breaks do not count. -/
def add (gap : Gap) (c : Char) : Gap :=
  match gap, isBreak c with
  | .blanks found, false => .blanks (found ++ [c])
  | .blanks _, true => .breaks false [breakChar c]
  | .breaks joined found, false => .breaks joined found
  | .breaks joined found, true => .breaks joined (found ++ [breakChar c])

def text : Gap → List Char
  | .blanks found => found
  | .breaks joined found => if joined then found else folded found

end Gap

def isGap (c : Char) : Bool :=
  isSpace c || isBreak c

/-- A scalar in single quotes behind its first quote, with the text behind its last one. -/
def readSingle (gap : Gap) : List Char → Option (List Char × List Char)
  | [] => none
  | '\x27' :: '\x27' :: rest =>
    (readSingle .empty rest).map fun (text, rest) => (gap.text ++ '\x27' :: text, rest)
  | '\x27' :: rest => some (gap.text, rest)
  | c :: rest =>
    if isGap c then readSingle (gap.add c) rest
    else (readSingle .empty rest).map fun (text, rest) => (gap.text ++ c :: text, rest)

/-- The characters that single letters behind a backslash stand for. -/
def escapes : List (Char × Char) :=
  [('0', '\x00'), ('a', '\x07'), ('b', '\x08'), ('t', '\t'), ('\t', '\t'), ('n', '\n'),
    ('v', '\x0b'), ('f', '\x0c'), ('r', '\r'), ('e', '\x1b'), (' ', ' '), ('\x22', '\x22'),
    ('\\', '\\'), ('/', '/'), ('N', '\x85'), ('_', '\xa0'), ('L', '\u2028'), ('P', '\u2029')]

/-- The letters behind a backslash that announce a code, with the number of its digits. -/
def codeWidths : List (Char × Nat) :=
  [('x', 2), ('u', 4), ('U', 8)]

/-- Where the reader of a scalar in double quotes stands. -/
inductive QuoteState where
  | text (gap : Gap)
  /-- Behind a backslash. -/
  | escape
  /-- Inside a code of which so many digits are to come, with its value so far. -/
  | code (left value : Nat)

/-- Codes in front of those that are still to be read. -/
def prependCodes (codes : List Nat) (read : Except DocumentFault (List Nat × List Char)) :
    Except DocumentFault (List Nat × List Char) :=
  read.map fun (more, rest) => (codes ++ more, rest)

/-- The codes of a scalar in double quotes from some state on, with the text behind its last
quote. -/
def readDouble (state : QuoteState) : List Char → Except DocumentFault (List Nat × List Char)
  | [] => .error .malformed
  | c :: rest =>
    match state with
    | .text gap =>
      let before := gap.text.map Char.toNat
      if isGap c then readDouble (.text (gap.add c)) rest
      else if c == '\x22' then .ok (before, rest)
      else if c == '\\' then prependCodes before (readDouble .escape rest)
      else prependCodes (before ++ [c.toNat]) (readDouble (.text .empty) rest)
    | .escape =>
      if isBreak c then readDouble (.text (.breaks true [])) rest
      else
        match codeWidths.lookup c, escapes.lookup c with
        | some width, _ => readDouble (.code width 0) rest
        | none, some d => prependCodes [d.toNat] (readDouble (.text .empty) rest)
        | none, none => .error .malformed
    | .code left value =>
      match Text.hexDigit? c with
      | none => .error .malformed
      | some digit =>
        let code := 16 * value + digit
        if 1 < left then readDouble (.code (left - 1) code) rest
        else if 0x10ffff < code then .error (.noCharacter code)
        else prependCodes [code] (readDouble (.text .empty) rest)

/-- A scalar in quotes at the start of a text, with the text behind it. -/
def readQuoted? : List Char → Option (Except DocumentFault (Node × List Char))
  | '\x27' :: rest =>
    match readSingle .empty rest with
    | some (text, rest) => some (.ok (.quoted (text.map Char.toNat), rest))
    | none => some (.error .malformed)
  | '\x22' :: rest =>
    some ((readDouble (.text .empty) rest).map fun (codes, rest) => (.quoted codes, rest))
  | _ => none

end Formula.Document
