import Formula.Options.Document.Quotation

namespace Formula.Document

/-- A spot in the text of an option file. Its column tells which collection an entry belongs to, and
its line where a key may stand. -/
structure Spot where
  /-- The text from the spot on. -/
  rest : List Char
  column : Nat
  line : Nat

/-- Whether a word ends in front of a text: at its end, a blank or a line break. -/
def endsWord : List Char → Bool
  | [] => true
  | c :: _ => isGap c

/-- The text behind blanks, line breaks and comments. `comment` tells whether the text begins inside
a comment. Only spaces count as blanks between scalars. -/
def behindBlanks (comment : Bool) : List Char → List Char
  | [] => []
  | c :: rest =>
    if isBreak c then behindBlanks false rest
    else if comment then behindBlanks true rest
    else if c == ' ' then behindBlanks false rest
    else if c == '#' then behindBlanks true rest
    else c :: rest

/-- The line breaks in front of a text, with spaces among them, and the text behind. -/
def splitBreaks : List Char → List Char × List Char
  | [] => ([], [])
  | c :: rest =>
    if isBreak c then
      let (breaks, rest) := splitBreaks rest
      (breakChar c :: breaks, rest)
    else if c == ' ' then splitBreaks rest
    else ([], c :: rest)

namespace Spot

def start (text : List Char) : Spot := ⟨text, 0, 0⟩

/-- The spot behind one character. -/
def step (spot : Spot) (c : Char) : Spot :=
  if isBreak c then ⟨spot.rest.tail, 0, spot.line + 1⟩
  else ⟨spot.rest.tail, spot.column + 1, spot.line⟩

/-- The spot behind so many characters. -/
def forward (spot : Spot) (count : Nat) : Spot :=
  (spot.rest.take count).foldl step spot

/-- The spot further on where the given text is left. -/
def leaving (spot : Spot) (rest : List Char) : Spot :=
  spot.forward (spot.rest.length - rest.length)

/-- The next spot where something other than blanks, line breaks and comments stands. -/
def skip (spot : Spot) : Spot :=
  spot.leaving (behindBlanks false spot.rest)

/-- Whether a line consists of three marks that begin or end a document. -/
def isMarker (mark : Char) (spot : Spot) : Bool :=
  spot.column == 0 && spot.rest.take 3 == [mark, mark, mark] && endsWord (spot.rest.drop 3)

/-- Whether a document ends at a spot. -/
def isEnd (spot : Spot) : Bool :=
  spot.rest.isEmpty || spot.isMarker '-' || spot.isMarker '.'

/-- Whether a dash stands at a spot that begins an item of a list. -/
def isDash (spot : Spot) : Bool :=
  match spot.rest with
  | '-' :: rest => endsWord rest
  | _ => false

/-- The spot behind a colon at this spot that a blank follows. -/
def behindColon? (spot : Spot) : Option Spot :=
  match spot.rest with
  | ':' :: rest => if endsWord rest then some (spot.forward 1) else none
  | _ => none

end Spot

end Formula.Document
