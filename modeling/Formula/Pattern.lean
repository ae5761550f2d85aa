import Formula.Text.Blank
import Formula.Text.Digit

namespace Formula

/-- One member of a class of characters. -/
inductive CharTest where
  | range (first last : Char)
  | digit
  | blank
  deriving DecidableEq

def CharTest.accepts : CharTest → Char → Bool
  | .range first last, c => first ≤ c && c ≤ last
  | .digit, c => Text.isDigit c
  | .blank, c => Text.isBlank c

inductive Pattern where
  | empty
  /-- One character that passes some of the tests, or none of them. -/
  | oneOf (negated : Bool) (tests : List CharTest)
  | seq (first second : Pattern)
  | either (first second : Pattern)
  | many (body : Pattern)
  | some (body : Pattern)
  | optional (body : Pattern)
  /-- As few rounds as what follows allows. -/
  | fewest (body : Pattern)
  deriving DecidableEq

namespace Pattern

variable {α : Type}

/-- Repeats a step as often as possible, and then continues. A round that takes no character is the
last one. No run has more rounds than the text has characters. -/
def repeated (step : List Char → (List Char → Option α) → Option α) :
    Nat → List Char → (List Char → Option α) → Option α
  | 0, text, next => next text
  | rounds + 1, text, next =>
    (step text fun rest =>
      if rest.length < text.length then repeated step rounds rest next else next rest) <|> next text

/-- Continues, and repeats a step only where that fails. A round that takes no character would
change nothing. -/
def repeatedLate (step : List Char → (List Char → Option α) → Option α) :
    Nat → List Char → (List Char → Option α) → Option α
  | 0, text, next => next text
  | rounds + 1, text, next =>
    next text <|> step text fun rest =>
      if rest.length < text.length then repeatedLate step rounds rest next else Option.none

/-- Matches a pattern at the start of a text and hands the rest on. The result is that of the first
way to match for which the continuation has one. -/
def run : Pattern → List Char → (List Char → Option α) → Option α
  | .empty, text, next => next text
  | .oneOf _ _, [], _ => Option.none
  | .oneOf negated tests, c :: rest, next =>
    if tests.any (·.accepts c) != negated then next rest else Option.none
  | .seq first second, text, next => first.run text fun rest => second.run rest next
  | .either first second, text, next => first.run text next <|> second.run text next
  | .many body, text, next => repeated body.run text.length text next
  | .some body, text, next =>
    body.run text fun rest => repeated body.run rest.length rest next
  | .optional body, text, next => body.run text next <|> next text
  | .fewest body, text, next => repeatedLate body.run text.length text next

/-- The text behind the match of a pattern. -/
def rest? (pattern : Pattern) (text : List Char) : Option (List Char) :=
  pattern.run text Option.some

def char (c : Char) : Pattern :=
  .oneOf false [.range c c]

def digit : Pattern := .oneOf false [.digit]

def blank : Pattern := .oneOf false [.blank]

/-- The patterns one after the other. -/
def all (patterns : List Pattern) : Pattern :=
  patterns.foldr .seq .empty

end Pattern

end Formula
