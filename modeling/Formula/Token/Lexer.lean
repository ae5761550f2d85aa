import Formula.Pattern
import Formula.Token

namespace Formula

/-- One rule of a lexer. Its transform turns the matched text into the text of the token; a match
without one, or with an empty one, is passed over. -/
structure TokenRule where
  kind : TokenKind
  pattern : Pattern
  transform : String → Option String

/-- Why a text has no tokens. -/
inductive LexFault where
  | undefinedText
  | emptyMatch (rule : String)
  | unexpected (c : Char) (text : String)
  deriving DecidableEq

structure LexError where
  fault : LexFault
  place : Text.Place
  deriving DecidableEq

namespace LexError

def reason (error : LexError) : String :=
  match error.fault with
  | .undefinedText => "Cannot lex an undefined value"
  | .emptyMatch rule =>
    s!"Rule {rule} matched zero characters; each rule must consume at least one character"
  | .unexpected c text => s!"Unexpected character '{c}' in {Text.quoted text}"

def message (error : LexError) : String :=
  s!"{error.reason} at line {error.place.line}, column {error.place.column}"

end LexError

namespace TokenRule

/-- A rule that keeps what it matches. -/
def keep (kind : TokenKind) (pattern : Pattern) : TokenRule :=
  ⟨kind, pattern, some⟩

/-- A rule that passes over what it matches. -/
def skip (kind : TokenKind) (pattern : Pattern) : TokenRule :=
  ⟨kind, pattern, fun _ => none⟩

open Pattern in
/-- Digits with an optional point behind or among them, or a point with digits behind it; then an
optional exponent. -/
def numeral : Pattern :=
  .seq
    (.either
      (.seq (.some digit) (.optional (.seq (char '.') (.many digit))))
      (.seq (char '.') (.some digit)))
    (.optional (all
      [.oneOf false [.range 'e' 'e', .range 'E' 'E'],
       .optional (.oneOf false [.range '+' '+', .range '-' '-']),
       .some digit]))

/-- A letter or underscore and any letters, digits and underscores behind it. -/
def word : Pattern :=
  .seq (.oneOf false [.range 'a' 'z', .range 'A' 'Z', .range '_' '_'])
    (.many (.oneOf false [.range 'a' 'z', .range 'A' 'Z', .range '0' '9', .range '_' '_']))

/-- The rules of formulas. -/
def standard : List TokenRule :=
  [skip .whitespace (.some .blank),
   keep .number numeral,
   keep .power (.either (.seq (.char '*') (.char '*')) (.char '^')),
   keep .multiply (.char '*'),
   keep .divide (.char '/'),
   keep .modulo (.char '%'),
   keep .plus (.char '+'),
   keep .minus (.char '-'),
   keep .assign (.char '='),
   keep .semicolon (.char ';'),
   keep .comma (.char ','),
   keep .lparen (.char '('),
   keep .rparen (.char ')'),
   keep .identifier word]

/-- The first rule that matches at the start of a text, with the text behind its match. -/
def first? (rules : List TokenRule) (text : List Char) : Option (TokenRule × List Char) :=
  rules.findSome? fun rule => (rule.pattern.rest? text).map (rule, ·)

/-- The token of a match, unless the rule passes over it. -/
def token? (rule : TokenRule) (place : Text.Place) (taken : List Char) : Option Token :=
  match rule.transform (String.ofList taken) with
  | some text => if text.isEmpty then none else some ⟨rule.kind, text, place⟩
  | none => none

/-- The tokens of what is left of a text, whose first character is at the given place. -/
def tokensFrom (rules : List TokenRule) (whole : String) (place : Text.Place) :
    List Char → Except LexError (List Token)
  | [] => .ok []
  | c :: text =>
    match first? rules (c :: text) with
    | none => .error ⟨.unexpected c whole, place⟩
    | some (rule, rest) =>
      if rest.length ≤ text.length then
        let taken := (c :: text).take (text.length + 1 - rest.length)
        match tokensFrom rules whole (place.advance taken) rest with
        | .error error => .error error
        | .ok tokens =>
          match rule.token? place taken with
          | some token => .ok (token :: tokens)
          | none => .ok tokens
      else .error ⟨.emptyMatch rule.kind.name, place⟩
termination_by text => text.length

end TokenRule

/-- Splits a text into tokens. There may be no text at all. -/
def lex (rules : List TokenRule) : Option String → Except LexError (List Token)
  | none => .error ⟨.undefinedText, .start⟩
  | some text => TokenRule.tokensFrom rules text .start text.toList

/-- Splits a text into tokens and puts the end of the input behind them. -/
def tokenize (rules : List TokenRule) : Option String → Except LexError (List Token)
  | none => .error ⟨.undefinedText, .start⟩
  | some text => do
    let tokens ← lex rules (some text)
    return tokens ++ [Token.atEnd text.toList]

end Formula
