import Formula.Text.Place
import Formula.Text.Quoted

namespace Formula

inductive TokenKind where
  | number
  | identifier
  | power
  | multiply
  | divide
  | modulo
  | plus
  | minus
  | assign
  | semicolon
  | comma
  | lparen
  | rparen
  | whitespace
  | eof
  /-- A kind that a caller's own rules name. -/
  | custom (name : String)
  deriving DecidableEq

namespace TokenKind

def name : TokenKind → String
  | .number => "NUMBER"
  | .identifier => "IDENTIFIER"
  | .power => "POWER"
  | .multiply => "MULTIPLY"
  | .divide => "DIVIDE"
  | .modulo => "MODULO"
  | .plus => "PLUS"
  | .minus => "MINUS"
  | .assign => "ASSIGN"
  | .semicolon => "SEMICOLON"
  | .comma => "COMMA"
  | .lparen => "LPAREN"
  | .rparen => "RPAREN"
  | .whitespace => "WHITESPACE"
  | .eof => "EOF"
  | .custom name => name

/-- Whether a token is an operator with an operand on its right. -/
def isOperator : TokenKind → Bool
  | .power | .multiply | .divide | .modulo | .plus | .minus => true
  | _ => false

/-- Whether a token ends an operand, so that an operator before it has none. -/
def isClosing : TokenKind → Bool
  | .eof | .rparen | .semicolon | .comma => true
  | _ => false

/-- Whether a statement may begin with a token. -/
def startsStatement : TokenKind → Bool
  | .number | .identifier | .lparen | .minus | .plus => true
  | _ => false

end TokenKind

structure Token where
  kind : TokenKind
  text : String
  place : Text.Place
  deriving DecidableEq

namespace Token

def position (token : Token) : Nat :=
  token.place.position

/-- The position behind a token, counted from its start by the length of its text. -/
def stop (token : Token) : Nat :=
  token.position + token.text.length

/-- The text of a token. The end of the input has none. -/
def text? (token : Token) : Option String :=
  if token.kind = .eof then none else some token.text

/-- The verbose form of a token. -/
def literal (token : Token) : String :=
  let text := match token.text? with
    | some text => Text.quoted text
    | none => "None"
  s!"Token({token.kind.name}, {text}, pos={token.position})"

/-- The token behind the last character of a text. -/
def atEnd (text : List Char) : Token :=
  ⟨.eof, "", Text.Place.start.advance text⟩

end Token

end Formula
