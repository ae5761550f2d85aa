import Formula.Expr
import Formula.Number.Decimal
import Formula.Parser.Cursor
import Formula.Parser.Error
import Formula.Room
import Formula.Token.Lexer

namespace Formula

/-- What a step of the descent yields: a tree and the cursor behind it, which is further on. -/
structure Parsed (cursor : Cursor) where
  tree : Expr
  rest : Cursor
  further : rest.left < cursor.left

/-- What the rest of a chain or of an argument list yields. It may have taken no token. -/
structure ParsedRest (α : Type) (cursor : Cursor) where
  result : α
  rest : Cursor
  noNearer : rest.left ≤ cursor.left

namespace Parser

/-- One level deeper, or the complaint that it is too deep at this place. -/
def descend (room : Room) (cost : Nat) (cursor : Cursor) : Except ParseError Room :=
  match room.enter? cost with
  | some inner => .ok inner
  | none => .error ⟨.tooDeep, cursor.current⟩

/-- The complaint about a token that cannot begin an operand: about the operator before it, if that
operator lacks an operand now. -/
def unexpected (cursor : Cursor) : ParseError :=
  let token := cursor.current
  let plain : ParseError :=
    if token.kind = .eof then ⟨.endOfInput, token⟩
    else if token.kind = .rparen then ⟨.unopened, token⟩
    else ⟨.unexpected token.text, token⟩
  match cursor.previous with
  | some previous =>
    if previous.kind.isOperator then
      if token.kind.isClosing then ⟨.dangling previous.text, previous⟩
      else if token.kind.isOperator || token.kind = .assign then
        ⟨.successive previous.text token.text, token⟩
      else plain
    else plain
  | none => plain

/-- A chain of summands, which is one node unless there is only one of them. -/
def sumOf : List Expr → Expr
  | [operand] => operand
  | operands => .operation .add operands

def productOf : List Expr → Expr
  | [factor] => factor
  | factors => .operation .multiply factors

/-- A summand, by the sign before it. -/
def summand (sign : TokenKind) (e : Expr) : Expr :=
  if sign = .minus then .operation .negate [e] else e

/-- The factors of a product so far and one more. A remainder takes the whole product before it. -/
def withFactor (factors : List Expr) (operator : TokenKind) (e : Expr) : List Expr :=
  if operator = .multiply then factors ++ [e]
  else if operator = .divide then factors ++ [.operation .reciprocal [e]]
  else [.operation .remainder [productOf factors, e]]

/-- Takes a closing parenthesis. -/
def close (opening : Token) (inCall : Bool) (cursor : Cursor) :
    Except ParseError { rest : Cursor // rest.left < cursor.left } :=
  match h : cursor.takeKind? .rparen with
  | some rest => .ok ⟨rest, by have := Cursor.left_takeKind? h; omega⟩
  | none =>
    if cursor.current.kind = .eof then .error ⟨.unclosed, opening⟩
    else .error ⟨.expectedClosing inCall, cursor.current⟩

/-- Checks a sign in operand position: behind an operator it must touch its operand. -/
def checkSign (sign : Token) (cursor : Cursor) : Except ParseError Unit :=
  match cursor.previous with
  | some previous =>
    if previous.kind.isOperator && cursor.following.position != sign.stop then
      .error ⟨.successive previous.text sign.text, sign⟩
    else .ok ()
  | none => .ok ()

/-- Checks that no operand touches a numeral on its right. -/
def checkNumeral (numeral following : Token) : Except ParseError Unit :=
  if (following.kind = .identifier || following.kind = .number) &&
      following.position == numeral.stop then
    .error ⟨.missingOperator numeral.text following.text, following⟩
  else .ok ()

-- Every step takes at least one token, so the descent ends. Its depth is bounded by the room.
mutual

def sum (room : Room) (cursor : Cursor) : Except ParseError (Parsed cursor) := do
  let ⟨first, rest, h⟩ ← product room cursor
  let ⟨e, behind, hr⟩ ← sumRest room [first] rest
  return ⟨e, behind, by omega⟩
termination_by 8 * cursor.left + 6

def sumRest (room : Room) (operands : List Expr) (cursor : Cursor) :
    Except ParseError (ParsedRest Expr cursor) :=
  match ht : cursor.take? with
  | some (token, rest) =>
    have := Cursor.left_take? ht
    if token.kind = .plus || token.kind = .minus then do
      let ⟨operand, rest, h⟩ ← product room rest
      let ⟨e, behind, hr⟩ ← sumRest room (operands ++ [summand token.kind operand]) rest
      return ⟨e, behind, by omega⟩
    else return ⟨sumOf operands, cursor, Nat.le_refl _⟩
  | none => return ⟨sumOf operands, cursor, Nat.le_refl _⟩
termination_by 8 * cursor.left + 6

def product (room : Room) (cursor : Cursor) : Except ParseError (Parsed cursor) := do
  let ⟨first, rest, h⟩ ← unary room cursor
  let ⟨e, behind, hr⟩ ← productRest room [first] rest
  return ⟨e, behind, by omega⟩
termination_by 8 * cursor.left + 5

def productRest (room : Room) (factors : List Expr) (cursor : Cursor) :
    Except ParseError (ParsedRest Expr cursor) :=
  match ht : cursor.take? with
  | some (token, rest) =>
    have := Cursor.left_take? ht
    if token.kind = .multiply || token.kind = .divide || token.kind = .modulo then do
      let ⟨operand, rest, h⟩ ← unary room rest
      let ⟨e, behind, hr⟩ ← productRest room (withFactor factors token.kind operand) rest
      return ⟨e, behind, by omega⟩
    else return ⟨productOf factors, cursor, Nat.le_refl _⟩
  | none => return ⟨productOf factors, cursor, Nat.le_refl _⟩
termination_by 8 * cursor.left + 5

def unary (room : Room) (cursor : Cursor) : Except ParseError (Parsed cursor) :=
  match ht : cursor.take? with
  | some (token, rest) =>
    have := Cursor.left_take? ht
    if token.kind = .minus || token.kind = .plus then do
      checkSign token cursor
      let inner ← descend room price.sign cursor
      let ⟨operand, rest, h⟩ ← unary inner rest
      return ⟨summand token.kind operand, rest, by omega⟩
    else power room cursor
  | none => power room cursor
termination_by 8 * cursor.left + 4

def power (room : Room) (cursor : Cursor) : Except ParseError (Parsed cursor) := do
  let ⟨base, rest, h⟩ ← primary room cursor
  match ht : rest.takeKind? .power with
  | some behind =>
    have := Cursor.left_takeKind? ht
    let inner ← descend room price.exponent rest
    let ⟨exponent, behind, hb⟩ ← unary inner behind
    return ⟨.operation .power [base, exponent], behind, by omega⟩
  | none => return ⟨base, rest, h⟩
termination_by 8 * cursor.left + 3

def primary (room : Room) (cursor : Cursor) : Except ParseError (Parsed cursor) :=
  match ht : cursor.take? with
  | some (token, rest) =>
    have := Cursor.left_take? ht
    match token.kind with
    | .number => do
      checkNumeral token rest.current
      match Decimal.readNumeral false token.text.toList with
      | some x => return ⟨.number (.float x), rest, by omega⟩
      | none => throw (unexpected cursor)
    | .identifier =>
      match ho : rest.takeKind? .lparen with
      | some inside => do
        have := Cursor.left_takeKind? ho
        let inner ← descend room price.argument rest
        let ⟨values, behind, h⟩ ← arguments inner inside
        let ⟨behind, hc⟩ ← close rest.current true behind
        return ⟨.call token.text values, behind, by omega⟩
      | none => return ⟨.variable token.text, rest, by omega⟩
    | .lparen => do
      let inner ← descend room price.parenthesis cursor
      let ⟨e, behind, h⟩ ← sum inner rest
      let ⟨behind, hc⟩ ← close token false behind
      return ⟨e, behind, by omega⟩
    | _ => throw (unexpected cursor)
  | none => throw (unexpected cursor)
termination_by 8 * cursor.left + 2

/-- The arguments of a call up to the closing parenthesis. -/
def arguments (room : Room) (cursor : Cursor) : Except ParseError (ParsedRest (List Expr) cursor) :=
  if cursor.current.kind = .rparen then return ⟨[], cursor, Nat.le_refl _⟩
  else do
    let ⟨first, rest, h⟩ ← sum room cursor
    let ⟨others, behind, hr⟩ ← argumentsRest room rest
    return ⟨first :: others, behind, by omega⟩
termination_by 8 * cursor.left + 7

def argumentsRest (room : Room) (cursor : Cursor) :
    Except ParseError (ParsedRest (List Expr) cursor) :=
  match ht : cursor.takeKind? .comma with
  | some rest => do
    have := Cursor.left_takeKind? ht
    let ⟨first, rest, h⟩ ← sum room rest
    let ⟨others, behind, hr⟩ ← argumentsRest room rest
    return ⟨first :: others, behind, by omega⟩
  | none => return ⟨[], cursor, Nat.le_refl _⟩
termination_by 8 * cursor.left + 7

end

/-- A statement: an assignment to a variable, or a plain sum. -/
def statement (room : Room) (cursor : Cursor) : Except ParseError (Parsed cursor) := do
  let ⟨e, rest, h⟩ ← sum room cursor
  match ht : rest.takeKind? .assign with
  | some behind =>
    have := Cursor.left_takeKind? ht
    if e.name?.isNone then throw ⟨.notAssignable, rest.current⟩
    let ⟨value, behind, hb⟩ ← sum room behind
    return ⟨.assignment e value, behind, by omega⟩
  | none => return ⟨e, rest, h⟩

/-- Whether another statement may begin behind the one that was just read. With forced semicolons
only a semicolon makes room for one. -/
def boundary (force : Bool) (cursor : Cursor) : Except ParseError Bool :=
  let token := cursor.current
  if token.kind = .semicolon || token.kind = .eof || token.kind = .rparen then return true
  else if !token.kind.startsStatement then throw (unexpected cursor)
  else if force then return false
  else match cursor.previous with
    | some previous =>
      if previous.stop == token.position then
        throw ⟨.missingOperator previous.text token.text, token⟩
      else return true
    | none => return true

/-- The statements up to the end. `separated` tells whether a statement may begin here. -/
def statements (room : Room) (force separated : Bool) (cursor : Cursor) :
    Except ParseError (List Expr) :=
  match hs : cursor.takeKind? .semicolon with
  | some rest =>
    have := Cursor.left_takeKind? hs
    statements room force true rest
  | none =>
    let token := cursor.current
    if token.kind = .eof then return []
    else if token.kind = .rparen then throw ⟨.unopened, token⟩
    else if !separated then throw ⟨.notSeparated, token⟩
    else do
      let ⟨first, rest, _⟩ ← statement room cursor
      let next ← boundary force rest
      let others ← statements room force next rest
      return first :: others
termination_by cursor.left

/-- The tree of a program: its only statement, or a block of several. -/
def program (room : Room) (force : Bool) (cursor : Cursor) : Except ParseError Expr := do
  match ← statements room force true cursor with
  | [] => throw ⟨.empty, cursor.last⟩
  | [only] => return only
  | several => return .block several

end Parser

/-- Why a text is no formula. -/
inductive TextError where
  | lexical (error : LexError)
  | grammatical (error : ParseError)
  deriving DecidableEq

def TextError.message : TextError → String
  | .lexical error => error.message
  | .grammatical error => error.message

/-- The position in front of the tokens of a text. -/
def Cursor.ofTokens (text : String) (tokens : List Token) : Cursor :=
  ⟨none, tokens, Token.atEnd text.toList⟩

/-- Parses the tokens of a text. -/
def parseTokens (room : Room) (force : Bool) (text : String) (tokens : List Token) :
    Except TextError Expr :=
  (Parser.program room force (.ofTokens text tokens)).mapError .grammatical

/-- Parses a text. With `force` statements must be separated by semicolons. -/
def parse (room : Room) (force : Bool) : Option String → Except TextError Expr
  | none => .error (.lexical ⟨.undefinedText, .start⟩)
  | some text => do
    let tokens ← (lex TokenRule.standard (some text)).mapError .lexical
    parseTokens room force text tokens

end Formula
