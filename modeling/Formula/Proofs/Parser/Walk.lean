import Formula.Parser

namespace Formula

/-- How a walk breaks off. Only the first way is a complaint about the row. -/
inductive Halt where
  | refused (error : ParseError)
  /-- The end of the input is taken. -/
  | overrun
  /-- A place of the row is read that it does not have. -/
  | outOfRow
  /-- A numeral is to be a number and has no value. -/
  | noValue

/-- A walk yields a result or breaks off, unless its calls nest deeper than it may go. One that goes
on for ever is not finished at any depth. -/
abbrev Walk := ExceptT Halt Option

/-- Tokens with the end of the input behind them. -/
structure Row where
  tokens : List Token
  last : Token

namespace Row

variable {α : Type}

def all (row : Row) : List Token :=
  row.tokens ++ [row.last]

/-- The token at a position, and behind the row its last one. -/
def current (row : Row) (i : Nat) : Token :=
  row.all[i]?.getD row.last

/-- The token at a position that the row should have. -/
def read (row : Row) (i : Nat) : Walk Token :=
  match row.all[i]? with
  | some token => return token
  | none => throw .outOfRow

def previous (row : Row) : Nat → Walk (Option Token)
  | 0 => return none
  | i + 1 => do
    let token ← row.read i
    return some token

/-- Takes the current token, whichever it is. -/
def advance (row : Row) (i : Nat) : Walk (Token × Nat) :=
  if i < row.tokens.length then return (row.current i, i + 1) else throw .overrun

/-- The token before a position and the current one. -/
def view (row : Row) (i : Nat) : Walk Cursor := do
  let previous ← row.previous i
  return ⟨previous, [], row.current i⟩

/-- The outcome of a walk that may go no deeper. -/
def unfinished : Walk α :=
  ExceptT.mk none

def refuse (fault : ParseFault) (token : Token) : Walk α :=
  throw (.refused ⟨fault, token⟩)

/-- A check that may complain. -/
def check : Except ParseError α → Walk α
  | .ok value => return value
  | .error error => throw (.refused error)

def unexpected (row : Row) (i : Nat) : Walk α := do
  let seen ← row.view i
  throw (.refused (Parser.unexpected seen))

def value (token : Token) : Walk Float :=
  match Decimal.readNumeral false token.text.toList with
  | some x => return x
  | none => throw .noValue

def close (row : Row) (opening : Token) (inCall : Bool) (i : Nat) : Walk Nat :=
  if (row.current i).kind = .rparen then do
    let (_, i) ← row.advance i
    return i
  else if (row.current i).kind = .eof then refuse .unclosed opening
  else refuse (.expectedClosing inCall) (row.current i)

def checkSign (row : Row) (i : Nat) : Walk Unit := do
  match ← row.previous i with
  | some previous =>
    if previous.kind.isOperator then do
      let following ← row.read (i + 1)
      if following.position != (row.current i).stop then
        refuse (.successive previous.text (row.current i).text) (row.current i)
  | none => return ()

mutual

def sum (row : Row) : Nat → Nat → Walk (Expr × Nat)
  | 0, _ => unfinished
  | depth + 1, i => do
    let (first, i) ← row.product depth i
    row.sumRest depth [first] i

def sumRest (row : Row) : Nat → List Expr → Nat → Walk (Expr × Nat)
  | 0, _, _ => unfinished
  | depth + 1, operands, i =>
    if (row.current i).kind = .plus ∨ (row.current i).kind = .minus then do
      let (sign, i) ← row.advance i
      let (operand, i) ← row.product depth i
      row.sumRest depth (operands ++ [Parser.summand sign.kind operand]) i
    else return (Parser.sumOf operands, i)

def product (row : Row) : Nat → Nat → Walk (Expr × Nat)
  | 0, _ => unfinished
  | depth + 1, i => do
    let (first, i) ← row.unary depth i
    row.productRest depth [first] i

def productRest (row : Row) : Nat → List Expr → Nat → Walk (Expr × Nat)
  | 0, _, _ => unfinished
  | depth + 1, factors, i =>
    if (row.current i).kind = .multiply ∨ (row.current i).kind = .divide ∨
        (row.current i).kind = .modulo then do
      let (operator, i) ← row.advance i
      let (operand, i) ← row.unary depth i
      row.productRest depth (Parser.withFactor factors operator.kind operand) i
    else return (Parser.productOf factors, i)

def unary (row : Row) : Nat → Nat → Walk (Expr × Nat)
  | 0, _ => unfinished
  | depth + 1, i =>
    if (row.current i).kind = .minus ∨ (row.current i).kind = .plus then do
      row.checkSign i
      let (sign, i) ← row.advance i
      let (operand, i) ← row.unary depth i
      return (Parser.summand sign.kind operand, i)
    else row.power depth i

def power (row : Row) : Nat → Nat → Walk (Expr × Nat)
  | 0, _ => unfinished
  | depth + 1, i => do
    let (base, i) ← row.primary depth i
    if (row.current i).kind = .power then do
      let (_, i) ← row.advance i
      let (exponent, i) ← row.unary depth i
      return (.operation .power [base, exponent], i)
    else return (base, i)

def primary (row : Row) : Nat → Nat → Walk (Expr × Nat)
  | 0, _ => unfinished
  | depth + 1, i =>
    match (row.current i).kind with
    | .number => do
      let (token, i) ← row.advance i
      check (Parser.checkNumeral token (row.current i))
      let x ← value token
      return (.number (.float x), i)
    | .identifier => do
      let (name, i) ← row.advance i
      if (row.current i).kind = .lparen then do
        let (opening, i) ← row.advance i
        let (values, i) ← row.arguments depth i
        let i ← row.close opening true i
        return (.call name.text values, i)
      else return (.variable name.text, i)
    | .lparen => do
      let (opening, i) ← row.advance i
      let (e, i) ← row.sum depth i
      let i ← row.close opening false i
      return (e, i)
    | _ => row.unexpected i

def arguments (row : Row) : Nat → Nat → Walk (List Expr × Nat)
  | 0, _ => unfinished
  | depth + 1, i =>
    if (row.current i).kind = .rparen then return ([], i)
    else do
      let (first, i) ← row.sum depth i
      let (others, i) ← row.argumentsRest depth i
      return (first :: others, i)

def argumentsRest (row : Row) : Nat → Nat → Walk (List Expr × Nat)
  | 0, _ => unfinished
  | depth + 1, i =>
    if (row.current i).kind = .comma then do
      let (_, i) ← row.advance i
      let (first, i) ← row.sum depth i
      let (others, i) ← row.argumentsRest depth i
      return (first :: others, i)
    else return ([], i)

end

def statement (row : Row) (depth i : Nat) : Walk (Expr × Nat) := do
  let (e, i) ← row.sum depth i
  if (row.current i).kind = .assign then do
    if e.name?.isNone then refuse .notAssignable (row.current i)
    let (_, i) ← row.advance i
    let (value, i) ← row.sum depth i
    return (.assignment e value, i)
  else return (e, i)

def boundary (row : Row) (force : Bool) (i : Nat) : Walk Bool := do
  let seen ← row.view i
  check (Parser.boundary force seen)

def statements (row : Row) (force : Bool) : Nat → Bool → Nat → Walk (List Expr × Nat)
  | 0, _, _ => unfinished
  | depth + 1, separated, i =>
    if (row.current i).kind = .semicolon then do
      let (_, i) ← row.advance i
      row.statements force depth true i
    else if (row.current i).kind = .eof then return ([], i)
    else if (row.current i).kind = .rparen then refuse .unopened (row.current i)
    else if separated = false then refuse .notSeparated (row.current i)
    else do
      let (first, i) ← row.statement depth i
      let separated ← row.boundary force i
      let (others, i) ← row.statements force depth separated i
      return (first :: others, i)

/-- Walks a whole row. The result is the tree with the position where the walk ends. -/
def program (row : Row) (depth : Nat) (force : Bool) : Walk (Expr × Nat) := do
  match ← row.statements force depth true 0 with
  | ([], i) => refuse .empty (row.current i)
  | ([only], i) => return (only, i)
  | (several, i) => return (.block several, i)

end Row

end Formula
