import Formula.Eval
import Formula.Text.Order

namespace Formula

variable {σ : Type}

/-- What runs in place of a node, given the overrides of one call. -/
abbrev Code (σ : Type) := Store → Run σ Value

/-- What a tree is compiled against: the variables, functions and handler of one moment. -/
structure Snapshot (σ : Type) where
  store : Store
  functions : String → Option (Callee σ)
  missing : String → Effect σ Value

namespace Code

/-- Runs pieces of code in order and collects their values. -/
def runAll (overrides : Store) : List (Code σ) → Run σ (List Value)
  | [] => pure []
  | first :: rest => do
    let value ← first overrides
    let values ← runAll overrides rest
    return value :: values

/-- Runs pieces of code in order for the value of the last. -/
def runLast (overrides : Store) (last : Code σ) : List (Code σ) → Run σ Value
  | [] => last overrides
  | first :: rest => do
    let _ ← first overrides
    runLast overrides last rest

/-- The only part of an operation with one operand. -/
def onlyPart : List (Code σ) → Except Fault (Code σ)
  | [operand] => .ok operand
  | [] => .error (.tooFewParts 1 0)
  | _ => .error (.tooManyParts 1)

/-- The two parts of an operation with two operands. -/
def twoParts : List (Code σ) → Except Fault (Code σ × Code σ)
  | [left, right] => .ok (left, right)
  | [] => .error (.tooFewParts 2 0)
  | [_] => .error (.tooFewParts 2 1)
  | _ => .error (.tooManyParts 2)

/-- Code that runs one operand and applies a function to its value. -/
def unary (function : Value → Except Fault Value) (operand : Code σ) : Code σ :=
  fun overrides => do
    let value ← operand overrides
    Effect.ofExcept (function value)

def binary (function : Value → Value → Except Fault Value) (left right : Code σ) : Code σ :=
  fun overrides => do
    let x ← left overrides
    let y ← right overrides
    Effect.ofExcept (function x y)

def nary (function : List Value → Except Fault Value) (parts : List (Code σ)) : Code σ :=
  fun overrides => do
    let values ← runAll overrides parts
    Effect.ofExcept (function values)

/-- The code of an operation from that of its operands. Two summands are added without a list. -/
def ofOperation (parts : List (Code σ)) : Operator → Except Fault (Code σ)
  | .add => match parts with
    | [left, right] => .ok (binary Value.add left right)
    | _ => .ok (nary Value.sum parts)
  | .multiply => .ok (nary Value.product parts)
  | .negate => (onlyPart parts).map (unary Value.negate)
  | .reciprocal => (onlyPart parts).map (unary Value.reciprocal)
  | .remainder => (twoParts parts).map fun (left, right) => binary Value.remainder left right
  | .power => (twoParts parts).map fun (base, exponent) => binary Value.power base exponent
  | .other symbol => .error (.unknownOperator symbol)

def ofBlock (parts : List (Code σ)) : Except Fault (Code σ) :=
  match parts.getLast? with
  | none => .error .noParts
  | some last => .ok fun overrides => runLast overrides last parts.dropLast

end Code

def Snapshot.descend (room : Room) : Except Fault Room :=
  match room.enter? price.evaluation with
  | some inner => .ok inner
  | none => .error .stackExhausted

mutual

def code (snapshot : Snapshot σ) (room : Room) : Expr → Except Fault (Code σ)
  | .number value => .ok fun _ => pure value
  | .variable name => .ok fun overrides => readVariable overrides snapshot.missing name
  | .operation operator operands => do
    let inner ← Snapshot.descend room
    let parts ← codeAll snapshot inner operands
    Code.ofOperation parts operator
  | .assignment target value =>
    match target.name? with
    | none => .error (.badTarget target.kind)
    | some name => do
      let inner ← Snapshot.descend room
      let valueCode ← code snapshot inner value
      return fun overrides => do
        let result ← valueCode overrides
        writeVariable name result
  | .call name arguments =>
    match snapshot.functions name with
    | none => .error (.unknownFunction name)
    | some callee => do
      let inner ← Snapshot.descend room
      let parts ← codeAll snapshot inner arguments
      return fun overrides => do
        let values ← Code.runAll overrides parts
        Run.ofHost (callee.call name values)
  | .block statements => do
    let inner ← Snapshot.descend room
    let parts ← codeAll snapshot inner statements
    Code.ofBlock parts
  | .unknown => .error .unknownNode

def codeAll (snapshot : Snapshot σ) (room : Room) : List Expr → Except Fault (List (Code σ))
  | [] => .ok []
  | first :: rest => do
    let firstCode ← code snapshot room first
    let others ← codeAll snapshot room rest
    return firstCode :: others

end

/-- A compiled formula: its code, the variables that every call starts with, and the names of all
variables in it as often as they occur. -/
structure Program (σ : Type) where
  code : Code σ
  defaults : Store
  occurrences : List String

/-- Compiles a whole tree. -/
def compile (snapshot : Snapshot σ) (room : Room) (e : Expr) : Except Fault (Program σ) :=
  match code snapshot room e with
  | .ok code => .ok ⟨code, snapshot.store, e.variableNames⟩
  | .error fault => .error (if fault.kind == .recursion then .tooDeep else fault)

namespace Program

/-- Runs a program in a frame of its own and shows how that frame ends. -/
def runFrame (program : Program σ) (overrides : Store) (host : σ) :
    Except Fault Value × Frame σ :=
  (program.code overrides).boundDepth.run ⟨program.defaults, host⟩

/-- Calls a program. The variables that it writes are gone afterwards. -/
def call (program : Program σ) (overrides : Store) : Effect σ Value :=
  ⟨fun host =>
    let (result, frame) := program.runFrame overrides host
    (result, frame.host)⟩

def names (program : Program σ) : List String :=
  Text.sortedNames program.occurrences

end Program

end Formula
