import Formula.Arithmetic
import Formula.Effect

namespace Formula

variable {σ : Type}

/-- What a formula is evaluated against, apart from the variables that it may write. -/
structure Environment (σ : Type) where
  /-- Variables of this evaluation alone; they hide those of the frame. -/
  overrides : Store
  functions : String → Option (Callee σ)
  /-- Supplies the value of a variable that is found nowhere else. -/
  missing : String → Effect σ Value

/-- The handler that supplies no values. -/
def undefinedVariable (name : String) : Effect σ Value :=
  throw (.undefinedVariable name)

/-- The value of a variable: from the overrides, then from the frame, then from the handler. -/
def readVariable (overrides : Store) (missing : String → Effect σ Value) (name : String) :
    Run σ Value :=
  match overrides.get? name with
  | some value => pure value
  | none => do
    let frame ← get
    match frame.store.get? name with
    | some value => pure value
    | none => Run.ofHost (missing name)

def writeVariable (name : String) (value : Value) : Run σ Value := do
  modify fun frame => { frame with store := frame.store.set name value }
  return value

mutual

/-- Operands are evaluated from left to right. Assignments write the variables at once, and what was
written before a fault stays written. -/
def eval (env : Environment σ) (room : Room) : Expr → Run σ Value
  | .number value => pure value
  | .variable name => readVariable env.overrides env.missing name
  | .operation operator operands => do
    let inner ← Effect.descend room price.evaluation
    let values ← evalAll env inner operands
    Effect.ofExcept (operator.apply values)
  | .assignment target value =>
    match target.name? with
    | none => throw (.badTarget target.kind)
    | some name => do
      let inner ← Effect.descend room price.evaluation
      let result ← eval env inner value
      writeVariable name result
  | .call name arguments =>
    match env.functions name with
    | none => throw (.unknownFunction name)
    | some callee => do
      let inner ← Effect.descend room price.evaluation
      let values ← evalAll env inner arguments
      Run.ofHost (callee.call name values)
  | .block statements => do
    let inner ← Effect.descend room price.evaluation
    evalStatements env inner .none statements
  | .unknown => throw .unknownNode

def evalAll (env : Environment σ) (room : Room) : List Expr → Run σ (List Value)
  | [] => pure []
  | first :: rest => do
    let value ← eval env room first
    let values ← evalAll env room rest
    return value :: values

/-- Evaluates statements in order. The last one gives the value; before it stands the value of the
statement that came before. -/
def evalStatements (env : Environment σ) (room : Room) (before : Value) : List Expr → Run σ Value
  | [] => pure before
  | first :: rest => do
    let value ← eval env room first
    evalStatements env room value rest

end

/-- Evaluates a whole tree. -/
def evaluate (env : Environment σ) (room : Room) (e : Expr) : Run σ Value :=
  (eval env room e).boundDepth

end Formula
