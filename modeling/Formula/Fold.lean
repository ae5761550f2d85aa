import Formula.Eval
import Formula.Note

namespace Formula

variable {σ : Type}

/-- What folding may use. -/
structure Folding (σ : Type) where
  /-- The functions that may be called ahead of time. -/
  functions : String → Option (Callee σ)
  note : Note → σ → σ

namespace Folding

def environment (folding : Folding σ) : Environment σ :=
  ⟨∅, folding.functions, undefinedVariable⟩

/-- Evaluates a node whose operands are numbers. Where the evaluation has a fault of its own the
node stays as it is. The node is one level high and is evaluated without a limit. A limit would only
be felt on the last three levels that folding gets to in its own room, where such a node would stay
as it is too. -/
def evaluateConstant (folding : Folding σ) (node : Expr) : Effect σ Expr :=
  ⟨fun host =>
    let (result, frame) := (evaluate folding.environment .unlimited node).run ⟨∅, host⟩
    match result with
    | .ok value => (.ok (.number value), frame.host)
    | .error fault =>
      if fault.isEvaluation then (.ok node, folding.note (.notFolded node fault) frame.host)
      else (.error fault, frame.host)⟩

/-- Joins the constants of a sum or product with other operands. -/
def join (folding : Folding σ) (operator : Operator) (operands : List Expr) : Effect σ Expr := do
  let node := Expr.operation operator operands
  let constants := operands.filter Expr.isNumber
  if constants.length ≤ 1 then return node
  let folded ← folding.evaluateConstant (.operation operator constants)
  if folded.isNumber then
    modify (folding.note (.joined constants.length operator folded))
    return .operation operator (operands.filter (!·.isNumber) ++ [folded])
  else return node

/-- Folds a node whose operands are folded already. -/
def foldNode (folding : Folding σ) (node : Expr) : Effect σ Expr :=
  if node.children.all Expr.isNumber then folding.evaluateConstant node
  else match node with
    | .operation operator operands =>
      if operator.isCommutative then folding.join operator operands else return node
    | _ => return node

end Folding

mutual

/-- Replaces nodes of numbers by their values and joins the constants of sums and products behind
the other operands. Assignments stay as they are. -/
def fold (folding : Folding σ) (room : Room) : Expr → Effect σ Expr
  | .operation operator operands => do
    let inner ← Effect.descend room price.folding
    let folded ← foldAll folding inner operands
    folding.foldNode (.operation operator folded)
  | .call name arguments => do
    let inner ← Effect.descend room price.folding
    let folded ← foldAll folding inner arguments
    if (folding.functions name).isNone then return .call name folded
    else folding.foldNode (.call name folded)
  | .block statements => do
    let inner ← Effect.descend room price.folding
    let folded ← foldAll folding inner statements
    folding.foldNode (.block folded)
  | .unknown => throw .unknownNode
  | .number value => return .number value
  | .variable name => return .variable name
  | .assignment target value => return .assignment target value

def foldAll (folding : Folding σ) (room : Room) : List Expr → Effect σ (List Expr)
  | [] => return []
  | first :: rest => do
    let folded ← fold folding room first
    let others ← foldAll folding room rest
    return folded :: others

end

/-- Folds a whole tree. -/
def optimize (folding : Folding σ) (room : Room) (e : Expr) : Effect σ Expr :=
  (fold folding room e).boundDepth

end Formula
