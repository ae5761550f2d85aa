import Formula.Fold
import Formula.Function.Table
import Formula.Options
import Formula.Parser
import Formula.Program

namespace Formula

variable {σ : Type}

/-- Everything that a request can fail with. -/
inductive Trouble where
  | text (error : TextError)
  | fault (fault : Fault)
  | options (error : OptionError)

def Trouble.message : Trouble → String
  | .text error => error.message
  | .fault cause => cause.message
  | .options error => error.message

/-- A formula, the variables that formulas have assigned, and functions of its own. A new formula
replaces the old one and keeps variables and functions. -/
structure Calculator (σ : Type) where
  options : Options
  store : Store
  functions : FunctionTable σ
  tree : Option Expr
  /-- Supplies the values of variables that are found nowhere else. -/
  missing : String → Effect σ Value

/-- Leaves a note. -/
def Effect.note [Journal σ] (note : Note) : Effect σ Unit :=
  modify (Journal.write note)

namespace Calculator

def empty (options : Options) : Calculator σ :=
  ⟨options, ∅, .empty, none, undefinedVariable⟩

/-- Replaces the formula. -/
def parse (calculator : Calculator σ) (source : Option String) :
    Except TextError (Calculator σ) := do
  let tree ← Formula.parse .standard calculator.options.forceSemicolon source
  return { calculator with tree := some tree }

/-- A new calculator, with a formula if there is a source. -/
def create (source : Option String) (options : Options) : Except TextError (Calculator σ) :=
  match source with
  | some source => (empty options).parse (some source)
  | none => .ok (empty options)

/-- The formula, or the complaint that there is none. -/
def requireTree (calculator : Calculator σ) : Except Fault Expr :=
  match calculator.tree with
  | some tree => .ok tree
  | none => .error .noFormula

/-- What the formula is evaluated against. A variable that is found nowhere is noted. -/
def environment [Journal σ] (calculator : Calculator σ) (registry : Registry σ)
    (overrides : Store) : Environment σ where
  overrides
  functions := calculator.functions.resolve registry
  missing name := do
    Effect.note (.notFound name)
    calculator.missing name

/-- Evaluates the formula. The calculator keeps what was assigned, also before a fault. -/
def evaluate [Journal σ] (calculator : Calculator σ) (registry : Registry σ) (overrides : Store)
    (host : σ) : Except Fault Value × Calculator σ × σ :=
  match calculator.requireTree with
  | .error fault => (.error fault, calculator, host)
  | .ok tree =>
    let env := calculator.environment registry overrides
    let (result, frame) := (Formula.evaluate env .standard tree).run ⟨calculator.store, host⟩
    (result, { calculator with store := frame.store }, frame.host)

/-- The number of nodes of a tree that is not too deep to be counted. -/
def countNodes (tree : Expr) : Except Fault Nat :=
  if Room.standard.holds tree.height then .ok tree.nodeCount else .error .stackExhausted

/-- The names of the variables of a tree that is not too deep to be searched, in order. -/
def listVariables (tree : Expr) : Except Fault (List String) :=
  if Room.standard.holds tree.height then .ok (Text.sortedNames tree.variableNames)
  else .error .stackExhausted

/-- What folding may use: registered functions that are not hidden. -/
def folding [Journal σ] (calculator : Calculator σ) (registry : Registry σ) : Folding σ :=
  ⟨calculator.functions.foldable registry, Journal.write⟩

/-- Replaces the formula by one with its constants folded. -/
def optimize [Journal σ] (calculator : Calculator σ) (registry : Registry σ) :
    Effect σ (Calculator σ) := do
  let tree ← Effect.ofExcept calculator.requireTree
  let before ← Effect.ofExcept (countNodes tree)
  let folded ← Formula.optimize (calculator.folding registry) .standard tree
  let after ← Effect.ofExcept (countNodes folded)
  Effect.note (.optimized before after)
  return { calculator with tree := some folded }

/-- What the formula is compiled against: the variables, functions and handler of this moment. -/
def snapshot (calculator : Calculator σ) (registry : Registry σ) : Snapshot σ :=
  ⟨calculator.store, calculator.functions.resolve registry, calculator.missing⟩

def compile [Journal σ] (calculator : Calculator σ) (registry : Registry σ) :
    Effect σ (Program σ) := do
  let tree ← Effect.ofExcept calculator.requireTree
  let program ← Effect.ofExcept
    (Formula.compile (calculator.snapshot registry) .standard tree)
  let nodes ← Effect.ofExcept (countNodes tree)
  Effect.note (.compiled nodes calculator.store.size)
  return program

/-- Enters a function for this calculator alone. -/
def register [Journal σ] (calculator : Calculator σ) (registry : Registry σ) (name : String)
    (callee : Callee σ) : Effect σ (Calculator σ) :=
  match callee with
  | .inert => throw (.mustBeCallable name)
  | .function _ => do
    if registry.contains name then Effect.note (.shadows name)
    Effect.note (.registered name)
    return { calculator with functions := calculator.functions.register name callee }

def setVariable (calculator : Calculator σ) (name : String) (value : Value) : Calculator σ :=
  { calculator with store := calculator.store.set name value }

def deleteVariable (calculator : Calculator σ) (name : String) : Calculator σ :=
  { calculator with store := calculator.store.erase name }

/-- The verbose form of a calculator. -/
def literal (calculator : Calculator σ) : String :=
  let tree := match calculator.tree with
    | some tree => tree.literal
    | none => "None"
  "Expression(ast=" ++ tree ++ ")"

/-- The value of a source in a calculator of its own. -/
def evaluateOnce [Journal σ] (source : Option String) (options : Options) (registry : Registry σ)
    (overrides : Store) (host : σ) : Except Trouble Value × σ :=
  match create source options with
  | .error error => (.error (.text error), host)
  | .ok calculator =>
    let (result, _, host) := calculator.evaluate registry overrides host
    (result.mapError .fault, host)

end Calculator

/-- The verbose form of a compiled formula. -/
def Program.literal (program : Program σ) : String :=
  let names := program.names.map Text.quoted
  "CompiledExpression(variables=[" ++ ", ".intercalate names ++ "])"

end Formula
