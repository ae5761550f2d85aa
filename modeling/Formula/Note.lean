import Formula.Expr.Text

namespace Formula

/-- What happened behind the scenes. Notes never change a result. -/
inductive Note where
  | notFound (name : String)
  | joined (count : Nat) (operator : Operator) (constant : Expr)
  | notFolded (node : Expr) (fault : Fault)
  | optimized (before after : Nat)
  | compiled (nodes defaults : Nat)
  | shadows (function : String)
  | registered (function : String)

namespace Note

/-- The part of the library that a note comes from. -/
def source : Note → String
  | notFound _ => "mathexpr.evaluator"
  | joined .. | notFolded .. => "mathexpr.optimizer"
  | optimized .. | registered _ => "mathexpr.expression"
  | compiled .. => "mathexpr.compiler"
  | shadows _ => "mathexpr.functions"

def text : Note → String
  | notFound name => s!"Variable '{name}' not found, calling miss handler"
  | joined count operator constant =>
    s!"Joined {count} constants of '{operator.symbol}' into {constant.literal}"
  | notFolded node fault => s!"Not folding {node.literal}: {fault.message}"
  | optimized before after => s!"Optimized AST from {before} to {after} nodes"
  | compiled nodes defaults =>
    s!"Compiled expression with {nodes} nodes and {defaults} default variables"
  | shadows function => s!"User function '{function}' shadows the built-in"
  | registered function => s!"Registered function '{function}'"

/-- The line that a reader of the notes sees. -/
def line (note : Note) : String :=
  s!"DEBUG {note.source}: {note.text}"

end Note

/-- A host state in which notes can be left. -/
class Journal (σ : Type) where
  write : Note → σ → σ

/-- Where nothing is written down. -/
instance : Journal Unit := ⟨fun _ host => host⟩

end Formula
