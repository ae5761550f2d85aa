import Formula.Proofs.Expr.Nodes

namespace Formula

namespace Expr

def statements : Expr → List Expr
  | .block statements => statements
  | statement => [statement]

/-- The program of some statements. A single one needs no block. -/
def ofStatements : List Expr → Expr
  | [statement] => statement
  | statements => .block statements

/-- The variable that a statement assigns. -/
def target? : Expr → Option String
  | .assignment target _ => target.name?
  | _ => none

/-- Whether a node writes no variable. -/
def IsReadOnly (node : Expr) : Prop :=
  node.kind ≠ .assignment

/-- Whether a tree can write a variable only as the last thing that it does. -/
def IsAtomic (e : Expr) : Prop :=
  e.Everywhere IsReadOnly ∨
    ∃ target value, e = .assignment target value ∧ value.Everywhere IsReadOnly

variable {e : Expr} {es : List Expr}

theorem statements_of_kind_ne_block (h : e.kind ≠ .block) : e.statements = [e] := by
  cases e with
  | block es => exact absurd rfl h
  | _ => rfl

/-- The statements of an atomic tree are atomic, even if it is a block. -/
theorem IsAtomic.statements (h : e.IsAtomic) : ∀ statement ∈ e.statements, statement.IsAtomic := by
  cases e with
  | block es =>
    rcases h with hreads | ⟨target, value, heq, -⟩
    · exact fun statement member => .inl ((everywhere_block.mp hreads).2 statement member)
    · cases heq
  | _ => exact List.forall_mem_singleton.mpr h

end Expr

end Formula
