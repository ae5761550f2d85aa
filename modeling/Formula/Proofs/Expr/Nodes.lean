import Formula.Expr

namespace Formula

namespace Expr

/-- Induction over trees with the hypothesis for every member of a list of parts. -/
theorem inductionOn {motive : Expr → Prop}
    (number : ∀ value, motive (.number value))
    (reference : ∀ name, motive (.variable name))
    (operation : ∀ operator operands, (∀ e ∈ operands, motive e) →
      motive (.operation operator operands))
    (assignment : ∀ target value, motive target → motive value →
      motive (.assignment target value))
    (call : ∀ name arguments, (∀ e ∈ arguments, motive e) → motive (.call name arguments))
    (block : ∀ statements, (∀ e ∈ statements, motive e) → motive (.block statements))
    (unknown : motive .unknown) : ∀ e, motive e :=
  @Expr.rec motive (fun es => ∀ e ∈ es, motive e) number reference operation assignment call
    block unknown (by simp) (fun _ _ first rest => List.forall_mem_cons.mpr ⟨first, rest⟩)

theorem mem_nodesOf {node : Expr} {es : List Expr} :
    node ∈ nodesOf es ↔ ∃ e ∈ es, node ∈ e.nodes := by
  induction es with
  | nil => simp [nodesOf]
  | cons first rest ih => simp [nodesOf, ih]

theorem nodesOf_append (es es' : List Expr) :
    nodesOf (es ++ es') = nodesOf es ++ nodesOf es' := by
  induction es with
  | nil => rfl
  | cons first rest ih => rw [List.cons_append, nodesOf, nodesOf, ih, List.append_assoc]

theorem nodesOf_singleton (e : Expr) : nodesOf [e] = e.nodes :=
  List.append_nil _

theorem nodesOf_pair (e e' : Expr) : nodesOf [e, e'] = e.nodes ++ e'.nodes := by
  rw [nodesOf, nodesOf_singleton]

/-- Whether a condition holds at every node of a tree. -/
def Everywhere (P : Expr → Prop) (e : Expr) : Prop :=
  ∀ node ∈ e.nodes, P node

instance (P : Expr → Prop) [DecidablePred P] (e : Expr) : Decidable (e.Everywhere P) :=
  inferInstanceAs (Decidable (∀ node ∈ e.nodes, P node))

section Everywhere

variable {P Q : Expr → Prop}

theorem Everywhere.mono {e : Expr} (h : e.Everywhere P)
    (weaker : ∀ node, P node → Q node) : e.Everywhere Q :=
  fun node member => weaker node (h node member)

@[simp] theorem everywhere_number {value : Value} :
    Everywhere P (.number value) ↔ P (.number value) := by
  simp [Everywhere, nodes]

@[simp] theorem everywhere_variable {name : String} :
    Everywhere P (.variable name) ↔ P (.variable name) := by
  simp [Everywhere, nodes]

@[simp] theorem everywhere_operation {operator : Operator} {operands : List Expr} :
    Everywhere P (.operation operator operands) ↔
      P (.operation operator operands) ∧ ∀ e ∈ operands, Everywhere P e := by
  simp only [Everywhere, nodes, List.mem_cons, mem_nodesOf]
  grind

@[simp] theorem everywhere_assignment {target value : Expr} :
    Everywhere P (.assignment target value) ↔
      P (.assignment target value) ∧ Everywhere P target ∧ Everywhere P value := by
  simp only [Everywhere, nodes, List.mem_cons, List.mem_append]
  grind

@[simp] theorem everywhere_call {name : String} {arguments : List Expr} :
    Everywhere P (.call name arguments) ↔
      P (.call name arguments) ∧ ∀ e ∈ arguments, Everywhere P e := by
  simp only [Everywhere, nodes, List.mem_cons, mem_nodesOf]
  grind

@[simp] theorem everywhere_block {statements : List Expr} :
    Everywhere P (.block statements) ↔
      P (.block statements) ∧ ∀ e ∈ statements, Everywhere P e := by
  simp only [Everywhere, nodes, List.mem_cons, mem_nodesOf]
  grind

@[simp] theorem everywhere_unknown : Everywhere P .unknown ↔ P .unknown := by
  simp [Everywhere, nodes]

end Everywhere

end Expr

end Formula
