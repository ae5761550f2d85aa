import Formula.Proofs.Expr.Shape
import Formula.Proofs.Expr.Statements

namespace Formula

namespace Expr

/-- The parts that a node is evaluated from. The target of an assignment is only named. -/
def evaluated : Expr → List Expr
  | .assignment _ value => [value]
  | node => node.children

mutual

/-- The nodes of a tree that are evaluated, each behind its parts. -/
def postorder : Expr → List Expr
  | .operation operator operands => postorderOf operands ++ [.operation operator operands]
  | .assignment target value => value.postorder ++ [.assignment target value]
  | .call name arguments => postorderOf arguments ++ [.call name arguments]
  | .block statements => postorderOf statements ++ [.block statements]
  | .number value => [.number value]
  | .variable name => [.variable name]
  | .unknown => [.unknown]

def postorderOf : List Expr → List Expr
  | [] => []
  | first :: rest => first.postorder ++ postorderOf rest

end

/-- The node that an assignment names. -/
def assignee? : Expr → Option Expr
  | .assignment target _ => some target
  | _ => none

/-- The nodes of some trees are those in postorder and the targets. -/
theorem nodesOf_perm {es : List Expr}
    (each : ∀ e ∈ es, e.nodes.Perm (e.postorder ++ e.nodes.filterMap assignee?)) :
    (nodesOf es).Perm (postorderOf es ++ (nodesOf es).filterMap assignee?) := by
  induction es with
  | nil => exact .refl _
  | cons first rest ih =>
    obtain ⟨hfirst, hrest⟩ := List.forall_mem_cons.mp each
    rw [nodesOf, postorderOf, List.filterMap_append]
    refine (hfirst.append (ih hrest)).trans ?_
    rw [List.append_assoc, List.append_assoc]
    refine .append_left _ ?_
    rw [← List.append_assoc, ← List.append_assoc]
    exact List.perm_append_comm.append_right _

/-- A node stands in front of its parts in one order and behind them in the other. -/
theorem cons_perm {node : Expr} {below order targets : List Expr}
    (h : below.Perm (order ++ targets)) :
    (node :: below).Perm ((order ++ [node]) ++ targets) := by
  rw [List.append_assoc]
  exact (h.cons node).trans List.perm_middle.symm

/-- Every node is evaluated once unless it is the target of an assignment. -/
theorem nodes_perm {e : Expr} (shape : e.Everywhere InShape) :
    e.nodes.Perm (e.postorder ++ e.nodes.filterMap assignee?) := by
  induction e using Expr.inductionOn with
  | number value | reference name => exact .refl _
  | operation operator operands ih =>
    have hparts := (everywhere_operation.mp shape).2
    exact cons_perm (nodesOf_perm fun e member => ih e member (hparts e member))
  | call name arguments ih =>
    have hparts := (everywhere_call.mp shape).2
    exact cons_perm (nodesOf_perm fun e member => ih e member (hparts e member))
  | block statements ih =>
    have hparts := (everywhere_block.mp shape).2
    exact cons_perm (nodesOf_perm fun e member => ih e member (hparts e member))
  | assignment target value _ ih =>
    obtain ⟨hname, -, hvalue⟩ := everywhere_assignment.mp shape
    cases target with
    | «variable» name =>
      refine cons_perm ?_
      exact ((ih hvalue).cons (.variable name)).trans List.perm_middle.symm
    | _ => cases hname
  | unknown => exact absurd shape (by simp [InShape])

theorem mem_nodes_of_mem_postorder {node e : Expr} (shape : e.Everywhere InShape)
    (member : node ∈ e.postorder) : node ∈ e.nodes :=
  (nodes_perm shape).mem_iff.mpr (List.mem_append_left _ member)

end Expr

end Formula
