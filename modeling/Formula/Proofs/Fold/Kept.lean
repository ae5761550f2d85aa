import Formula.Proofs.Fold.Exact
import Formula.Proofs.Fold.Height

namespace Formula

open Formula.Expr

variable {σ : Type} {functions : String → Option (Callee σ)} {folding : Folding σ}

namespace Expr

/-- What is left of a node once everything that is constant is taken from it. -/
inductive Residue where
  | assignment (target value : Expr)
  | reference (name : String)
  | call (name : String)

def Residue.variableNames : Residue → List String
  | .assignment target value => (Expr.assignment target value).variableNames
  | .reference name => [name]
  | .call _ => []

/-- An assignment and a variable are left as they are, and a call if its function may not be called
ahead of time. -/
def residue? (functions : String → Option (Callee σ)) : Expr → Option Residue
  | .assignment target value => some (.assignment target value)
  | .variable name => some (.reference name)
  | .call name _ => if (functions name).isNone then some (.call name) else none
  | _ => none

/-- The assignments of a tree, each as a whole, and its other variables and calls. -/
def residues (functions : String → Option (Callee σ)) (e : Expr) : List Residue :=
  e.outerNodes.filterMap (residue? functions)

def residuesOf (functions : String → Option (Callee σ)) (es : List Expr) : List Residue :=
  (outerNodesOf es).filterMap (residue? functions)

section Residues

variable {e : Expr} {es es' : List Expr}

@[simp] theorem residuesOf_nil : residuesOf functions [] = [] := rfl

@[simp] theorem residuesOf_cons :
    residuesOf functions (e :: es) = e.residues functions ++ residuesOf functions es :=
  List.filterMap_append

theorem residuesOf_append :
    residuesOf functions (es ++ es') = residuesOf functions es ++ residuesOf functions es' := by
  induction es with
  | nil => rfl
  | cons first rest ih =>
    rw [List.cons_append, residuesOf_cons, residuesOf_cons, ih, List.append_assoc]

theorem residues_call {name : String} :
    residues functions (.call name es) =
      (if (functions name).isNone then [.call name] else []) ++ residuesOf functions es := by
  by_cases h : (functions name).isNone = true <;>
    simp [residues, outerNodes, residue?, residuesOf, h]

theorem residues_of_isNumber (h : e.isNumber = true) : e.residues functions = [] := by
  cases e with
  | number value => rfl
  | _ => cases h

/-- Numbers leave nothing. -/
theorem residuesOf_filter :
    residuesOf functions (es.filter (!·.isNumber)) = residuesOf functions es := by
  induction es with
  | nil => rfl
  | cons first rest ih =>
    cases h : first.isNumber with
    | true => simp [h, ih, residues_of_isNumber h]
    | false => simp [h, ih]

theorem residuesOf_numbers (h : es.all isNumber = true) : residuesOf functions es = [] := by
  have hnone : es.filter (!·.isNumber) = [] := by simpa using h
  rw [← residuesOf_filter, hnone, residuesOf_nil]

theorem variableNames_flatMap
    (h : ∀ e ∈ es, (e.residues functions).flatMap Residue.variableNames = e.variableNames) :
    (residuesOf functions es).flatMap Residue.variableNames = (nodesOf es).filterMap name? := by
  induction es with
  | nil => rfl
  | cons first rest ih =>
    obtain ⟨hfirst, hrest⟩ := List.forall_mem_cons.mp h
    rw [residuesOf_cons, List.flatMap_append, hfirst, ih hrest, nodesOf, List.filterMap_append,
      variableNames]

/-- The variables of a tree are those of what is left of it. -/
theorem flatMap_residues (e : Expr) :
    (e.residues functions).flatMap Residue.variableNames = e.variableNames := by
  induction e using Expr.inductionOn with
  | number value | unknown => rfl
  | reference name => rfl
  | assignment target value => exact List.append_nil _
  | operation operator operands ih => exact variableNames_flatMap ih
  | block statements ih => exact variableNames_flatMap ih
  | call name arguments ih =>
    have hhead : ((if (functions name).isNone then [Residue.call name] else []).flatMap
        Residue.variableNames) = [] := by
      split <;> rfl
    rw [residues_call, List.flatMap_append, hhead, List.nil_append, variableNames_flatMap ih]
    rfl

end Residues

theorem length_nodesOf_filter (es : List Expr) :
    (nodesOf es).length =
      (nodesOf (es.filter (!·.isNumber))).length + (es.filter isNumber).length := by
  induction es with
  | nil => rfl
  | cons first rest ih =>
    cases first with
    | number value =>
      have hone : (nodesOf (.number value :: rest)).length = (nodesOf rest).length + 1 := by
        simp [nodesOf, nodes]
      rw [hone, ih]
      simp [List.filter_cons, isNumber, Nat.add_assoc]
    | _ => simp [isNumber, nodesOf, ih, Nat.add_assoc]

theorem one_le_nodeCount (e : Expr) : 1 ≤ e.nodeCount := by
  cases e <;> simp [nodeCount, nodes]

end Expr

/-- Whether a tree keeps what is left of another one and has no more nodes. -/
structure Keeps (functions : String → Option (Callee σ)) (e folded : Expr) : Prop where
  residues : folded.residues functions = e.residues functions
  nodeCount_le : folded.nodeCount ≤ e.nodeCount

/-- The same of trees in a row. -/
structure KeepsAll (functions : String → Option (Callee σ)) (es parts : List Expr) : Prop where
  residues : residuesOf functions parts = residuesOf functions es
  length_le : (nodesOf parts).length ≤ (nodesOf es).length

namespace Keeps

variable {e between folded : Expr} {es parts : List Expr}

theorem refl (e : Expr) : Keeps functions e e :=
  ⟨rfl, Nat.le_refl _⟩

theorem trans (first : Keeps functions e between) (last : Keeps functions between folded) :
    Keeps functions e folded :=
  ⟨last.residues.trans first.residues, Nat.le_trans last.nodeCount_le first.nodeCount_le⟩

/-- Variables are part of what is kept. -/
theorem variableNames (keeps : Keeps functions e folded) :
    folded.variableNames = e.variableNames := by
  have hfolded : (folded.residues functions).flatMap Residue.variableNames =
      folded.variableNames := flatMap_residues folded
  rw [← hfolded, keeps.residues, flatMap_residues]

theorem operation (operator : Operator) (keeps : KeepsAll functions es parts) :
    Keeps functions (.operation operator es) (.operation operator parts) :=
  ⟨keeps.residues, Nat.succ_le_succ keeps.length_le⟩

theorem block (keeps : KeepsAll functions es parts) :
    Keeps functions (.block es) (.block parts) :=
  ⟨keeps.residues, Nat.succ_le_succ keeps.length_le⟩

theorem call (name : String) (keeps : KeepsAll functions es parts) :
    Keeps functions (.call name es) (.call name parts) :=
  ⟨by rw [residues_call, residues_call, keeps.residues], Nat.succ_le_succ keeps.length_le⟩

/-- A node that leaves nothing may become a number. -/
theorem of_isNumber (hnone : e.residues functions = []) (hnumber : folded.isNumber = true) :
    Keeps functions e folded := by
  refine ⟨by rw [residues_of_isNumber hnumber, hnone], ?_⟩
  cases folded with
  | number value => exact one_le_nodeCount e
  | _ => cases hnumber

end Keeps

theorem keepsAll_of_forall₂ {es parts : List Expr}
    (yields : List.Forall₂ folding.Yields es parts)
    (each : ∀ e ∈ es, ∀ {folded}, folding.Yields e folded → Keeps functions e folded) :
    KeepsAll functions es parts := by
  induction yields with
  | nil => exact ⟨rfl, Nat.le_refl _⟩
  | cons first _ ih =>
    obtain ⟨hfirst, hrest⟩ := List.forall_mem_cons.mp each
    have hhead := hfirst first
    have htail := ih hrest
    refine ⟨by rw [residuesOf_cons, residuesOf_cons, hhead.residues, htail.residues], ?_⟩
    have hcount := hhead.nodeCount_le
    have hlength := htail.length_le
    simp only [nodeCount] at hcount
    simp only [nodesOf, List.length_append]
    omega

/-- Joining takes several numbers out of a row and puts one behind it. -/
theorem keepsAll_joined {operands : List Expr} {constant : Expr}
    (hnumber : constant.isNumber = true) (hmany : 2 ≤ (operands.filter isNumber).length) :
    KeepsAll functions operands (operands.filter (!·.isNumber) ++ [constant]) := by
  constructor
  · rw [residuesOf_append, residuesOf_filter, residuesOf_cons, residues_of_isNumber hnumber,
      residuesOf_nil, List.append_nil, List.append_nil]
  · have hone : constant.nodes.length = 1 := by
      cases constant with
      | number value => rfl
      | _ => cases hnumber
    rw [length_nodesOf_filter operands, nodesOf_append, nodesOf_singleton, List.length_append, hone]
    omega

namespace Folding

variable {node folded : Expr} {host after : σ}

/-- A node that leaves nothing if its parts are numbers keeps what is left of it. -/
theorem keeps_of_foldNode
    (hnone : node.children.all isNumber = true → node.residues functions = [])
    (returns : (folding.foldNode node).run host = (.ok folded, after)) :
    Keeps functions node folded := by
  rcases foldNode_cases returns with ⟨hall, hconstant⟩ | ⟨-, rfl, -⟩ |
    ⟨operator, operands, constant, between, rfl, -, -, hmany, -, rfl⟩
  · rcases eq_or_isNumber_of_evaluateConstant hconstant with rfl | hnumber
    · exact .refl _
    · exact .of_isNumber (hnone hall) hnumber
  · exact .refl _
  · split
    next hnumber => exact .operation operator (keepsAll_joined hnumber hmany)
    next => exact .refl _

/-- Whatever folding yields keeps what folding may not touch. -/
theorem Yields.keeps {e : Expr} (yields : folding.Yields e folded) :
    Keeps folding.functions e folded := by
  induction e using Expr.inductionOn generalizing folded with
  | number value => exact yields.eq_of_number ▸ .refl _
  | reference name => exact yields.eq_of_variable ▸ .refl _
  | operation operator operands ih =>
    obtain ⟨parts, host, after, hparts, hnode⟩ := yields.operation
    have hkeeps := keepsAll_of_forall₂ hparts ih
    exact (Keeps.operation operator hkeeps).trans (keeps_of_foldNode residuesOf_numbers hnode)
  | assignment target value _ _ => exact yields.eq_of_assignment ▸ .refl _
  | call name arguments ih =>
    obtain ⟨parts, host, after, hparts, hcases⟩ := yields.call
    have hkeeps := Keeps.call name (keepsAll_of_forall₂ hparts ih)
    rcases hcases with ⟨-, rfl⟩ | ⟨hsome, hnode⟩
    · exact hkeeps
    · refine hkeeps.trans (keeps_of_foldNode (fun hall => ?_) hnode)
      -- the function may be called, so its name is not among what is left
      rw [residues_call, if_neg (by simpa [Option.isSome_iff_ne_none] using hsome),
        List.nil_append]
      exact residuesOf_numbers hall
  | block statements ih =>
    obtain ⟨parts, host, after, hparts, hnode⟩ := yields.block
    have hkeeps := keepsAll_of_forall₂ hparts ih
    exact (Keeps.block hkeeps).trans (keeps_of_foldNode residuesOf_numbers hnode)
  | unknown => exact absurd yields Yields.not_unknown

end Folding

end Formula
