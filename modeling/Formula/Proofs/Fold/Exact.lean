import Formula.Proofs.Fold.Simulation
import Formula.Proofs.Fold.Total
import Formula.Proofs.Parser.Shape

namespace Formula

variable {σ : Type} {table : PureTable} {env : Environment σ} {folding : Folding σ}

namespace Expr

mutual

/-- The nodes of a tree that are not inside of assignments. -/
def outerNodes : Expr → List Expr
  | .operation operator operands => .operation operator operands :: outerNodesOf operands
  | .call name arguments => .call name arguments :: outerNodesOf arguments
  | .block statements => .block statements :: outerNodesOf statements
  | .number value => [.number value]
  | .variable name => [.variable name]
  | .assignment target value => [.assignment target value]
  | .unknown => [.unknown]

def outerNodesOf : List Expr → List Expr
  | [] => []
  | first :: rest => first.outerNodes ++ outerNodesOf rest

end

theorem outerNodes_subset_of_mem {e : Expr} {es : List Expr} (member : e ∈ es) :
    e.outerNodes ⊆ outerNodesOf es := by
  induction es with
  | nil => simp at member
  | cons first rest ih =>
    rw [outerNodesOf]
    rcases List.mem_cons.mp member with rfl | member
    · exact List.subset_append_left _ _
    · exact List.Subset.trans (ih member) (List.subset_append_right _ _)

end Expr

/-- Whether folding a tree joins no constants: wherever the operands of a sum or product are folded,
they are all numbers, or at most one of them is. -/
def Folding.JoinsNothing (folding : Folding σ) (e : Expr) : Prop :=
  ∀ operator operands, .operation operator operands ∈ e.outerNodes → operator.isCommutative →
    ∀ parts, List.Forall₂ folding.Yields operands parts →
      parts.all Expr.isNumber = true ∨ (parts.filter Expr.isNumber).length ≤ 1

theorem Folding.JoinsNothing.part {node e : Expr} {parts : List Expr}
    (h : folding.JoinsNothing node) (hparts : node.outerNodes = node :: Expr.outerNodesOf parts)
    (member : e ∈ parts) : folding.JoinsNothing e := by
  have hsub : e.outerNodes ⊆ node.outerNodes := by
    rw [hparts]
    exact List.Subset.trans (Expr.outerNodes_subset_of_mem member) (List.subset_cons_self _ _)
  exact fun operator operands hnode => h operator operands (hsub hnode)

theorem regroupAll_eq_self {es parts : List Expr} (yields : List.Forall₂ folding.Yields es parts)
    (each : ∀ e ∈ es, ∀ {folded}, folding.Yields e folded → e.regroup table = e) :
    Expr.regroupAll table es = es := by
  induction yields with
  | nil => rfl
  | cons first _ ih =>
    obtain ⟨hfirst, hrest⟩ := List.forall_mem_cons.mp each
    rw [Expr.regroupAll, hfirst first, ih hrest]

/-- A tree in which nothing is joined has nothing to regroup. -/
theorem regroup_eq_self {e folded : Expr} (calls : e.Everywhere (table.Matches folding.functions))
    (serves : e.Everywhere (table.Below env.functions)) (joinless : folding.JoinsNothing e)
    (yields : folding.Yields e folded) : e.regroup table = e := by
  induction e using Expr.inductionOn generalizing folded with
  | operation operator operands ih =>
    rw [Expr.everywhere_operation] at calls serves
    obtain ⟨parts, host, after, hparts, hnode⟩ := yields.operation
    have hself : Expr.regroupAll table operands = operands :=
      regroupAll_eq_self hparts fun e member _ =>
        ih e member (calls.2 e member) (serves.2 e member) (joinless.part rfl member)
    -- the folded operands stand for the operands as they are, so numbers among them are constants
    have mirrors : List.Forall₂ (Mirrors table env) parts operands := by
      have := Mirrors.regroupAll hparts fun e member _ =>
        mirrors_regroup (calls.2 e member) (serves.2 e member)
      rwa [hself] at this
    rw [Expr.regroup, hself, Expr.gather, if_neg fun hmixed => ?_]
    obtain ⟨commutes, hmany, hopen⟩ := (Mirrors.isMixed_iff operator mirrors).mp hmixed
    rcases joinless operator operands (by simp [Expr.outerNodes]) commutes parts hparts with
      hall | hfew
    · simp [hopen] at hall
    · omega
  | call name arguments ih =>
    rw [Expr.everywhere_call] at calls serves
    obtain ⟨parts, host, after, hparts, -⟩ := yields.call
    rw [Expr.regroup, regroupAll_eq_self hparts fun e member _ =>
      ih e member (calls.2 e member) (serves.2 e member) (joinless.part rfl member)]
  | block statements ih =>
    rw [Expr.everywhere_block] at calls serves
    obtain ⟨parts, host, after, hparts, -⟩ := yields.block
    rw [Expr.regroup, regroupAll_eq_self hparts fun e member _ =>
      ih e member (calls.2 e member) (serves.2 e member) (joinless.part rfl member)]
  | number value | reference name | assignment target value | unknown => rfl

namespace PureTable

theorem matches_folding (table : PureTable) (note : Note → σ → σ) :
    ∀ node : Expr, table.Matches (table.folding note).functions node
  | .call _ _ => rfl
  | .number _ | .variable _ | .operation .. | .assignment .. | .block _ | .unknown => trivial

theorem below_of_sub {functions : String → Option (Callee σ)}
    (sub : ∀ name function, table name = some function →
      functions name = some (.pureFunction function)) :
    ∀ node : Expr, table.Below functions node
  | .call name _ => sub name
  | .number _ | .variable _ | .operation .. | .assignment .. | .block _ | .unknown => trivial

end PureTable

namespace Expr

/-- Whether a node is no mixed sum or product once its operands are regrouped. -/
def IsUnmixed (table : PureTable) : Expr → Prop
  | .operation operator operands => ¬ IsMixed table operator (regroupAll table operands)
  | _ => True

instance (table : PureTable) : DecidablePred (IsUnmixed table)
  | .operation operator operands =>
    inferInstanceAs (Decidable (¬ IsMixed table operator (regroupAll table operands)))
  | .number _ | .variable _ | .assignment .. | .call .. | .block _ | .unknown =>
    inferInstanceAs (Decidable True)

end Expr

/-- Whether anything is joined can be told from the tree. -/
theorem joinsNothing_of_isUnmixed {e : Expr} (note : Note → σ → σ)
    (h : ∀ node ∈ e.outerNodes, node.IsUnmixed table) : (table.folding note).JoinsNothing e := by
  intro operator operands member commutes parts hparts
  have serves : ∀ node : Expr, table.Below (table.folding note).environment.functions node :=
    PureTable.below_of_sub fun name function found => PureTable.callee?_eq_some found
  have mirrors := Mirrors.regroupAll hparts fun e _ _ =>
    mirrors_regroup (fun node _ => table.matches_folding note node) fun node _ => serves node
  by_cases hall : parts.all Expr.isNumber = true
  · exact .inl hall
  · refine .inr (Nat.not_lt.mp fun hmany => h _ member ?_)
    exact (Mirrors.isMixed_iff operator mirrors).mpr ⟨commutes, hmany, by simpa using hall⟩

variable {room : Room} {force : Bool} {text : Option String} {tree : Expr}

/-- Folding a parsed tree with pure functions that return floats yields a tree. -/
theorem exists_fold_of_parse (parsed : parse room force text = .ok tree)
    (floats : table.IsClosed Value.IsFloat) (note : Note → σ → σ) :
    ∃ folded, (fold (table.folding note) .unlimited tree).Returns folded := by
  have program := isProgram_of_parse parsed
  obtain ⟨folded, returns, -⟩ := fold_returns floats
    (fun node _ => table.matches_folding note node) program.inShape program.isClosed
  exact ⟨folded, returns⟩

/-- Where folding joins no constants, the folded tree of a program has exactly the effect of the
program, whatever the variables, the handler and the functions that folding may not call. -/
theorem evaluate_optimize_exact (parsed : parse room force text = .ok tree)
    {functions : String → Option (Callee σ)}
    (sub : ∀ name function, table name = some function →
      functions name = some (.pureFunction function))
    (floats : ∀ name function, table name = some function → ∀ arguments value,
      function arguments = .ok value → value.IsFloat)
    {note : Note → σ → σ} (joinless : (table.folding note).JoinsNothing tree) :
    ∃ folded, (optimize (table.folding note) .unlimited tree).Returns folded ∧
      ∀ overrides missing frame,
        (evaluate ⟨overrides, functions, missing⟩ .unlimited folded).run frame =
          (evaluate ⟨overrides, functions, missing⟩ .unlimited tree).run frame := by
  have closed : table.IsClosed Value.IsFloat :=
    fun name function found arguments _ => floats name function found arguments
  obtain ⟨folded, returns⟩ := exists_fold_of_parse parsed closed note
  refine ⟨folded, optimize_returns returns, fun overrides missing frame => ?_⟩
  have yields := Folding.yields_of_returns returns frame.host
  have calls : tree.Everywhere (table.Matches (table.folding note).functions) :=
    fun node _ => table.matches_folding note node
  have serves : tree.Everywhere
      (table.Below (Environment.mk overrides functions missing).functions) :=
    fun node _ => PureTable.below_of_sub sub node
  rw [evaluate, evaluate, (mirrors_regroup calls serves yields).eval_eq,
    regroup_eq_self calls serves joinless yields]

/-- A table with one function, which doubles a float. -/
def doublingTable : PureTable := fun name =>
  if name = "double" then
    some fun arguments => match arguments with
      | [.float x] => .ok (.float (x + x))
      | _ => .error (.external .type "double takes one float")
  else none

/-- The functions of the table, and one that counts its calls. -/
def doublingFunctions (name : String) : Option (Callee Nat) :=
  if name = "count" then
    some (.function fun _ => do
      modify (· + 1)
      let calls ← get
      return .int calls)
  else doublingTable.callee? name

def doublingFolding : Folding Nat :=
  doublingTable.folding fun _ host => host

def doublingSource : String := "x = double(4); count(double(1 + 2) * x, y)"

theorem evaluate_optimize_exact_doubling :
    ∃ tree, parse .standard false (some doublingSource) = .ok tree ∧
      ∃ folded, (optimize doublingFolding .unlimited tree).Returns folded ∧
        ∀ overrides missing frame,
          (evaluate ⟨overrides, doublingFunctions, missing⟩ .unlimited folded).run frame =
            (evaluate ⟨overrides, doublingFunctions, missing⟩ .unlimited tree).run frame := by
  obtain ⟨tree, parsed, unmixed⟩ := @exists_ok_of_any _ _
    (parse .standard false (some doublingSource))
    (fun tree => decide (∀ node ∈ tree.outerNodes, node.IsUnmixed doublingTable))
    (by decide +kernel)
  refine ⟨tree, parsed, evaluate_optimize_exact parsed (fun name function found => ?_)
    (fun name function found arguments value returns => ?_)
    (joinsNothing_of_isUnmixed _ (of_decide_eq_true unmixed))⟩
  · have hname : name ≠ "count" := by
      rintro rfl
      simp [doublingTable] at found
    simp [doublingFunctions, hname, PureTable.callee?, found]
  · unfold doublingTable at found
    split at found
    next =>
      cases found
      dsimp only at returns
      split at returns
      next =>
        cases returns
        trivial
      next => cases returns
    next => simp at found

end Formula
