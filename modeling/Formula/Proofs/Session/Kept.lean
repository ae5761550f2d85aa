import Formula.Proofs.Fold.Kept
import Formula.Proofs.Fold.Normal
import Formula.Proofs.Session.Overflow

namespace Formula

open Formula.Expr

variable {σ : Type}

namespace Calculator

variable {calculator made : Calculator σ} {host after : σ}

/-- What a calculator says about the variables of its formula. -/
def listing (calculator : Calculator σ) : Except Fault (List String) := do
  listVariables (← calculator.requireTree)

theorem listing_of_tree {tree : Expr} (htree : calculator.tree = some tree) :
    calculator.listing = listVariables tree := by
  rw [listing, requireTree_eq_ok_iff.mpr htree]
  rfl

theorem listVariables_of_yields {folding : Folding σ} {tree folded : Expr}
    (hheight : tree.height ≤ 985) (yields : folding.Yields tree folded) :
    listVariables folded = listVariables tree := by
  have hlow := Nat.le_trans (height_le_of_yields yields) hheight
  rw [listVariables, listVariables, if_pos (holds_standard.mpr hheight),
    if_pos (holds_standard.mpr hlow), yields.keeps.variableNames]

theorem listing_optimize [Journal σ] {registry : Registry σ}
    (optimized : (calculator.optimize registry).run host = (.ok made, after)) :
    made.listing = calculator.listing := by
  obtain ⟨tree, folded, _, htree, hheight, hfolded, rfl⟩ := optimize_eq_ok_iff.mp ⟨_, optimized⟩
  rw [listing_of_tree htree, listing_of_tree rfl]
  exact listVariables_of_yields hheight (yields_of_optimize hfolded)

end Calculator

namespace Session

variable [Journal σ] (session : Session σ)

theorem reply_listVariables (name : String) :
    (session.step (.listVariables name)).1 =
      match (session.calculator? name).map Calculator.listing with
      | none => .error (absent name)
      | some names => (names.map .names).mapError .fault := by
  rw [step, inspect]
  cases session.calculator? name with
  | none => rfl
  | some calculator =>
    simp only [Option.map_some, Calculator.listing]
    cases calculator.requireTree with
    | error fault => rfl
    | ok tree =>
      simp only [bind, Except.bind]
      cases Calculator.listVariables tree <;> rfl

/-- Optimizing one calculator changes what none of them says about its variables. -/
theorem listing_step_optimize (name other : String) :
    ((session.step (.optimize name)).2.calculator? other).map Calculator.listing =
      (session.calculator? other).map Calculator.listing := by
  rw [step, update]
  cases found : session.calculator? name with
  | none => rfl
  | some calculator =>
    rcases hrun : (calculator.optimize session.registry).run session.host with
      ⟨fault | made, after⟩
    · simp only [hrun]
      rfl
    · simp only [hrun, setCalculator, calculator?, lookup_enter]
      by_cases h : other = name
      · rw [if_pos h, h, ← calculator?, found, Option.map_some, Option.map_some,
          Calculator.listing_optimize hrun]
      · rw [if_neg h]

end Session

/-- Optimizing a tree keeps what folding may not touch: assignments as a whole, variables outside of
them and the calls of functions that may not be called ahead of time, in the order of the tree. So
it keeps the names of the variables, and it adds no node. A caller who lists the variables of any
calculator is told the same before and after another one, or the same one, is optimized. -/
theorem optimize_keeps :
    (∀ (folding : Folding σ) (room : Room) (e folded : Expr) (host after : σ),
      (optimize folding room e).run host = (.ok folded, after) →
        folded.residues folding.functions = e.residues folding.functions ∧
          folded.variableNames = e.variableNames ∧ folded.nodeCount ≤ e.nodeCount) ∧
      ∀ [Journal σ] (session : Session σ) (name other : String),
        ((session.step (.optimize name)).2.step (.listVariables other)).1 =
          (session.step (.listVariables other)).1 := by
  constructor
  · intro folding room e folded host after optimized
    have keeps := (yields_of_optimize optimized).keeps
    exact ⟨keeps.residues, keeps.variableNames, keeps.nodeCount_le⟩
  · intro _ session name other
    rw [Session.reply_listVariables, Session.reply_listVariables, session.listing_step_optimize]

/-- A tree with an assignment, constants to be joined, and calls of functions that may and that may
not be called ahead of time. -/
def mixedTree : Expr :=
  .block [.assignment (.variable "x") (.operation .add [.number (.int 1), .number (.int 1)]),
    .operation .add [.number (.int 1), .variable "y", .call "half" [.number (.int 10)],
      .call "count" [.operation .multiply [.number (.int 2), .number (.int 3)], .variable "x"],
      .number (.int 4)]]

def mixedFolded : Expr :=
  .block [.assignment (.variable "x") (.operation .add [.number (.int 1), .number (.int 1)]),
    .operation .add [.variable "y", .call "count" [.number (.int 6), .variable "x"],
      .number (.int 10)]]

theorem optimize_keeps_mixed :
    (optimize (halvingTable.folding fun _ (host : Unit) => host) .standard mixedTree).run () =
      (.ok mixedFolded, ()) ∧
      mixedFolded.residues (halvingTable.folding fun _ (host : Unit) => host).functions =
        mixedTree.residues (halvingTable.folding fun _ (host : Unit) => host).functions ∧
      mixedFolded.variableNames = mixedTree.variableNames ∧
      mixedFolded.nodeCount ≤ mixedTree.nodeCount := by
  have optimized :
      (optimize (halvingTable.folding fun _ (host : Unit) => host) .standard mixedTree).run () =
        (.ok mixedFolded, ()) := by
    rfl
  exact ⟨optimized, optimize_keeps.1 _ _ _ _ _ _ optimized⟩

end Formula
