import Formula.Proofs.Eval.Depth
import Formula.Proofs.Fold.Cases

namespace Formula

variable {σ : Type} {env : Environment σ} {folding : Folding σ} {room : Room}

open Formula.Expr

namespace Folding

variable {node folded : Expr} {host after : σ}

theorem eq_or_isNumber_of_evaluateConstant
    (returns : (folding.evaluateConstant node).run host = (.ok folded, after)) :
    folded = node ∨ folded.isNumber = true := by
  unfold evaluateConstant at returns
  dsimp only at returns
  split at returns
  next value _ =>
    cases returns
    exact .inr rfl
  next fault _ =>
    split at returns
    next =>
      cases returns
      exact .inl rfl
    next => simp at returns

theorem height_le_of_evaluateConstant
    (returns : (folding.evaluateConstant node).run host = (.ok folded, after)) :
    folded.height ≤ node.height := by
  rcases eq_or_isNumber_of_evaluateConstant returns with rfl | hnumber
  · exact Nat.le_refl _
  · cases folded with
    | number value => exact one_le_height node
    | _ => simp [isNumber] at hnumber

theorem height_le_of_foldNode
    (returns : (folding.foldNode node).run host = (.ok folded, after)) :
    folded.height ≤ node.height := by
  rcases foldNode_cases returns with ⟨-, hconstant⟩ | ⟨-, rfl, -⟩ |
    ⟨operator, operands, constant, between, rfl, -, -, hmany, hconstant, rfl⟩
  · exact height_le_of_evaluateConstant hconstant
  · exact Nat.le_refl _
  · split
    next hnumber =>
      simp only [height, Nat.add_le_add_iff_right]
      refine heightOf_le fun e member => ?_
      rcases List.mem_append.mp member with member | member
      · exact height_le_heightOf (List.mem_of_mem_filter member)
      · -- the joined number is no higher than any of the operands
        obtain ⟨e', member'⟩ := List.exists_mem_of_length_pos (Nat.lt_of_lt_of_le Nat.two_pos hmany)
        have hbelow := height_le_heightOf (List.mem_of_mem_filter member')
        rw [List.mem_singleton.mp member]
        cases constant with
        | number value => exact Nat.le_trans (one_le_height e') hbelow
        | _ => simp [isNumber] at hnumber
    next => exact Nat.le_refl _

end Folding

theorem heightOf_le_of_forall₂ {es operands : List Expr}
    (yields : List.Forall₂ folding.Yields es operands)
    (each : ∀ e ∈ es, ∀ folded, folding.Yields e folded → folded.height ≤ e.height) :
    heightOf operands ≤ heightOf es := by
  induction yields with
  | nil => exact Nat.le_refl _
  | cons first _ ih =>
    obtain ⟨hfirst, hrest⟩ := List.forall_mem_cons.mp each
    have hhead := hfirst _ first
    have htail := ih hrest
    simp only [heightOf]
    omega

/-- What folding yields is no higher than the tree. -/
theorem height_le_of_yields {e folded : Expr} (yields : folding.Yields e folded) :
    folded.height ≤ e.height := by
  induction e using Expr.inductionOn generalizing folded with
  | number value => exact yields.eq_of_number ▸ Nat.le_refl _
  | reference name => exact yields.eq_of_variable ▸ Nat.le_refl _
  | operation operator operands ih =>
    obtain ⟨parts, host, after, hparts, hnode⟩ := yields.operation
    have hheight := heightOf_le_of_forall₂ hparts fun e member _ => ih e member
    exact Nat.le_trans (Folding.height_le_of_foldNode hnode) (Nat.add_le_add_right hheight 1)
  | assignment target value _ _ => exact yields.eq_of_assignment ▸ Nat.le_refl _
  | call name arguments ih =>
    obtain ⟨parts, host, after, hparts, hcases⟩ := yields.call
    have hheight := heightOf_le_of_forall₂ hparts fun e member _ => ih e member
    have hcall : (Expr.call name parts).height ≤ (Expr.call name arguments).height :=
      Nat.add_le_add_right hheight 1
    rcases hcases with ⟨-, rfl⟩ | ⟨-, hnode⟩
    · exact hcall
    · exact Nat.le_trans (Folding.height_le_of_foldNode hnode) hcall
  | block statements ih =>
    obtain ⟨parts, host, after, hparts, hnode⟩ := yields.block
    have hheight := heightOf_le_of_forall₂ hparts fun e member _ => ih e member
    exact Nat.le_trans (Folding.height_le_of_foldNode hnode) (Nat.add_le_add_right hheight 1)
  | unknown => exact absurd yields Folding.Yields.not_unknown

theorem fits_of_yields {e folded : Expr} (fits : e.Fits room)
    (yields : folding.Yields e folded) : folded.Fits room :=
  Room.holds_mono fits (Nat.mul_le_mul_left _ (height_le_of_yields yields))

end Formula
