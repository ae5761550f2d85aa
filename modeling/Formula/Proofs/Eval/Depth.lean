import Formula.Fold
import Formula.Proofs.Expr.Nodes

namespace Formula

variable {σ : Type} {env : Environment σ} {folding : Folding σ} {room : Room}

namespace Room

theorem holds_mono {levels fewer : Nat} (h : room.holds levels) (hle : fewer ≤ levels) :
    room.holds fewer := by
  cases room with
  | unlimited => rfl
  | frames left =>
    have : levels ≤ left := by simpa [holds] using h
    simpa [holds] using Nat.le_trans hle this

theorem enter?_of_holds {cost levels : Nat} (h : room.holds (cost + levels)) :
    ∃ inner, room.enter? cost = some inner ∧ inner.holds levels := by
  cases room with
  | unlimited => exact ⟨_, rfl, rfl⟩
  | frames left =>
    have : cost + levels ≤ left := by simpa [holds] using h
    refine ⟨.frames (left - cost), by simp [enter?, show cost ≤ left by omega], ?_⟩
    simp only [holds, decide_eq_true_eq]
    omega

end Room

namespace Expr

/-- Whether there is room to evaluate a tree level by level. -/
def Fits (room : Room) (e : Expr) : Prop :=
  room.holds (price.evaluation * e.height)

instance (room : Room) (e : Expr) : Decidable (e.Fits room) :=
  inferInstanceAs (Decidable (room.holds (price.evaluation * e.height) = true))

theorem height_le_heightOf {e : Expr} {es : List Expr} (member : e ∈ es) :
    e.height ≤ heightOf es := by
  induction es with
  | nil => simp at member
  | cons first rest ih =>
    rw [heightOf]
    rcases List.mem_cons.mp member with rfl | member
    · exact Nat.le_max_left _ _
    · exact Nat.le_trans (ih member) (Nat.le_max_right _ _)

theorem heightOf_le {es : List Expr} {bound : Nat} (h : ∀ e ∈ es, e.height ≤ bound) :
    heightOf es ≤ bound := by
  induction es with
  | nil => simp [heightOf]
  | cons first rest ih =>
    obtain ⟨hfirst, hrest⟩ := List.forall_mem_cons.mp h
    rw [heightOf]
    exact Nat.max_le.mpr ⟨hfirst, ih hrest⟩

theorem heightOf_append_singleton (es : List Expr) (e : Expr) :
    heightOf (es ++ [e]) = max (heightOf es) e.height := by
  induction es with
  | nil => simp [heightOf]
  | cons first rest ih => rw [List.cons_append, heightOf, heightOf, ih, Nat.max_assoc]

theorem one_le_height (e : Expr) : 1 ≤ e.height := by
  cases e <;> simp [height]

theorem height_lt_of_mem_children {e part : Expr} (member : part ∈ e.children) :
    part.height < e.height := by
  cases e with
  | operation operator parts | call name parts | block parts =>
    exact Nat.lt_succ_of_le (height_le_heightOf member)
  | assignment target value =>
    simp only [children, List.mem_cons, List.not_mem_nil, or_false] at member
    rcases member with rfl | rfl <;> simp only [height] <;> omega
  | number value | «variable» name | unknown => cases member

/-- What fits has room to go down. -/
theorem not_fits_of_enter? {e : Expr} (hnone : room.enter? price.evaluation = none) :
    ¬ e.Fits room := by
  intro fits
  have hlevels : room.holds (price.evaluation + 0) :=
    Room.holds_mono fits (Nat.le_mul_of_pos_right _ (one_le_height e))
  obtain ⟨inner, hinner, -⟩ := Room.enter?_of_holds hlevels
  cases hnone.symm.trans hinner

/-- The parts of what fits do so one level down. -/
theorem fits_of_mem_children {e part : Expr} {inner : Room} (fits : e.Fits room)
    (hinner : room.enter? price.evaluation = some inner) (member : part ∈ e.children) :
    part.Fits inner := by
  have hlevels : price.evaluation + price.evaluation * part.height ≤
      price.evaluation * e.height := by
    rw [Nat.add_comm, ← Nat.mul_succ]
    exact Nat.mul_le_mul_left _ (height_lt_of_mem_children member)
  obtain ⟨other, hother, hholds⟩ := Room.enter?_of_holds (Room.holds_mono fits hlevels)
  cases hother.symm.trans hinner
  exact hholds

end Expr

open Formula.Expr

/-- The room one level down, at a price up to that of evaluation, is enough for the parts. -/
theorem descend_of_fits {levels cost : Nat} (h : room.holds (price.evaluation * (levels + 1)))
    (hcost : cost ≤ price.evaluation) :
    ∃ inner, (∀ {σ : Type}, (Effect.descend room cost : Effect σ Room) = pure inner) ∧
      inner.holds (price.evaluation * levels) := by
  have hroom : room.holds (cost + price.evaluation * levels) :=
    Room.holds_mono h (by rw [Nat.mul_add]; omega)
  obtain ⟨inner, henter, hinner⟩ := Room.enter?_of_holds hroom
  exact ⟨inner, by simp [Effect.descend, henter], hinner⟩

theorem evalAll_of_fits {es : List Expr}
    (each : ∀ e ∈ es, eval env room e = eval env .unlimited e) :
    evalAll env room es = evalAll env .unlimited es := by
  induction es with
  | nil => rfl
  | cons first rest ih =>
    obtain ⟨hfirst, hrest⟩ := List.forall_mem_cons.mp each
    rw [evalAll, evalAll, hfirst, ih hrest]

theorem evalStatements_of_fits {es : List Expr}
    (each : ∀ e ∈ es, eval env room e = eval env .unlimited e) (before : Value) :
    evalStatements env room before es = evalStatements env .unlimited before es := by
  induction es generalizing before with
  | nil => rfl
  | cons first rest ih =>
    obtain ⟨hfirst, hrest⟩ := List.forall_mem_cons.mp each
    rw [evalStatements, evalStatements, hfirst]
    exact congrArg _ (funext fun value => ih hrest value)

theorem foldAll_of_fits {es : List Expr}
    (each : ∀ e ∈ es, fold folding room e = fold folding .unlimited e) :
    foldAll folding room es = foldAll folding .unlimited es := by
  induction es with
  | nil => rfl
  | cons first rest ih =>
    obtain ⟨hfirst, hrest⟩ := List.forall_mem_cons.mp each
    rw [foldAll, foldAll, hfirst, ih hrest]

theorem fits_of_mem {e : Expr} {es : List Expr}
    (h : room.holds (price.evaluation * heightOf es)) (member : e ∈ es) : e.Fits room :=
  Room.holds_mono h (Nat.mul_le_mul_left _ (height_le_heightOf member))

/-- Evaluating a tree that fits does not run out of room. -/
theorem eval_of_fits {e : Expr} (fits : e.Fits room) :
    eval env room e = eval env .unlimited e := by
  induction e using Expr.inductionOn generalizing room with
  | number value => rfl
  | reference name => rfl
  | operation operator operands ih =>
    obtain ⟨inner, hinner, hroom⟩ := descend_of_fits fits (Nat.le_refl _)
    rw [eval, eval, hinner, Effect.descend_unlimited, pure_bind, pure_bind,
      evalAll_of_fits fun e member => ih e member (fits_of_mem hroom member)]
  | assignment target value _ ih =>
    rw [eval, eval]
    split
    next => rfl
    next =>
      obtain ⟨inner, hinner, hroom⟩ := descend_of_fits fits (Nat.le_refl _)
      have hvalue : value.Fits inner :=
        Room.holds_mono hroom (Nat.mul_le_mul_left _ (Nat.le_max_right _ _))
      rw [hinner, Effect.descend_unlimited, pure_bind, pure_bind, ih hvalue]
  | call name arguments ih =>
    rw [eval, eval]
    split
    next => rfl
    next =>
      obtain ⟨inner, hinner, hroom⟩ := descend_of_fits fits (Nat.le_refl _)
      rw [hinner, Effect.descend_unlimited, pure_bind, pure_bind,
        evalAll_of_fits fun e member => ih e member (fits_of_mem hroom member)]
  | block statements ih =>
    obtain ⟨inner, hinner, hroom⟩ := descend_of_fits fits (Nat.le_refl _)
    rw [eval, eval, hinner, Effect.descend_unlimited, pure_bind, pure_bind,
      evalStatements_of_fits fun e member => ih e member (fits_of_mem hroom member)]
  | unknown => rfl

/-- Folding takes less room than evaluation. -/
theorem fold_of_fits {e : Expr} (fits : e.Fits room) :
    fold folding room e = fold folding .unlimited e := by
  have hprice : price.folding ≤ price.evaluation := by decide
  induction e using Expr.inductionOn generalizing room with
  | number value => rfl
  | reference name => rfl
  | assignment target value _ _ => rfl
  | unknown => rfl
  | operation operator parts ih | call name parts ih | block parts ih =>
    obtain ⟨inner, hinner, hroom⟩ := descend_of_fits fits hprice
    rw [fold, fold, hinner, Effect.descend_unlimited, pure_bind, pure_bind,
      foldAll_of_fits fun e member => ih e member (fits_of_mem hroom member)]

end Formula
