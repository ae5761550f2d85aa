import Formula.Expr.Text
import Formula.Program
import Formula.Proofs.Effect
import Formula.Proofs.Eval.Depth
import Formula.Proofs.Expr.Shape

namespace Formula

namespace Room

variable {room inner : Room} {cost levels : Nat}

theorem holds_of_enter? (h : room.enter? cost = some inner) (hlevels : inner.holds levels) :
    room.holds (cost + levels) := by
  cases room with
  | unlimited => rfl
  | frames left =>
    rw [enter?] at h
    split at h
    next hcost =>
      cases h
      simp only [holds, decide_eq_true_eq] at hlevels ⊢
      omega
    next => cases h

theorem holds_succ_iff :
    room.holds (cost * (levels + 1)) = true ↔
      ∃ inner, room.enter? cost = some inner ∧ inner.holds (cost * levels) := by
  rw [Nat.mul_succ, Nat.add_comm]
  constructor
  · exact enter?_of_holds
  · rintro ⟨inner, henter, hinner⟩
    exact holds_of_enter? henter hinner

theorem holds_max_iff {more : Nat} :
    room.holds (cost * max levels more) = true ↔
      room.holds (cost * levels) = true ∧ room.holds (cost * more) = true := by
  constructor
  · intro h
    exact ⟨holds_mono h (Nat.mul_le_mul_left _ (Nat.le_max_left _ _)),
      holds_mono h (Nat.mul_le_mul_left _ (Nat.le_max_right _ _))⟩
  · rintro ⟨hlevels, hmore⟩
    rcases Nat.le_total levels more with hle | hle
    · rwa [Nat.max_eq_right hle]
    · rwa [Nat.max_eq_left hle]

@[simp] theorem holds_zero (room : Room) : room.holds 0 = true := by
  cases room <;> simp [holds]

end Room

namespace Expr

mutual

/-- The number of nodes with parts that lie one within the other. The target of an assignment does
not count. -/
def nesting : Expr → Nat
  | .operation _ operands => nestingOf operands + 1
  | .assignment _ value => nesting value + 1
  | .call _ arguments => nestingOf arguments + 1
  | .block statements => nestingOf statements + 1
  | _ => 0

def nestingOf : List Expr → Nat
  | [] => 0
  | first :: rest => max (nesting first) (nestingOf rest)

end

/-- Whether a node can be written: assignments have variables as targets. -/
def Printable : Expr → Prop
  | .assignment target _ => target.name?.isSome
  | .unknown => False
  | _ => True

theorem printable_of_inShape : ∀ node : Expr, node.InShape → node.Printable
  | .assignment .., h => h
  | .unknown, h => h
  | .number _, _ | .variable _, _ | .operation .., _ | .call .., _ | .block _, _ => trivial

variable {room : Room} {cost : Nat} {e : Expr} {es : List Expr}

theorem holds_nestingOf_iff :
    room.holds (cost * nestingOf es) = true ↔ ∀ e ∈ es, room.holds (cost * e.nesting) = true := by
  induction es with
  | nil => simp [nestingOf]
  | cons first rest ih => rw [List.forall_mem_cons, ← ih, nestingOf, Room.holds_max_iff]

theorem heightOf_le_nestingOf (h : ∀ e ∈ es, e.height ≤ e.nesting + 1) :
    heightOf es ≤ nestingOf es + 1 := by
  induction es with
  | nil => exact Nat.zero_le _
  | cons first rest ih =>
    obtain ⟨hfirst, hrest⟩ := List.forall_mem_cons.mp h
    have hothers := ih hrest
    simp only [heightOf, nestingOf]
    omega

/-- A tree that can be written is at most one level higher than its nodes with parts are deep. -/
theorem height_le_nesting (printable : e.Everywhere Printable) : e.height ≤ e.nesting + 1 := by
  induction e using Expr.inductionOn with
  | number value | reference name => exact Nat.le_refl _
  | operation operator operands ih =>
    rw [everywhere_operation] at printable
    have hparts := heightOf_le_nestingOf fun e member => ih e member (printable.2 e member)
    exact Nat.succ_le_succ hparts
  | assignment target value _ ih =>
    rw [everywhere_assignment] at printable
    have hvalue := ih printable.2.2
    have hpositive := one_le_height value
    cases target with
    | «variable» name =>
      -- the target does not count as a level of nesting, but it is no higher than the value
      simp only [height, nesting]
      omega
    | _ => cases printable.1
  | call name arguments ih =>
    rw [everywhere_call] at printable
    have hparts := heightOf_le_nestingOf fun e member => ih e member (printable.2 e member)
    exact Nat.succ_le_succ hparts
  | block statements ih =>
    rw [everywhere_block] at printable
    have hparts := heightOf_le_nestingOf fun e member => ih e member (printable.2 e member)
    exact Nat.succ_le_succ hparts
  | unknown => exact Nat.le_refl _

end Expr

/-- Whether a pass succeeds exactly where there is room for so many levels, and else gives up. -/
def Spends {α : Type} (room : Room) (cost levels : Nat) (result : Except Fault α) : Prop :=
  (room.holds (cost * levels) = true ∧ ∃ value, result = .ok value) ∨
    (room.holds (cost * levels) = false ∧ result = .error .stackExhausted)

namespace Spends

variable {α β : Type} {room : Room} {cost levels more : Nat} {result : Except Fault α}
  {next : α → Except Fault β}

protected theorem pure (value : α) : Spends room cost 0 (.ok value) :=
  .inl ⟨by simp, value, rfl⟩

/-- The deeper one of two passes decides. -/
protected theorem bind (h : Spends room cost levels result)
    (hnext : ∀ value, Spends room cost more (next value)) :
    Spends room cost (max levels more) (result >>= next) := by
  rcases h with ⟨hroom, value, rfl⟩ | ⟨hroom, rfl⟩
  · rcases hnext value with ⟨hmore, after, hafter⟩ | ⟨hmore, hafter⟩
    · exact .inl ⟨Room.holds_max_iff.mpr ⟨hroom, hmore⟩, after, hafter⟩
    · refine .inr ⟨?_, hafter⟩
      rw [Bool.eq_false_iff] at hmore ⊢
      exact fun h => hmore (Room.holds_max_iff.mp h).2
  · refine .inr ⟨?_, rfl⟩
    rw [Bool.eq_false_iff] at hroom ⊢
    exact fun h => hroom (Room.holds_max_iff.mp h).1

theorem map (h : Spends room cost levels result) (f : α → β) :
    Spends room cost levels (result >>= fun value => .ok (f value)) := by
  rw [← Nat.max_zero levels]
  exact h.bind fun value => .pure (f value)

theorem enter (hnone : room.enter? cost = none → result = .error .stackExhausted)
    (hsome : ∀ inner, room.enter? cost = some inner → Spends inner cost levels result) :
    Spends room cost (levels + 1) result := by
  cases henter : room.enter? cost with
  | none =>
    refine .inr ⟨?_, hnone henter⟩
    rw [Bool.eq_false_iff, ne_eq, Room.holds_succ_iff]
    rintro ⟨inner, hinner, -⟩
    cases henter.symm.trans hinner
  | some inner =>
    rcases hsome inner henter with ⟨hroom, hvalue⟩ | ⟨hroom, herror⟩
    · exact .inl ⟨Room.holds_succ_iff.mpr ⟨inner, henter, hroom⟩, hvalue⟩
    · refine .inr ⟨?_, herror⟩
      rw [Bool.eq_false_iff] at hroom ⊢
      intro hsucc
      obtain ⟨other, hother, hholds⟩ := Room.holds_succ_iff.mp hsucc
      cases henter.symm.trans hother
      exact hroom hholds

end Spends

namespace Expr

variable {room : Room} {e : Expr} {es : List Expr}

theorem textAll_spends
    (each : ∀ e ∈ es, Spends room price.printing e.nesting (e.text room)) :
    Spends room price.printing (nestingOf es) (textAll room es) := by
  induction es with
  | nil => exact .pure []
  | cons first rest ih =>
    obtain ⟨hfirst, hrest⟩ := List.forall_mem_cons.mp each
    rw [textAll, nestingOf]
    exact hfirst.bind fun written => (ih hrest).map (written :: ·)

theorem descend_spends {levels : Nat} {next : Room → Except Fault String}
    (hnext : ∀ inner, Spends inner price.printing levels (next inner)) :
    Spends room price.printing (levels + 1) (descend room >>= next) := by
  refine .enter (fun hnone => ?_) fun inner hsome => ?_
  · rw [descend, hnone]
    rfl
  · rw [descend, hsome]
    exact hnext inner

/-- Writing a tree fails exactly where its nodes lie too deep one within the other. -/
theorem text_spends (printable : e.Everywhere Printable) (room : Room) :
    Spends room price.printing e.nesting (e.text room) := by
  induction e using Expr.inductionOn generalizing room with
  | number value | reference name => exact .pure _
  | operation operator operands ih =>
    rw [everywhere_operation] at printable
    rw [text, nesting]
    refine descend_spends fun inner => Spends.map (textAll_spends fun e member => ?_) _
    exact ih e member (printable.2 e member) inner
  | assignment target value _ ih =>
    rw [everywhere_assignment] at printable
    rw [text, nesting]
    refine descend_spends fun inner => ?_
    cases target with
    | «variable» name => exact (ih printable.2.2 inner).map _
    | _ => cases printable.1
  | call name arguments ih =>
    rw [everywhere_call] at printable
    rw [text, nesting]
    refine descend_spends fun inner => Spends.map (textAll_spends fun e member => ?_) _
    exact ih e member (printable.2 e member) inner
  | block statements ih =>
    rw [everywhere_block] at printable
    rw [text, nesting]
    refine descend_spends fun inner => Spends.map (textAll_spends fun e member => ?_) _
    exact ih e member (printable.2 e member) inner
  | unknown => simp [Printable] at printable

end Expr

section Code

open Formula.Expr

variable {σ : Type} {snapshot : Snapshot σ} {room inner : Room} {e : Expr} {es : List Expr}

theorem enter?_of_descend (h : Snapshot.descend room = .ok inner) :
    room.enter? price.evaluation = some inner := by
  unfold Snapshot.descend at h
  split at h
  next found =>
    cases h
    exact found
  next => cases h

theorem forall_of_codeAll {P : Expr → Prop} {parts : List (Code σ)}
    (h : codeAll snapshot room es = .ok parts)
    (each : ∀ e ∈ es, ∀ code, Formula.code snapshot room e = .ok code → P e) : ∀ e ∈ es, P e := by
  induction es generalizing parts with
  | nil => simp
  | cons first rest ih =>
    obtain ⟨hfirst, hrest⟩ := List.forall_mem_cons.mp each
    rw [codeAll] at h
    obtain ⟨code, hcode, h⟩ := exists_of_bind_eq_ok h
    obtain ⟨others, hothers, -⟩ := exists_of_bind_eq_ok h
    exact List.forall_mem_cons.mpr ⟨hfirst code hcode, ih hothers hrest⟩

theorem holds_of_parts (hinner : Snapshot.descend room = .ok inner)
    (each : ∀ e ∈ es, inner.holds (price.evaluation * e.nesting) = true) :
    room.holds (price.evaluation * (nestingOf es + 1)) = true :=
  Room.holds_succ_iff.mpr ⟨inner, enter?_of_descend hinner, holds_nestingOf_iff.mpr each⟩

theorem nesting_of_code {code : Code σ} (h : Formula.code snapshot room e = .ok code) :
    e.Everywhere Printable ∧ room.holds (price.evaluation * e.nesting) = true := by
  induction e using Expr.inductionOn generalizing room code with
  | number value | reference name => exact ⟨by simp [Printable], room.holds_zero⟩
  | operation operator operands ih =>
    rw [Formula.code] at h
    obtain ⟨inner, hinner, h⟩ := exists_of_bind_eq_ok h
    obtain ⟨parts, hparts, -⟩ := exists_of_bind_eq_ok h
    have each := forall_of_codeAll hparts fun e member _ => ih e member
    exact ⟨everywhere_operation.mpr ⟨trivial, fun e member => (each e member).1⟩,
      holds_of_parts hinner fun e member => (each e member).2⟩
  | assignment target value _ ih =>
    rw [Formula.code] at h
    cases target with
    | «variable» name =>
      obtain ⟨inner, hinner, h⟩ := exists_of_bind_eq_ok h
      obtain ⟨valueCode, hvalue, -⟩ := exists_of_bind_eq_ok h
      obtain ⟨hprintable, hholds⟩ := ih hvalue
      exact ⟨everywhere_assignment.mpr ⟨rfl, everywhere_variable.mpr trivial, hprintable⟩,
        Room.holds_succ_iff.mpr ⟨inner, enter?_of_descend hinner, hholds⟩⟩
    | _ => cases h
  | call name arguments ih =>
    rw [Formula.code] at h
    split at h
    next => cases h
    next =>
      obtain ⟨inner, hinner, h⟩ := exists_of_bind_eq_ok h
      obtain ⟨parts, hparts, -⟩ := exists_of_bind_eq_ok h
      have each := forall_of_codeAll hparts fun e member _ => ih e member
      exact ⟨everywhere_call.mpr ⟨trivial, fun e member => (each e member).1⟩,
        holds_of_parts hinner fun e member => (each e member).2⟩
  | block statements ih =>
    rw [Formula.code] at h
    obtain ⟨inner, hinner, h⟩ := exists_of_bind_eq_ok h
    obtain ⟨parts, hparts, -⟩ := exists_of_bind_eq_ok h
    have each := forall_of_codeAll hparts fun e member _ => ih e member
    exact ⟨everywhere_block.mpr ⟨trivial, fun e member => (each e member).1⟩,
      holds_of_parts hinner fun e member => (each e member).2⟩
  | unknown => cases h

end Code

end Formula
