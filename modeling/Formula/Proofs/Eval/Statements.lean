import Formula.Proofs.Expr.Statements
import Formula.Proofs.Fold.Shape

namespace Formula

open Formula.Expr

variable {σ α β : Type} {env : Environment σ} {room other inner : Room} {e : Expr} {es : List Expr}

namespace Room

/-- Whether one room is no larger than another. -/
def AtMost : Room → Room → Prop
  | _, .unlimited => True
  | .unlimited, .frames _ => False
  | .frames left, .frames more => left ≤ more

/-- Where there is room to go down, a larger room has it too. -/
theorem AtMost.enter? {cost : Nat} (h : room.AtMost other)
    (hinner : room.enter? cost = some inner) :
    ∃ more, other.enter? cost = some more ∧ inner.AtMost more := by
  match room, other with
  | _, .unlimited => exact ⟨.unlimited, rfl, by cases inner <;> trivial⟩
  | .unlimited, .frames _ => exact h.elim
  | .frames left, .frames more =>
    have hmore : left ≤ more := h
    by_cases hcost : cost ≤ left
    · rw [Room.enter?, if_pos hcost] at hinner
      cases hinner
      have hless : left - cost ≤ more - cost := Nat.sub_le_sub_right hmore cost
      exact ⟨.frames (more - cost), if_pos (Nat.le_trans hcost hmore), hless⟩
    · rw [Room.enter?, if_neg hcost] at hinner
      cases hinner

theorem AtMost.of_enter? {cost : Nat} (h : room.enter? cost = some inner) : inner.AtMost room := by
  match room with
  | .unlimited => cases inner <;> trivial
  | .frames left =>
    by_cases hcost : cost ≤ left
    · rw [Room.enter?, if_pos hcost] at h
      cases h
      exact Nat.sub_le left cost
    · rw [Room.enter?, if_neg hcost] at h
      cases h

end Room

namespace Effect

/-- In a smaller room a computation gives up at most. -/
theorem Curbs.descend_both {cost : Nat} {next following : Room → Effect σ α}
    (hroom : room.AtMost other)
    (h : ∀ inner more, inner.AtMost more → (next inner).Curbs (following more)) :
    (Effect.descend room cost >>= next).Curbs (Effect.descend other cost >>= following) := by
  unfold Effect.descend
  cases hinner : room.enter? cost with
  | none => exact fun _ => .inr rfl
  | some inner =>
    obtain ⟨more, hmore, hless⟩ := hroom.enter? hinner
    rw [hmore]
    exact h inner more hless

end Effect

theorem evalAll_curbs (each : ∀ e ∈ es, (eval env room e).Curbs (eval env other e)) :
    (evalAll env room es).Curbs (evalAll env other es) := by
  induction es with
  | nil => exact .refl _
  | cons first rest ih =>
    obtain ⟨hfirst, hrest⟩ := List.forall_mem_cons.mp each
    rw [evalAll, evalAll]
    exact hfirst.bind fun _ => (ih hrest).bind fun _ => .refl _

theorem evalStatements_curbs (each : ∀ e ∈ es, (eval env room e).Curbs (eval env other e))
    (before : Value) :
    (evalStatements env room before es).Curbs (evalStatements env other before es) := by
  induction es generalizing before with
  | nil => exact .refl _
  | cons first rest ih =>
    obtain ⟨hfirst, hrest⟩ := List.forall_mem_cons.mp each
    rw [evalStatements, evalStatements]
    exact hfirst.bind fun value => ih hrest value

/-- In a smaller room evaluation does the same, or gives up. -/
theorem eval_curbs (env : Environment σ) (h : room.AtMost other) (e : Expr) :
    (eval env room e).Curbs (eval env other e) := by
  induction e using Expr.inductionOn generalizing room other with
  | number value | reference name | unknown => exact .refl _
  | operation operator operands ih =>
    rw [eval, eval]
    exact .descend_both h fun inner more hless =>
      (evalAll_curbs fun e member => ih e member hless).bind fun _ => .refl _
  | assignment target value _ ih =>
    rw [eval, eval]
    split
    next => exact .refl _
    next => exact .descend_both h fun inner more hless => (ih hless).bind fun _ => .refl _
  | call name arguments ih =>
    rw [eval, eval]
    split
    next => exact .refl _
    next =>
      exact .descend_both h fun inner more hless =>
        (evalAll_curbs fun e member => ih e member hless).bind fun _ => .refl _
  | block statements ih =>
    rw [eval, eval]
    exact .descend_both h fun inner more hless =>
      evalStatements_curbs (fun e member => ih e member hless) .none

namespace Run

/-- Whether a computation leaves the variables alone, however it ends. -/
def LeavesStore (x : Run σ α) : Prop :=
  ∀ frame, (x.run frame).2.store = frame.store

variable {x : Run σ α} {next : α → Run σ β}

theorem LeavesStore.pure (value : α) : (Pure.pure value : Run σ α).LeavesStore :=
  fun _ => rfl

theorem LeavesStore.throw (fault : Fault) : (throw fault : Run σ α).LeavesStore :=
  fun _ => rfl

theorem LeavesStore.bind (h : x.LeavesStore) (hnext : ∀ value, (next value).LeavesStore) :
    (x >>= next).LeavesStore := by
  intro frame
  have hfirst := h frame
  rw [Effect.run_bind]
  rcases hx : x.run frame with ⟨fault | value, after⟩
  · rw [hx] at hfirst
    exact hfirst
  · rw [hx] at hfirst
    exact (hnext value after).trans hfirst

theorem LeavesStore.ofExcept (result : Except Fault α) :
    LeavesStore (Effect.ofExcept result : Run σ α) := by
  intro frame
  rw [Effect.run_ofExcept]

theorem LeavesStore.ofHost (x : Effect σ α) : (ofHost x).LeavesStore :=
  fun _ => rfl

theorem LeavesStore.descend (room : Room) (cost : Nat) :
    LeavesStore (Effect.descend room cost : Run σ Room) := by
  unfold Effect.descend
  split
  next => exact .pure _
  next => exact .throw _

end Run

open Run

theorem readVariable_leavesStore (overrides : Store) (missing : String → Effect σ Value)
    (name : String) : (readVariable overrides missing name).LeavesStore := by
  intro frame
  unfold readVariable
  split
  next => rfl
  next =>
    rw [Effect.run_bind, Effect.run_get]
    dsimp only
    split <;> rfl

theorem evalAll_leavesStore (each : ∀ e ∈ es, (eval env room e).LeavesStore) :
    (evalAll env room es).LeavesStore := by
  induction es with
  | nil => exact .pure _
  | cons first rest ih =>
    obtain ⟨hfirst, hrest⟩ := List.forall_mem_cons.mp each
    rw [evalAll]
    exact hfirst.bind fun _ => (ih hrest).bind fun _ => .pure _

theorem evalStatements_leavesStore (each : ∀ e ∈ es, (eval env room e).LeavesStore)
    (before : Value) : (evalStatements env room before es).LeavesStore := by
  induction es generalizing before with
  | nil => exact .pure _
  | cons first rest ih =>
    obtain ⟨hfirst, hrest⟩ := List.forall_mem_cons.mp each
    rw [evalStatements]
    exact hfirst.bind fun value => ih hrest value

theorem eval_leavesStore (reads : e.Everywhere IsReadOnly) :
    (eval env room e).LeavesStore := by
  induction e using Expr.inductionOn generalizing room with
  | number value => exact .pure _
  | reference name => exact readVariable_leavesStore _ _ name
  | operation operator operands ih =>
    have hoperands := (everywhere_operation.mp reads).2
    rw [eval]
    exact (LeavesStore.descend room _).bind fun inner =>
      (evalAll_leavesStore fun e member => ih e member (hoperands e member)).bind fun _ =>
        .ofExcept _
  | assignment target value _ _ => exact absurd rfl (everywhere_assignment.mp reads).1
  | call name arguments ih =>
    have harguments := (everywhere_call.mp reads).2
    rw [eval]
    split
    next => exact .throw _
    next =>
      exact (LeavesStore.descend room _).bind fun inner =>
        (evalAll_leavesStore fun e member => ih e member (harguments e member)).bind fun _ =>
          .ofHost _
  | block statements ih =>
    have hstatements := (everywhere_block.mp reads).2
    rw [eval]
    exact (LeavesStore.descend room _).bind fun inner =>
      evalStatements_leavesStore (fun e member => ih e member (hstatements e member)) .none
  | unknown => exact .throw _

/-- A statement leaves the variables alone, or it succeeds and has written its target. -/
theorem store_eval_of_isAtomic (env : Environment σ) (room : Room) (atomic : e.IsAtomic)
    (frame : Frame σ) :
    ((eval env room e).run frame).2.store = frame.store ∨
      ∃ name value after, e.target? = some name ∧
        (eval env room e).run frame = (.ok value, after) ∧
          after.store = frame.store.set name value := by
  rcases atomic with reads | ⟨target, value, rfl, reads⟩
  · exact .inl (eval_leavesStore reads frame)
  · rw [eval, target?]
    cases target.name? with
    | none => exact .inl rfl
    | some name =>
      dsimp only
      unfold Effect.descend
      cases room.enter? price.evaluation with
      | none => exact .inl rfl
      | some inner =>
        have hvalue : ((eval env inner value).run frame).2.store = frame.store :=
          eval_leavesStore reads frame
        dsimp only
        rw [pure_bind, Effect.run_bind]
        rcases hrun : (eval env inner value).run frame with ⟨fault | result, after⟩
        · rw [hrun] at hvalue
          exact .inl hvalue
        · rw [hrun] at hvalue
          refine .inr ⟨name, result, _, rfl, rfl, ?_⟩
          exact congrArg (Store.set · name result) hvalue

/-- Statements run to the end, or up to one that fails. -/
theorem evalStatements_stops (env : Environment σ) (room : Room) (before : Value) (es : List Expr)
    (start : Frame σ) :
    ∃ done later value between, es = done ++ later ∧
      (evalStatements env room before done).run start = (.ok value, between) ∧
      (later = [] ∧ (evalStatements env room before es).run start = (.ok value, between) ∨
        ∃ failing rest fault after, later = failing :: rest ∧
          (eval env room failing).run between = (.error fault, after) ∧
            (evalStatements env room before es).run start = (.error fault, after)) := by
  induction es generalizing before start with
  | nil => exact ⟨[], [], before, start, rfl, rfl, .inl ⟨rfl, rfl⟩⟩
  | cons first rest ih =>
    rcases hfirst : (eval env room first).run start with ⟨fault | value, between⟩
    · refine ⟨[], first :: rest, before, start, rfl, rfl, .inr ⟨first, rest, fault, between, rfl,
        hfirst, ?_⟩⟩
      rw [evalStatements, Effect.run_bind, hfirst]
    · have hstep : ∀ es, (evalStatements env room before (first :: es)).run start =
          (evalStatements env room value es).run between := by
        intro es
        rw [evalStatements, Effect.run_bind, hfirst]
      obtain ⟨done, later, last, stop, rfl, hdone, hlater⟩ := ih value between
      refine ⟨first :: done, later, last, stop, rfl, ?_, ?_⟩
      · rw [hstep, hdone]
      · rw [hstep]
        exact hlater

/-- Only targets of the statements can differ behind statements that succeed. -/
theorem get?_evalStatements {before value : Value} {start after : Frame σ}
    (atomic : ∀ e ∈ es, e.IsAtomic)
    (h : (evalStatements env room before es).run start = (.ok value, after)) {name : String}
    (differs : after.store.get? name ≠ start.store.get? name) :
    ∃ statement ∈ es, statement.target? = some name := by
  induction es generalizing before start with
  | nil =>
    cases h
    exact absurd rfl differs
  | cons first rest ih =>
    obtain ⟨hfirst, hrest⟩ := List.forall_mem_cons.mp atomic
    rw [evalStatements] at h
    obtain ⟨result, between, hrun, h⟩ := Effect.exists_of_run_bind h
    by_cases hbetween : after.store.get? name = between.store.get? name
    · have hchanged := store_eval_of_isAtomic env room hfirst start
      rw [hrun] at hchanged
      rcases hchanged with hsame | ⟨written, _, _, htarget, ⟨⟩, hset⟩
      · rw [hbetween, hsame] at differs
        exact absurd rfl differs
      · rw [hbetween, hset, Store.get?_set] at differs
        have hname : name = written := by
          by_contra hother
          exact differs (if_neg (by simpa using hother))
        exact ⟨first, List.mem_cons_self, hname ▸ htarget⟩
    · obtain ⟨statement, member, htarget⟩ := ih hrest h hbetween
      exact ⟨statement, List.mem_cons_of_mem first member, htarget⟩

/-- Statements that succeed in the room of a block do so in a program of their own. -/
theorem evaluate_ofStatements {value : Value} {start after : Frame σ}
    (hinner : room.enter? price.evaluation = some inner)
    (h : (evalStatements env inner .none es).run start = (.ok value, after)) :
    (evaluate env room (.ofStatements es)).run start = (.ok value, after) := by
  have heval : (eval env room (.ofStatements es)).run start = (.ok value, after) := by
    have hblock : (eval env room (.block es)).run start = (.ok value, after) := by
      rw [eval, Effect.descend, hinner]
      exact h
    rcases es with _ | ⟨statement, _ | ⟨second, rest⟩⟩
    · exact hblock
    · obtain ⟨result, between, hrun, h⟩ := Effect.exists_of_run_bind h
      cases h
      exact (eval_curbs env (Room.AtMost.of_enter? hinner) statement).refines _ _ _ hrun
    · exact hblock
  rw [evaluate, Effect.run_boundDepth, heval]
  rfl

end Formula
