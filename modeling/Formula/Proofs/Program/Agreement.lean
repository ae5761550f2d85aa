import Formula.Proofs.Eval.Unlimited
import Formula.Proofs.Expr.Shape
import Mathlib.Data.List.Forall2

namespace Formula

variable {σ : Type}

namespace Expr

/-- Whether a node calls no function that is missing. -/
def IsKnown (functions : String → Option (Callee σ)) : Expr → Prop
  | .call name _ => (functions name).isSome
  | _ => True

instance (functions : String → Option (Callee σ)) : DecidablePred (IsKnown functions)
  | .call name _ => inferInstanceAs (Decidable ((functions name).isSome = true))
  | .number _ | .variable _ | .operation .. | .assignment .. | .block _ | .unknown =>
    inferInstanceAs (Decidable True)

end Expr

namespace Snapshot

/-- What a call of a compiled formula is to be compared with. -/
def environment (snapshot : Snapshot σ) (overrides : Store) : Environment σ :=
  ⟨overrides, snapshot.functions, snapshot.missing⟩

/-- Code that does for all overrides what evaluating the tree does in the given room. -/
def RunsIn (snapshot : Snapshot σ) (room : Room) (code : Code σ) (e : Expr) : Prop :=
  ∀ overrides, code overrides = eval (snapshot.environment overrides) room e

end Snapshot

variable {snapshot : Snapshot σ} {room : Room} {parts : List (Code σ)} {es : List Expr}

theorem runAll_eq_evalAll (runs : List.Forall₂ (snapshot.RunsIn room) parts es)
    (overrides : Store) :
    Code.runAll overrides parts = evalAll (snapshot.environment overrides) room es := by
  induction runs with
  | nil => rfl
  | cons first _ ih => simp only [Code.runAll, evalAll, first overrides, ih]

/-- The last piece of code gives the value of a block. What stands before the first statement does
not matter. -/
theorem runLast_eq_evalStatements (runs : List.Forall₂ (snapshot.RunsIn room) parts es)
    (nonempty : es ≠ []) :
    ∃ last, parts.getLast? = some last ∧ ∀ overrides before,
      Code.runLast overrides last parts.dropLast =
        evalStatements (snapshot.environment overrides) room before es := by
  induction runs with
  | nil => exact absurd rfl nonempty
  | @cons code e codes rest first others ih =>
    cases others with
    | nil =>
      exact ⟨code, rfl, fun overrides before => by
        simp [Code.runLast, evalStatements, first overrides]⟩
    | cons =>
      obtain ⟨last, hlast, hrun⟩ := ih (by simp)
      refine ⟨last, by simpa using hlast, fun overrides before => ?_⟩
      rw [List.dropLast_cons_cons, Code.runLast, evalStatements, first overrides]
      exact congrArg _ (funext fun value => hrun overrides value)

/-- The code of an operation runs the parts in order and applies the operator to their values, also
where it adds two summands without a list. -/
theorem ofOperation_eq {operator : Operator} (takes : operator.Takes parts.length) :
    ∃ code, Code.ofOperation parts operator = .ok code ∧ ∀ overrides, code overrides =
      Code.runAll overrides parts >>= fun values => Effect.ofExcept (operator.apply values) := by
  cases operator with
  | add =>
    match parts with
    | [] => simp [Operator.Takes] at takes
    | [left, right] =>
      exact ⟨_, rfl, fun overrides => by
        simp [Code.binary, Code.runAll, Operator.apply, Value.sum]⟩
    | [_] | _ :: _ :: _ :: _ => exact ⟨_, rfl, fun _ => rfl⟩
  | multiply => exact ⟨_, rfl, fun _ => rfl⟩
  | negate | reciprocal =>
    obtain ⟨operand, rfl⟩ := List.length_eq_one_iff.mp takes
    exact ⟨_, rfl, fun overrides => by
      simp [Code.unary, Code.runAll, Operator.apply, firstOperand, Effect.ofExcept_bind]⟩
  | remainder | power =>
    obtain ⟨left, right, rfl⟩ := List.length_eq_two.mp takes
    exact ⟨_, rfl, fun overrides => by
      simp [Code.binary, Code.runAll, Operator.apply, firstTwoOperands, Effect.ofExcept_bind]⟩
  | other symbol => exact takes.elim

/-- Code of an operation, even one with a strange number of operands, applies the operator. -/
theorem ofOperation_runs {operator : Operator} {code : Code σ}
    (h : Code.ofOperation parts operator = .ok code) (overrides : Store) :
    code overrides =
      Code.runAll overrides parts >>= fun values => Effect.ofExcept (operator.apply values) := by
  by_cases takes : operator.Takes parts.length
  · obtain ⟨other, hother, hrun⟩ := ofOperation_eq takes
    cases h.symm.trans hother
    exact hrun overrides
  · match operator, parts with
    | .add, [] | .multiply, [] =>
      cases h
      rfl
    | .add, _ :: _ | .multiply, _ :: _ => simp [Operator.Takes] at takes
    | .negate, [] | .negate, _ :: _ :: _ | .reciprocal, [] | .reciprocal, _ :: _ :: _
    | .remainder, [] | .remainder, [_] | .remainder, _ :: _ :: _ :: _
    | .power, [] | .power, [_] | .power, _ :: _ :: _ :: _ | .other _, _ => cases h
    | .negate, [_] | .reciprocal, [_] | .remainder, [_, _] | .power, [_, _] =>
      exact absurd rfl takes

theorem forall₂_runsIn_of_codeAll (h : codeAll snapshot room es = .ok parts)
    (each : ∀ e ∈ es, ∀ code, Formula.code snapshot room e = .ok code →
      snapshot.RunsIn room code e) : List.Forall₂ (snapshot.RunsIn room) parts es := by
  induction es generalizing parts with
  | nil =>
    cases h
    exact .nil
  | cons first rest ih =>
    obtain ⟨hfirst, hrest⟩ := List.forall_mem_cons.mp each
    rw [codeAll] at h
    obtain ⟨code, hcode, h⟩ := exists_of_bind_eq_ok h
    obtain ⟨others, hothers, h⟩ := exists_of_bind_eq_ok h
    cases h
    exact .cons (hfirst code hcode) (ih hothers hrest)

theorem descend_eq_ok {inner : Room} (h : Snapshot.descend room = .ok inner) {α : Type}
    (next : Room → Run σ α) : (Effect.descend room price.evaluation >>= next) = next inner := by
  unfold Snapshot.descend at h
  split at h
  next other hother =>
    cases h
    rw [Effect.descend, hother]
    rfl
  next => cases h

/-- Whatever code a tree has, it does what evaluating the tree does. -/
theorem runsIn_of_code {e : Expr} {code : Code σ} (h : Formula.code snapshot room e = .ok code) :
    snapshot.RunsIn room code e := by
  induction e using Expr.inductionOn generalizing room code with
  | number value | reference name =>
    cases h
    exact fun _ => rfl
  | operation operator operands ih =>
    rw [Formula.code] at h
    obtain ⟨inner, hinner, h⟩ := exists_of_bind_eq_ok h
    obtain ⟨parts, hparts, h⟩ := exists_of_bind_eq_ok h
    have runs := forall₂_runsIn_of_codeAll hparts fun e member _ => ih e member
    intro overrides
    rw [eval, descend_eq_ok hinner, ofOperation_runs h, runAll_eq_evalAll runs]
  | assignment target value _ ih =>
    rw [Formula.code] at h
    split at h
    next => cases h
    next name hname =>
      obtain ⟨inner, hinner, h⟩ := exists_of_bind_eq_ok h
      obtain ⟨valueCode, hvalue, h⟩ := exists_of_bind_eq_ok h
      cases h
      intro overrides
      rw [eval]
      simp only [hname, descend_eq_ok hinner, ih hvalue overrides]
  | call name arguments ih =>
    rw [Formula.code] at h
    intro overrides
    split at h
    next => cases h
    next callee hcallee =>
      obtain ⟨inner, hinner, h⟩ := exists_of_bind_eq_ok h
      obtain ⟨parts, hparts, h⟩ := exists_of_bind_eq_ok h
      cases h
      have runs := forall₂_runsIn_of_codeAll hparts fun e member _ => ih e member
      have found : (snapshot.environment overrides).functions name = some callee := hcallee
      rw [eval, found]
      dsimp only
      rw [descend_eq_ok hinner, runAll_eq_evalAll runs]
  | block statements ih =>
    rw [Formula.code] at h
    obtain ⟨inner, hinner, h⟩ := exists_of_bind_eq_ok h
    obtain ⟨parts, hparts, h⟩ := exists_of_bind_eq_ok h
    have runs := forall₂_runsIn_of_codeAll hparts fun e member _ => ih e member
    intro overrides
    unfold Code.ofBlock at h
    split at h
    next => cases h
    next last hlast =>
      cases h
      have nonempty : statements ≠ [] := by
        rintro rfl
        cases runs
        cases hlast
      obtain ⟨last', hlast', hrun⟩ := runLast_eq_evalStatements runs nonempty
      cases hlast.symm.trans hlast'
      rw [eval, descend_eq_ok hinner]
      exact hrun overrides .none
  | unknown => cases h

/-- A compiled program ends as evaluating its tree over a copy of the store does. -/
theorem runFrame_of_compile {e : Expr} {program : Program σ}
    (h : compile snapshot room e = .ok program) (overrides : Store) (host : σ) :
    program.runFrame overrides host =
      (evaluate (snapshot.environment overrides) room e).run ⟨snapshot.store, host⟩ := by
  unfold compile at h
  split at h
  next code hcode =>
    cases h
    simp only [Program.runFrame, runsIn_of_code hcode overrides, evaluate]
  next => cases h

theorem codeAll_returns (each : ∀ e ∈ es, ∃ code, Formula.code snapshot room e = .ok code) :
    ∃ parts, codeAll snapshot room es = .ok parts := by
  induction es with
  | nil => exact ⟨[], rfl⟩
  | cons first rest ih =>
    obtain ⟨⟨code, hcode⟩, heach⟩ := List.forall_mem_cons.mp each
    obtain ⟨parts, hparts⟩ := ih heach
    exact ⟨code :: parts, by rw [codeAll, hcode, hparts]; rfl⟩

theorem forall₂_runsIn (h : codeAll snapshot room es = .ok parts) :
    List.Forall₂ (snapshot.RunsIn room) parts es :=
  forall₂_runsIn_of_codeAll h fun _ _ _ => runsIn_of_code

/-- A tree in shape whose functions are known has code. -/
theorem code_returns (e : Expr) (shape : e.Everywhere Expr.InShape)
    (known : e.Everywhere (Expr.IsKnown snapshot.functions)) :
    ∃ code, Formula.code snapshot .unlimited e = .ok code := by
  induction e using Expr.inductionOn with
  | number value | reference name => exact ⟨_, rfl⟩
  | operation operator operands ih =>
    rw [Expr.everywhere_operation] at shape known
    obtain ⟨parts, hparts⟩ :=
      codeAll_returns fun e member => ih e member (shape.2 e member) (known.2 e member)
    have takes : operator.Takes parts.length := (forall₂_runsIn hparts).length_eq ▸ shape.1
    obtain ⟨code, hcode, -⟩ := ofOperation_eq takes
    exact ⟨code, by rw [code_operation, hparts]; exact hcode⟩
  | assignment target value _ ih =>
    rw [Expr.everywhere_assignment] at shape known
    obtain ⟨name, hname⟩ := Option.isSome_iff_exists.mp shape.1
    obtain ⟨code, hcode⟩ := ih shape.2.2 known.2.2
    exact ⟨_, by rw [code_assignment hname, hcode]; rfl⟩
  | call name arguments ih =>
    rw [Expr.everywhere_call] at shape known
    obtain ⟨callee, hcallee⟩ := Option.isSome_iff_exists.mp known.1
    obtain ⟨parts, hparts⟩ :=
      codeAll_returns fun e member => ih e member (shape.2 e member) (known.2 e member)
    exact ⟨_, by rw [code_call hcallee, hparts]; rfl⟩
  | block statements ih =>
    rw [Expr.everywhere_block] at shape known
    obtain ⟨parts, hparts⟩ :=
      codeAll_returns fun e member => ih e member (shape.2 e member) (known.2 e member)
    obtain ⟨last, hlast, -⟩ := runLast_eq_evalStatements (forall₂_runsIn hparts) shape.1
    refine ⟨fun overrides => Code.runLast overrides last parts.dropLast, ?_⟩
    rw [code_block, hparts]
    change Code.ofBlock parts = _
    rw [Code.ofBlock, hlast]
  | unknown => simp [Expr.InShape] at shape

/-- A tree in shape whose functions are known compiles. Calling the program with any overrides ends
as evaluating the tree over a copy of the store does: with the same value or fault, the same
variables in the frame and the same host state. The host state may hold whatever the functions and
the handler write down, so the calls they receive are the same and in the same order. -/
theorem runFrame_compile (snapshot : Snapshot σ) (e : Expr) (shape : e.Everywhere Expr.InShape)
    (known : e.Everywhere (Expr.IsKnown snapshot.functions)) :
    ∃ program, compile snapshot .unlimited e = .ok program ∧ ∀ overrides host,
      program.runFrame overrides host =
        (evaluate (snapshot.environment overrides) .unlimited e).run ⟨snapshot.store, host⟩ := by
  obtain ⟨code, hcode⟩ := code_returns e shape known
  have compiled : compile snapshot .unlimited e =
      .ok ⟨code, snapshot.store, e.variableNames⟩ := by
    rw [compile, hcode]
  exact ⟨_, compiled, runFrame_of_compile compiled⟩

/-- A snapshot whose only function returns how often it was called. -/
def countingSnapshot : Snapshot Nat where
  store := .ofList [("x", .int 1)]
  functions := fun name =>
    if name == "count" then
      some (.function fun _ => do
        modify (· + 1)
        let calls ← get
        return .int calls)
    else none
  missing := undefinedVariable

/-- The tree of `x = count(x); x + y`. -/
def countingTree : Expr :=
  .block [.assignment (.variable "x") (.call "count" [.variable "x"]),
    .operation .add [.variable "x", .variable "y"]]

theorem runFrame_compile_counting :
    countingTree.Everywhere Expr.InShape ∧
      countingTree.Everywhere (Expr.IsKnown countingSnapshot.functions) ∧
      ∃ program, compile countingSnapshot .unlimited countingTree = .ok program ∧
        ∀ overrides host, program.runFrame overrides host =
          (evaluate (countingSnapshot.environment overrides) .unlimited countingTree).run
            ⟨countingSnapshot.store, host⟩ :=
  ⟨by decide, by decide, runFrame_compile countingSnapshot countingTree (by decide) (by decide)⟩

end Formula
