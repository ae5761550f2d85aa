import Formula.Proofs.Eval.Unlimited
import Formula.Proofs.Expr.Nodes
import Mathlib.Data.List.Forall2

namespace Formula

variable {σ : Type}

/-- Functions without state, by name. -/
abbrev PureTable := String → Option (List Value → Except Fault Value)

namespace PureTable

/-- The table without functions. -/
def empty : PureTable :=
  fun _ => none

/-- The entry of a name as an entry of a function table. -/
def callee? (table : PureTable) (name : String) : Option (Callee σ) :=
  (table name).map .pureFunction

theorem callee?_eq_some {table : PureTable} {name : String}
    {function : List Value → Except Fault Value} (h : table name = some function) :
    (table.callee? name : Option (Callee σ)) = some (.pureFunction function) := by
  rw [callee?, h, Option.map_some]

/-- Folding with the functions of a table. -/
def folding (table : PureTable) (note : Note → σ → σ) : Folding σ :=
  ⟨table.callee?, note⟩

/-- Whether a node calls a function that is what the table has under its name, or is missing in
both. -/
def Matches (table : PureTable) (functions : String → Option (Callee σ)) : Expr → Prop
  | .call name _ => functions name = table.callee? name
  | _ => True

/-- Whether a node calls the same function as in the table, if that has one of its name. -/
def Below (table : PureTable) (functions : String → Option (Callee σ)) : Expr → Prop
  | .call name _ =>
    ∀ function, table name = some function → functions name = some (.pureFunction function)
  | _ => True

theorem below_empty (functions : String → Option (Callee σ)) (node : Expr) :
    empty.Below functions node := by
  cases node with
  | call => exact fun _ found => by simp [empty] at found
  | _ => trivial

end PureTable

/-- What a call of a function without state comes to. -/
def callOutcome (name : String) (function : List Value → Except Fault Value)
    (arguments : List Value) : Except Fault Value :=
  (function arguments).mapError fun fault =>
    if fault.isEvaluation then fault else .callFailed name fault

theorem ofHost_ofExcept {α : Type} (result : Except Fault α) :
    (Run.ofHost (Effect.ofExcept result) : Run σ α) = Effect.ofExcept result := by
  cases result <;> rfl

theorem call_pureFunction (name : String) (function : List Value → Except Fault Value)
    (arguments : List Value) :
    (Callee.pureFunction function : Callee σ).call name arguments =
      Effect.ofExcept (callOutcome name function arguments) := by
  rw [Callee.call, Callee.pureFunction, Callee.apply, callOutcome]
  cases function arguments <;> rfl

theorem ofHost_pureFunction (name : String) (function : List Value → Except Fault Value)
    (arguments : List Value) :
    (Run.ofHost ((Callee.pureFunction function).call name arguments) : Run σ Value) =
      Effect.ofExcept (callOutcome name function arguments) := by
  rw [call_pureFunction, ofHost_ofExcept]

namespace Expr

mutual

/-- The value of a tree of numbers, operators, blocks and functions of a table, if it has one. -/
def constant? (table : PureTable) : Expr → Option Value
  | .number value => some value
  | .operation operator operands => do
    let values ← constants? table operands
    (operator.apply values).toOption
  | .call name arguments => do
    let function ← table name
    let values ← constants? table arguments
    (callOutcome name function values).toOption
  | .block statements => do
    let values ← constants? table statements
    return values.getLastD .none
  | _ => none

def constants? (table : PureTable) : List Expr → Option (List Value)
  | [] => some []
  | first :: rest => do
    let value ← constant? table first
    let values ← constants? table rest
    return value :: values

end

/-- Whether a tree is constant over a table. -/
def isConstant (table : PureTable) (e : Expr) : Bool :=
  (e.constant? table).isSome

theorem constants?_eq_some {table : PureTable} {es : List Expr} {values : List Value} :
    constants? table es = some values ↔
      List.Forall₂ (fun e value => e.constant? table = some value) es values := by
  induction es generalizing values with
  | nil => simp [constants?, eq_comm]
  | cons first rest ih =>
    simp only [constants?, bind, pure, Option.bind_eq_some_iff, Option.some.injEq,
      List.forall₂_cons_left_iff, ih]
    grind

theorem constants?_eq_none {table : PureTable} {es : List Expr} :
    constants? table es = none ↔ ∃ e ∈ es, e.constant? table = none := by
  induction es with
  | nil => simp [constants?]
  | cons first rest ih =>
    cases hfirst : first.constant? table with
    | none => simp [constants?, hfirst]
    | some value => cases hrest : constants? table rest <;> simp_all [constants?]

theorem exists_constants {table : PureTable} {es : List Expr}
    (h : ∀ e ∈ es, e.isConstant table = true) : ∃ values, constants? table es = some values := by
  cases hes : constants? table es with
  | some values => exact ⟨values, rfl⟩
  | none =>
    obtain ⟨e, member, he⟩ := constants?_eq_none.mp hes
    have := h e member
    simp [isConstant, he] at this

/-- A list of numbers. -/
theorem exists_numbers {es : List Expr} (h : es.all isNumber = true) :
    ∃ values : List Value, es = values.map .number := by
  induction es with
  | nil => exact ⟨[], rfl⟩
  | cons first rest ih =>
    rw [List.all_cons, Bool.and_eq_true] at h
    obtain ⟨values, rfl⟩ := ih h.2
    cases first with
    | number value => exact ⟨value :: values, rfl⟩
    | _ => simp [isNumber] at h

end Expr

theorem evalAll_numbers (env : Environment σ) (values : List Value) :
    evalAll env .unlimited (values.map .number) = pure values := by
  induction values with
  | nil => rfl
  | cons value values ih => simp [evalAll, ih]

theorem evalStatements_numbers (env : Environment σ) (before : Value) (values : List Value) :
    evalStatements env .unlimited before (values.map .number) =
      pure (values.getLastD before) := by
  induction values generalizing before with
  | nil => rfl
  | cons value values ih =>
    rw [List.map_cons, evalStatements, eval_number, pure_bind, ih, List.getLastD_cons]

section Numbers

variable {env : Environment σ} {values : List Value}

theorem eval_operation_numbers (operator : Operator) :
    eval env .unlimited (.operation operator (values.map .number)) =
      Effect.ofExcept (operator.apply values) := by
  rw [eval_operation, evalAll_numbers, pure_bind]

theorem eval_block_numbers :
    eval env .unlimited (.block (values.map .number)) =
      Effect.ofExcept (.ok (values.getLastD .none)) := by
  rw [eval_block, evalStatements_numbers, Effect.ofExcept_ok]

theorem eval_call_numbers {name : String} {function : List Value → Except Fault Value}
    (found : env.functions name = some (.pureFunction function)) :
    eval env .unlimited (.call name (values.map .number)) =
      Effect.ofExcept (callOutcome name function values) := by
  rw [eval_call found, evalAll_numbers, pure_bind, ofHost_pureFunction]

end Numbers

theorem evalAll_constants {table : PureTable} {env : Environment σ} {es : List Expr}
    {values : List Value}
    (each : ∀ e ∈ es, ∀ value, e.constant? table = some value → eval env .unlimited e = pure value)
    (h : Expr.constants? table es = some values) : evalAll env .unlimited es = pure values := by
  rw [Expr.constants?_eq_some] at h
  induction h with
  | nil => rfl
  | cons first _ ih =>
    obtain ⟨hfirst, hrest⟩ := List.forall_mem_cons.mp each
    rw [evalAll, hfirst _ first, pure_bind, ih hrest, pure_bind]

theorem evalStatements_constants {table : PureTable} {env : Environment σ} {es : List Expr}
    {values : List Value}
    (each : ∀ e ∈ es, ∀ value, e.constant? table = some value → eval env .unlimited e = pure value)
    (h : Expr.constants? table es = some values) (before : Value) :
    evalStatements env .unlimited before es = pure (values.getLastD before) := by
  rw [Expr.constants?_eq_some] at h
  induction h generalizing before with
  | nil => rfl
  | cons first _ ih =>
    obtain ⟨hfirst, hrest⟩ := List.forall_mem_cons.mp each
    rw [evalStatements, hfirst _ first, pure_bind, ih hrest, List.getLastD_cons]

theorem eq_ok_of_toOption {result : Except Fault Value} {value : Value}
    (h : result.toOption = some value) : result = .ok value := by
  cases result <;> simp_all [Except.toOption]

/-- A constant tree evaluates to its value wherever the functions of the table are found. -/
theorem eval_constant {table : PureTable} {env : Environment σ} {e : Expr} {value : Value}
    (serves : e.Everywhere (table.Below env.functions)) (h : e.constant? table = some value) :
    eval env .unlimited e = pure value := by
  induction e using Expr.inductionOn generalizing value with
  | number constant =>
    cases h
    rfl
  | operation operator operands ih =>
    rw [Expr.everywhere_operation] at serves
    obtain ⟨values, hvalues, hresult⟩ := Option.bind_eq_some_iff.mp h
    rw [eval_operation,
      evalAll_constants (fun e member _ => ih e member (serves.2 e member)) hvalues, pure_bind,
      eq_ok_of_toOption hresult]
    rfl
  | call name arguments ih =>
    rw [Expr.everywhere_call] at serves
    obtain ⟨function, hfunction, hrest⟩ := Option.bind_eq_some_iff.mp h
    obtain ⟨values, hvalues, hresult⟩ := Option.bind_eq_some_iff.mp hrest
    rw [eval_call (serves.1 function hfunction),
      evalAll_constants (fun e member _ => ih e member (serves.2 e member)) hvalues, pure_bind,
      ofHost_pureFunction, eq_ok_of_toOption hresult]
    rfl
  | block statements ih =>
    rw [Expr.everywhere_block] at serves
    obtain ⟨values, hvalues, hresult⟩ := Option.bind_eq_some_iff.mp h
    rw [eval_block,
      evalStatements_constants (fun e member _ => ih e member (serves.2 e member)) hvalues]
    cases hresult
    rfl
  | reference name | assignment target value | unknown => simp [Expr.constant?] at h

end Formula
