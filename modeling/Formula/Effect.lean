import Formula.Fault
import Formula.Room
import Formula.Store

namespace Formula

/-- A computation that may fail, over a state that survives the failure. -/
@[ext] structure Effect (σ α : Type) where
  run : σ → Except Fault α × σ

variable {σ α β : Type}

namespace Effect

/-- Continues with the result of a computation; a fault passes. -/
def andThen (x : Effect σ α) (next : α → Effect σ β) : Effect σ β :=
  ⟨fun state =>
    match x.run state with
    | (.ok value, state) => (next value).run state
    | (.error fault, state) => (.error fault, state)⟩

/-- Continues with the fault of a computation; a result passes. -/
def orElse (x : Effect σ α) (next : Fault → Effect σ α) : Effect σ α :=
  ⟨fun state =>
    match x.run state with
    | (.ok value, state) => (.ok value, state)
    | (.error fault, state) => (next fault).run state⟩

instance : Monad (Effect σ) where
  pure value := ⟨fun state => (.ok value, state)⟩
  bind := andThen

instance : MonadExceptOf Fault (Effect σ) where
  throw fault := ⟨fun state => (.error fault, state)⟩
  tryCatch := orElse

instance : MonadStateOf σ (Effect σ) where
  get := ⟨fun state => (.ok state, state)⟩
  set state := ⟨fun _ => (.ok (), state)⟩
  modifyGet update := ⟨fun state => (.ok (update state).1, (update state).2)⟩

@[simp] theorem run_pure (value : α) (state : σ) :
    (pure value : Effect σ α).run state = (.ok value, state) := rfl

@[simp] theorem run_throw (fault : Fault) (state : σ) :
    (throw fault : Effect σ α).run state = (.error fault, state) := rfl

@[simp] theorem run_get (state : σ) : (get : Effect σ σ).run state = (.ok state, state) := rfl

@[simp] theorem run_modify (update : σ → σ) (state : σ) :
    (modify update : Effect σ PUnit).run state = (.ok ⟨⟩, update state) := rfl

theorem run_bind (x : Effect σ α) (next : α → Effect σ β) (state : σ) :
    (x >>= next).run state =
      match x.run state with
      | (.ok value, state) => (next value).run state
      | (.error fault, state) => (.error fault, state) := rfl

theorem andThen_pure (x : Effect σ α) : andThen x (fun value => pure value) = x := by
  ext1
  funext state
  simp only [andThen]
  rcases x.run state with ⟨_ | _, _⟩ <;> rfl

theorem andThen_assoc {γ : Type} (x : Effect σ α) (f : α → Effect σ β) (g : β → Effect σ γ) :
    andThen (andThen x f) g = andThen x fun value => andThen (f value) g := by
  ext1
  funext state
  simp only [andThen]
  rcases x.run state with ⟨_ | _, _⟩ <;> rfl

instance : LawfulMonad (Effect σ) :=
  .mk' (Effect σ) andThen_pure (fun _ _ => rfl) andThen_assoc

def ofExcept : Except Fault α → Effect σ α
  | .ok value => pure value
  | .error fault => throw fault

/-- Replaces the fault of a computation that fails. -/
def mapFault (update : Fault → Fault) (x : Effect σ α) : Effect σ α :=
  orElse x fun fault => throw (update fault)

/-- Reports an exhausted stack as an expression that is nested too deeply. -/
def boundDepth (x : Effect σ α) : Effect σ α :=
  x.mapFault fun fault => if fault.kind == .recursion then .tooDeep else fault

/-- Goes one level down at the given price, or gives up. -/
def descend (room : Room) (cost : Nat) : Effect σ Room :=
  match room.enter? cost with
  | some inner => pure inner
  | none => throw .stackExhausted

@[simp] theorem descend_unlimited (cost : Nat) :
    (descend .unlimited cost : Effect σ Room) = pure .unlimited := rfl

end Effect

/-- The state of a running formula: its variables and the state of the caller's functions. -/
structure Frame (σ : Type) where
  store : Store
  host : σ

abbrev Run (σ α : Type) := Effect (Frame σ) α

namespace Run

/-- An effect of the caller's functions, as part of a running formula. -/
def ofHost (x : Effect σ α) : Run σ α :=
  ⟨fun frame => ((x.run frame.host).1, { frame with host := (x.run frame.host).2 })⟩

end Run

/-- An entry of a function table. The caller may enter something that cannot be called. -/
inductive Callee (σ : Type) where
  | function (run : List Value → Effect σ Value)
  | inert

namespace Callee

def apply : Callee σ → List Value → Effect σ Value
  | .function run, arguments => run arguments
  | .inert, _ => throw .notCallable

/-- Calls an entry under its name. Faults of evaluation pass; any other becomes the reason why this
call failed. -/
def call (callee : Callee σ) (name : String) (arguments : List Value) : Effect σ Value :=
  (callee.apply arguments).mapFault fun fault =>
    if fault.isEvaluation then fault else .callFailed name fault

/-- A function without state. -/
def pureFunction (run : List Value → Except Fault Value) : Callee σ :=
  .function fun arguments => Effect.ofExcept (run arguments)

end Callee

end Formula
