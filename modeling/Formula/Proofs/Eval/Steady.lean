import Formula.Eval
import Formula.Proofs.Effect
import Formula.Proofs.Expr.Nodes

namespace Formula

variable {σ α β : Type}

/-- Whether a computation has the same result from every state. -/
def Effect.Steady (x : Effect σ α) : Prop :=
  ∀ state other, (x.run state).1 = (x.run other).1

/-- Whether calls of an entry have the same result from every state. -/
def Callee.Steady (callee : Callee σ) : Prop :=
  ∀ arguments, (callee.apply arguments).Steady

namespace Effect

theorem steady_pure (value : α) : (pure value : Effect σ α).Steady :=
  fun _ _ => rfl

theorem steady_ofExcept (result : Except Fault α) : (ofExcept result : Effect σ α).Steady := by
  intro state other
  rw [run_ofExcept, run_ofExcept]

theorem run_mapFault (update : Fault → Fault) (x : Effect σ α) (state : σ) :
    ((x.mapFault update).run state).1 = (x.run state).1.mapError update := by
  unfold mapFault orElse
  dsimp only
  rcases x.run state with ⟨fault | value, after⟩ <;> rfl

end Effect

theorem Callee.steady_pureFunction (function : List Value → Except Fault Value) :
    (Callee.pureFunction function : Callee σ).Steady :=
  fun arguments => Effect.steady_ofExcept (function arguments)

theorem Callee.Steady.call {callee : Callee σ} (h : callee.Steady) (name : String)
    (arguments : List Value) : (callee.call name arguments).Steady := by
  intro state other
  rw [Callee.call, Effect.run_mapFault, Effect.run_mapFault, h arguments state other]

namespace Run

/-- Whether two computations have the same result and leave the same variables, over whatever states
of the host. -/
def Agree (x y : Run σ α) : Prop :=
  ∀ store host other, (x.run ⟨store, host⟩).1 = (y.run ⟨store, other⟩).1 ∧
    (x.run ⟨store, host⟩).2.store = (y.run ⟨store, other⟩).2.store

variable {x y : Run σ α} {next following : α → Run σ β}

theorem Agree.pure (value : α) : Agree (Pure.pure value : Run σ α) (Pure.pure value) :=
  fun _ _ _ => ⟨rfl, rfl⟩

theorem Agree.throw (fault : Fault) : Agree (throw fault : Run σ α) (throw fault) :=
  fun _ _ _ => ⟨rfl, rfl⟩

theorem Agree.bind (h : Agree x y) (hnext : ∀ value, Agree (next value) (following value)) :
    Agree (x >>= next) (y >>= following) := by
  intro store host other
  obtain ⟨hresult, hstore⟩ := h store host other
  rw [Effect.run_bind, Effect.run_bind]
  rcases hx : x.run ⟨store, host⟩ with ⟨result, middle, hostAfter⟩
  rcases hy : y.run ⟨store, other⟩ with ⟨result', middle', otherAfter⟩
  rw [hx, hy] at hresult hstore
  cases hresult
  cases hstore
  cases result with
  | error fault => exact ⟨rfl, rfl⟩
  | ok value => exact hnext value middle hostAfter otherAfter

theorem Agree.ofHost {x y : Effect σ α} (h : ∀ host other, (x.run host).1 = (y.run other).1) :
    Agree (Run.ofHost x) (Run.ofHost y) :=
  fun _ host other => ⟨h host other, rfl⟩

theorem Agree.ofExcept (result : Except Fault α) :
    Agree (Effect.ofExcept result : Run σ α) (Effect.ofExcept result) := by
  cases result with
  | ok value => exact .pure value
  | error fault => exact .throw fault

theorem Agree.descend (room : Room) (cost : Nat) :
    Agree (Effect.descend room cost : Run σ Room) (Effect.descend room cost) := by
  unfold Effect.descend
  split
  next => exact .pure _
  next => exact .throw _

end Run

open Run

/-- Whether two environments differ in nothing that a result can show. -/
structure Environment.Alike (env other : Environment σ) : Prop where
  overrides : env.overrides = other.overrides
  functions : env.functions = other.functions
  steady : ∀ name callee, env.functions name = some callee → callee.Steady
  missing : ∀ name host host', ((env.missing name).run host).1 = ((other.missing name).run host').1

variable {env other : Environment σ} {room : Room} {es : List Expr}

theorem readVariable_agree (alike : env.Alike other) (name : String) :
    Agree (readVariable env.overrides env.missing name)
      (readVariable other.overrides other.missing name) := by
  unfold readVariable
  rw [alike.overrides]
  split
  next => exact .pure _
  next =>
    intro store host host'
    rw [Effect.run_bind, Effect.run_bind, Effect.run_get, Effect.run_get]
    dsimp only
    cases store.get? name with
    | some value => exact ⟨rfl, rfl⟩
    | none => exact Agree.ofHost (alike.missing name) store host host'

theorem evalAll_agree
    (each : ∀ e ∈ es, Agree (eval env room e) (eval other room e)) :
    Agree (evalAll env room es) (evalAll other room es) := by
  induction es with
  | nil => exact .pure _
  | cons first rest ih =>
    obtain ⟨hfirst, hrest⟩ := List.forall_mem_cons.mp each
    rw [evalAll, evalAll]
    exact hfirst.bind fun value => (ih hrest).bind fun values => .pure _

theorem evalStatements_agree
    (each : ∀ e ∈ es, Agree (eval env room e) (eval other room e)) (before : Value) :
    Agree (evalStatements env room before es) (evalStatements other room before es) := by
  induction es generalizing before with
  | nil => exact .pure _
  | cons first rest ih =>
    obtain ⟨hfirst, hrest⟩ := List.forall_mem_cons.mp each
    rw [evalStatements, evalStatements]
    exact hfirst.bind fun value => ih hrest value

theorem eval_agree (alike : env.Alike other) (room : Room) (e : Expr) :
    Agree (eval env room e) (eval other room e) := by
  induction e using Expr.inductionOn generalizing room with
  | number value => exact .pure _
  | reference name => exact readVariable_agree alike name
  | operation operator operands ih =>
    rw [eval, eval]
    exact (Agree.descend room _).bind fun inner =>
      (evalAll_agree fun e member => ih e member inner).bind fun values => .ofExcept _
  | assignment target value _ ih =>
    rw [eval, eval]
    split
    next => exact .throw _
    next name _ =>
      exact (Agree.descend room _).bind fun inner => (ih inner).bind fun result =>
        fun _ _ _ => ⟨rfl, rfl⟩
  | call name arguments ih =>
    rw [eval, eval, ← alike.functions]
    split
    next => exact .throw _
    next callee hcallee =>
      exact (Agree.descend room _).bind fun inner =>
        (evalAll_agree fun e member => ih e member inner).bind fun values =>
          .ofHost ((alike.steady name callee hcallee).call name values)
  | block statements ih =>
    rw [eval, eval]
    exact (Agree.descend room _).bind fun inner =>
      evalStatements_agree (fun e member => ih e member inner) .none
  | unknown => exact .throw _

/-- Whole trees come to the same in environments that are alike. -/
theorem fst_evaluate_eq (alike : env.Alike other) (room : Room) (e : Expr) (store : Store)
    (host host' : σ) :
    ((evaluate env room e).run ⟨store, host⟩).1 =
      ((evaluate other room e).run ⟨store, host'⟩).1 := by
  rw [evaluate, evaluate, Effect.run_boundDepth, Effect.run_boundDepth,
    (eval_agree alike room e store host host').1]

end Formula
