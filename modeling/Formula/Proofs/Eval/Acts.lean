import Formula.Proofs.Expr.Nodes
import Formula.Proofs.Function.Recorded

namespace Formula

variable {σ α β : Type}

inductive Act where
  | assigned (name : String) (value : Value)
  | called (name : String) (arguments : List Value)
  | missed (name : String)
  deriving DecidableEq

namespace Act

/-- The variables behind an act. -/
def write (store : Store) : Act → Store
  | .assigned name value => store.set name value
  | _ => store

/-- The call that an act is, unless it is an assignment. -/
def event? : Act → Option (Event σ)
  | .called name arguments => some (.own name arguments)
  | .missed name => some (.missed name)
  | .assigned .. => none

end Act

/-- The acts of a computation, by the frame that it starts in. -/
abbrev Acts (σ : Type) := Frame σ → List Act

namespace Acts

def nothing : Acts σ := fun _ => []

/-- The acts of a computation and, unless it fails, of what follows. -/
def andThen (first : Acts σ) (x : Run σ α) (next : α → Acts σ) : Acts σ := fun frame =>
  first frame ++
    match x.run frame with
    | (.ok value, after) => next value after
    | (.error _, _) => []

theorem andThen_nothing (first : Acts σ) (x : Run σ α) :
    first.andThen x (fun _ => .nothing) = first := by
  funext frame
  rw [andThen]
  rcases x.run frame with ⟨fault | value, after⟩ <;> exact List.append_nil _

/-- The acts one level down, if there is room for it. -/
def below (room : Room) (next : Room → Acts σ) : Acts σ :=
  match room.enter? price.evaluation with
  | some inner => next inner
  | none => nothing

/-- Only a variable that is found nowhere else is asked for. -/
def ofVariable (overrides : Store) (name : String) : Acts σ := fun frame =>
  if (overrides.get? name).isNone && (frame.store.get? name).isNone then [.missed name] else []

/-- An entry that cannot be called is not called. -/
def ofCallee (name : String) (arguments : List Value) : Callee σ → Acts σ
  | .function _ => fun _ => [.called name arguments]
  | .inert => nothing

end Acts

mutual

/-- The acts of the evaluation of a tree. -/
def acts (env : Environment σ) (room : Room) : Expr → Acts σ
  | .variable name => .ofVariable env.overrides name
  | .operation _ operands => .below room fun inner => actsAll env inner operands
  | .assignment target value =>
    match target.name? with
    | none => .nothing
    | some name => .below room fun inner =>
      (acts env inner value).andThen (eval env inner value) fun result _ => [.assigned name result]
  | .call name arguments =>
    match env.functions name with
    | none => .nothing
    | some callee => .below room fun inner =>
      (actsAll env inner arguments).andThen (evalAll env inner arguments) fun values =>
        .ofCallee name values callee
  | .block statements => .below room fun inner => actsAll env inner statements
  | .number _ | .unknown => .nothing

/-- The acts of operands or statements one after the other. -/
def actsAll (env : Environment σ) (room : Room) : List Expr → Acts σ
  | [] => .nothing
  | first :: rest => (acts env room first).andThen (eval env room first) fun _ =>
    actsAll env room rest

end

/-- An environment whose functions and handler write down what they are called with. -/
def Environment.recorded (env : Environment σ) : Environment (Recorded σ) where
  overrides := env.overrides
  functions name := (env.functions name).map (Callee.recorded (.own name))
  missing name := (env.missing name).recorded (.missed name)

namespace Run

/-- Whether a computation has the given acts. Their assignments tell what becomes of the variables,
and a twin of it with recorded calls does the same and records just their calls. -/
structure Shows (x : Run σ α) (trace : Acts σ) (twin : Run (Recorded σ) α) : Prop where
  store : ∀ frame, (x.run frame).2.store = (trace frame).foldl Act.write frame.store
  twin : ∀ store host events, twin.run ⟨store, ⟨host, events⟩⟩ =
    let after := (x.run ⟨store, host⟩).2
    ((x.run ⟨store, host⟩).1,
      ⟨after.store, ⟨after.host, events ++ (trace ⟨store, host⟩).filterMap Act.event?⟩⟩)

variable {x : Run σ α} {trace : Acts σ} {twin : Run (Recorded σ) α} {next : α → Run σ β}
  {later : α → Acts σ} {other : α → Run (Recorded σ) β}

theorem Shows.pure (value : α) :
    Shows (Pure.pure value : Run σ α) .nothing (Pure.pure value) :=
  ⟨fun _ => rfl, fun store host events => by simp [Acts.nothing]⟩

theorem Shows.throw (fault : Fault) :
    Shows (throw fault : Run σ α) .nothing (throw fault) :=
  ⟨fun _ => rfl, fun store host events => by simp [Acts.nothing]⟩

theorem Shows.ofExcept (result : Except Fault α) :
    Shows (Effect.ofExcept result : Run σ α) .nothing (Effect.ofExcept result) := by
  cases result with
  | ok value => exact .pure value
  | error fault => exact .throw fault

theorem Shows.bind (h : Shows x trace twin)
    (hnext : ∀ value, Shows (next value) (later value) (other value)) :
    Shows (x >>= next) (trace.andThen x later) (twin >>= other) where
  store frame := by
    have hstore := h.store frame
    rw [Effect.run_bind, Acts.andThen, List.foldl_append, ← hstore]
    rcases x.run frame with ⟨fault | value, after⟩
    · rfl
    · exact (hnext value).store after
  twin store host events := by
    have htwin := h.twin store host events
    rw [Effect.run_bind, Effect.run_bind, htwin, Acts.andThen, List.filterMap_append,
      ← List.append_assoc]
    rcases x.run ⟨store, host⟩ with ⟨fault | value, after⟩
    · simp
    · exact (hnext value).twin after.store after.host _

theorem Shows.bind_ofExcept (h : Shows x trace twin) (next : α → Except Fault β) :
    Shows (x >>= fun value => Effect.ofExcept (next value)) trace
      (twin >>= fun value => Effect.ofExcept (next value)) :=
  Acts.andThen_nothing trace x ▸ h.bind fun value => .ofExcept (next value)

theorem Shows.descend (room : Room) {next : Room → Run σ α} {later : Room → Acts σ}
    {other : Room → Run (Recorded σ) α}
    (h : ∀ inner, Shows (next inner) (later inner) (other inner)) :
    Shows (Effect.descend room price.evaluation >>= next) (.below room later)
      (Effect.descend room price.evaluation >>= other) := by
  unfold Effect.descend Acts.below
  cases room.enter? price.evaluation with
  | none => exact .throw .stackExhausted
  | some inner => exact h inner

theorem Shows.write (name : String) (value : Value) :
    Shows (writeVariable name value : Run σ Value) (fun _ => [.assigned name value])
      (writeVariable name value) := by
  refine ⟨fun _ => rfl, fun store host events => ?_⟩
  rw [writeVariable, writeVariable, Effect.run_bind, Effect.run_bind]
  simp [Act.event?]

theorem Shows.call (name : String) (callee : Callee σ) (arguments : List Value) :
    Shows (.ofHost (callee.call name arguments)) (.ofCallee name arguments callee)
      (.ofHost ((callee.recorded (.own name)).call name arguments)) := by
  refine ⟨fun frame => ?_, fun store host events => ?_⟩
  · cases callee <;> rfl
  · cases callee with
    | function run =>
      rcases hrun : (run arguments).run host with ⟨fault | value, after⟩ <;>
        simp [ofHost, Callee.call, Callee.apply, Callee.recorded, Effect.recorded, Effect.mapFault,
          Effect.orElse, Acts.ofCallee, Act.event?, hrun]
    | inert => simp [ofHost, Callee.call, Callee.apply, Callee.recorded, Effect.mapFault,
        Effect.orElse, Acts.ofCallee, Acts.nothing]

theorem Shows.read (env : Environment σ) (name : String) :
    Shows (readVariable env.overrides env.missing name) (.ofVariable env.overrides name)
      (readVariable env.overrides env.recorded.missing name) := by
  cases hhidden : env.overrides.get? name with
  | some value =>
    have hnone : (Acts.ofVariable env.overrides name : Acts σ) = .nothing := by
      funext frame
      simp [Acts.ofVariable, hhidden, Acts.nothing]
    rw [readVariable, readVariable, hhidden, hnone]
    exact .pure value
  | none =>
    refine ⟨fun frame => ?_, fun store host events => ?_⟩
    · simp only [readVariable, hhidden, Acts.ofVariable, Effect.run_bind, Effect.run_get]
      cases hfound : frame.store.get? name with
      | none => rfl
      | some value => rfl
    · simp only [readVariable, hhidden, Acts.ofVariable, Effect.run_bind, Effect.run_get]
      cases hfound : store.get? name with
      | none => rfl
      | some value => simp

end Run

open Run

variable {env : Environment σ} {room : Room}

theorem evalAll_shows {es : List Expr}
    (each : ∀ e ∈ es, Shows (eval env room e) (acts env room e) (eval env.recorded room e)) :
    Shows (evalAll env room es) (actsAll env room es) (evalAll env.recorded room es) := by
  induction es with
  | nil => exact .pure []
  | cons first rest ih =>
    obtain ⟨hfirst, hrest⟩ := List.forall_mem_cons.mp each
    rw [evalAll, evalAll, actsAll]
    exact hfirst.bind fun value => (ih hrest).bind_ofExcept fun values => .ok (value :: values)

theorem evalStatements_shows {es : List Expr}
    (each : ∀ e ∈ es, Shows (eval env room e) (acts env room e) (eval env.recorded room e))
    (before : Value) :
    Shows (evalStatements env room before es) (actsAll env room es)
      (evalStatements env.recorded room before es) := by
  induction es generalizing before with
  | nil => exact .pure before
  | cons first rest ih =>
    obtain ⟨hfirst, hrest⟩ := List.forall_mem_cons.mp each
    rw [evalStatements, evalStatements, actsAll]
    exact hfirst.bind fun value => ih hrest value

/-- The acts of a tree are what its evaluation does. -/
theorem eval_shows (env : Environment σ) (room : Room) (e : Expr) :
    Shows (eval env room e) (acts env room e) (eval env.recorded room e) := by
  induction e using Expr.inductionOn generalizing room with
  | number value => exact .pure value
  | reference name => exact .read env name
  | operation operator operands ih =>
    rw [eval, eval, acts]
    exact .descend room fun inner =>
      (evalAll_shows fun e member => ih e member inner).bind_ofExcept operator.apply
  | assignment target value _ ih =>
    rw [eval, eval, acts]
    cases target.name? with
    | none => exact .throw _
    | some name =>
      exact .descend room fun inner => (ih inner).bind fun result => .write name result
  | call name arguments ih =>
    rw [eval, eval, acts]
    have hrecorded : env.recorded.functions name =
        (env.functions name).map (Callee.recorded (.own name)) := rfl
    rw [hrecorded]
    cases env.functions name with
    | none => exact .throw _
    | some callee =>
      exact .descend room fun inner =>
        (evalAll_shows fun e member => ih e member inner).bind fun values =>
          .call name callee values
  | block statements ih =>
    rw [eval, eval, acts]
    exact .descend room fun inner => evalStatements_shows (fun e member => ih e member inner) .none
  | unknown => exact .throw _

namespace Act

/-- Variables agree behind the same acts if they agreed before them or are assigned by one. -/
theorem get?_foldl_write_eq {trace : List Act} {name : String} {store other : Store}
    (h : store.get? name = other.get? name ∨ ∃ value, .assigned name value ∈ trace) :
    (trace.foldl write store).get? name = (trace.foldl write other).get? name := by
  induction trace generalizing store other with
  | nil => simpa using h
  | cons act rest ih =>
    rw [List.foldl_cons, List.foldl_cons]
    apply ih
    cases act with
    | assigned written value =>
      rw [write, write, Store.get?_set, Store.get?_set]
      by_cases hname : name = written
      · exact .inl (by simp [hname])
      · simpa [hname] using h
    | called | missed => simpa [write] using h

end Act

end Formula
