import Formula.Proofs.Eval.Acts

namespace Formula

variable {σ α β : Type}

/-- Whether overrides and variables look alike to a formula with variables of the given names. An
override hides the variable of the frame. -/
structure LookAlike (names : List String) (overrides overrides' store store' : Store) : Prop where
  given : ∀ name ∈ names, overrides.get? name = overrides'.get? name
  stored : ∀ name ∈ names, overrides.get? name = none → store.get? name = store'.get? name

theorem LookAlike.mono {names others : List String} {overrides overrides' store store' : Store}
    (h : LookAlike names overrides overrides' store store') (subset : others ⊆ names) :
    LookAlike others overrides overrides' store store' :=
  ⟨fun name member => h.given name (subset member),
    fun name member => h.stored name (subset member)⟩

/-- What two runs with the given acts have in common if only the given variables matter. -/
structure SameCourse (names : List String) (trace trace' : List Act)
    (run run' : Except Fault α × Frame σ) : Prop where
  result : run.1 = run'.1
  host : run.2.host = run'.2.host
  acts : trace = trace'
  /-- The handler is asked for no other variables. -/
  missed : ∀ name, .missed name ∈ trace → name ∈ names
  /-- What is assigned is so in both runs, even if it is hidden. -/
  assigned : ∀ name value, .assigned name value ∈ trace →
    run.2.store.get? name = run'.2.store.get? name

theorem SameCourse.congr_names {names others : List String} {trace trace' : List Act}
    {run run' : Except Fault α × Frame σ} (h : SameCourse names trace trace' run run')
    (subset : names ⊆ others) : SameCourse others trace trace' run run' :=
  { h with missed := fun name member => subset (h.missed name member) }

variable {env env' : Environment σ} {names : List String} {room : Room}

/-- Whether two environments differ at most in overrides that have other names. -/
structure Environment.SameOn (names : List String) (env env' : Environment σ) : Prop where
  overrides : ∀ name ∈ names, env.overrides.get? name = env'.overrides.get? name
  functions : env.functions = env'.functions
  missing : env.missing = env'.missing

/-- Whether frames differ at most in variables that have other names or are hidden. -/
structure Frame.SameOn (names : List String) (overrides : Store) (frame frame' : Frame σ) :
    Prop where
  host : frame.host = frame'.host
  store : ∀ name ∈ names, overrides.get? name = none →
    frame.store.get? name = frame'.store.get? name

namespace Run

/-- Whether two computations have the same result and the same acts from frames that look alike,
and leave such frames. -/
def Follow (names : List String) (overrides : Store) (x : Run σ α) (trace : Acts σ)
    (x' : Run σ α) (trace' : Acts σ) : Prop :=
  ∀ frame frame', Frame.SameOn names overrides frame frame' →
    (x.run frame).1 = (x'.run frame').1 ∧ trace frame = trace' frame' ∧
      (∀ name, .missed name ∈ trace frame → name ∈ names) ∧
        Frame.SameOn names overrides (x.run frame).2 (x'.run frame').2

variable {overrides : Store} {x x' : Run σ α} {trace trace' : Acts σ} {next next' : α → Run σ β}
  {later later' : α → Acts σ}

theorem Follow.pure (value : α) :
    Follow names overrides (Pure.pure value : Run σ α) .nothing (Pure.pure value) .nothing :=
  fun _ _ same => ⟨rfl, rfl, fun _ member => absurd member List.not_mem_nil, same⟩

theorem Follow.throw (fault : Fault) :
    Follow names overrides (throw fault : Run σ α) .nothing (throw fault) .nothing :=
  fun _ _ same => ⟨rfl, rfl, fun _ member => absurd member List.not_mem_nil, same⟩

theorem Follow.bind (h : Follow names overrides x trace x' trace')
    (hnext : ∀ value,
      Follow names overrides (next value) (later value) (next' value) (later' value)) :
    Follow names overrides (x >>= next) (trace.andThen x later) (x' >>= next')
      (trace'.andThen x' later') := by
  intro frame frame' same
  obtain ⟨hresult, htrace, hmissed, hafter⟩ := h frame frame' same
  rw [Effect.run_bind, Effect.run_bind, Acts.andThen, Acts.andThen, ← htrace]
  rcases hx : x.run frame with ⟨result, after⟩
  rcases hx' : x'.run frame' with ⟨result', after'⟩
  rw [hx, hx'] at hresult hafter
  cases hresult
  cases result with
  | error fault => exact ⟨rfl, rfl, by simpa using hmissed, hafter⟩
  | ok value =>
    obtain ⟨hlast, hrest, hothers, hlastAfter⟩ := hnext value after after' hafter
    refine ⟨hlast, congrArg _ hrest, fun name member => ?_, hlastAfter⟩
    rcases List.mem_append.mp member with member | member
    · exact hmissed name member
    · exact hothers name member

theorem Follow.bind_ofExcept (h : Follow names overrides x trace x' trace')
    (next : α → Except Fault β) :
    Follow names overrides (x >>= fun value => Effect.ofExcept (next value)) trace
      (x' >>= fun value => Effect.ofExcept (next value)) trace' := by
  intro frame frame' same
  obtain ⟨hresult, htrace, hmissed, hafter⟩ := h frame frame' same
  rw [Effect.run_bind, Effect.run_bind]
  rcases hx : x.run frame with ⟨result, after⟩
  rcases hx' : x'.run frame' with ⟨result', after'⟩
  rw [hx, hx'] at hresult hafter
  cases hresult
  cases result with
  | error fault => exact ⟨rfl, htrace, hmissed, hafter⟩
  | ok value =>
    dsimp only
    rw [Effect.run_ofExcept, Effect.run_ofExcept]
    exact ⟨rfl, htrace, hmissed, hafter⟩

theorem Follow.descend (room : Room) {next next' : Room → Run σ α} {later later' : Room → Acts σ}
    (h : ∀ inner, Follow names overrides (next inner) (later inner) (next' inner) (later' inner)) :
    Follow names overrides (Effect.descend room price.evaluation >>= next) (.below room later)
      (Effect.descend room price.evaluation >>= next') (.below room later') := by
  unfold Effect.descend Acts.below
  cases room.enter? price.evaluation with
  | none => exact .throw .stackExhausted
  | some inner => exact h inner

theorem Follow.read (same : env.SameOn names env') {name : String} (member : name ∈ names) :
    Follow names env.overrides
      (readVariable env.overrides env.missing name) (.ofVariable env.overrides name)
      (readVariable env'.overrides env'.missing name) (.ofVariable env'.overrides name) := by
  rintro ⟨store, host⟩ ⟨store', host'⟩ sameFrame
  obtain rfl : host = host' := sameFrame.host
  have hoverrides := same.overrides name member
  rw [readVariable, readVariable, Acts.ofVariable, Acts.ofVariable, ← hoverrides, ← same.missing]
  cases hhidden : env.overrides.get? name with
  | some value => exact ⟨rfl, rfl, fun _ absent => absurd absent List.not_mem_nil, sameFrame⟩
  | none =>
    have hstore : store.get? name = store'.get? name := sameFrame.store name member hhidden
    dsimp only
    rw [Effect.run_bind, Effect.run_bind, Effect.run_get, Effect.run_get]
    dsimp only
    rw [← hstore]
    cases store.get? name with
    | some value => exact ⟨rfl, rfl, fun _ absent => absurd absent List.not_mem_nil, sameFrame⟩
    | none =>
      refine ⟨rfl, rfl, fun other hother => ?_, rfl, sameFrame.store⟩
      have heq : other = name := by simpa using hother
      exact heq ▸ member

theorem Follow.write (name : String) (value : Value) :
    Follow names overrides
      (writeVariable name value : Run σ Value) (fun _ => [.assigned name value])
      (writeVariable name value) (fun _ => [.assigned name value]) := by
  intro frame frame' same
  refine ⟨rfl, rfl, fun other member => by simp at member, same.host, fun other member hidden => ?_⟩
  have hstore := same.store other member hidden
  simp only [writeVariable, Effect.run_bind, Effect.run_modify, Effect.run_pure, Store.get?_set,
    hstore]

theorem Follow.call (name : String) (callee : Callee σ) (arguments : List Value) :
    Follow names overrides
      (.ofHost (callee.call name arguments)) (.ofCallee name arguments callee)
      (.ofHost (callee.call name arguments)) (.ofCallee name arguments callee) := by
  rintro ⟨store, host⟩ ⟨store', host'⟩ same
  obtain rfl : host = host' := same.host
  refine ⟨rfl, by cases callee <;> rfl, fun other member => ?_, rfl, same.store⟩
  cases callee <;> simp [Acts.ofCallee, Acts.nothing] at member

end Run

open Run

theorem evalAll_follow {es : List Expr}
    (each : ∀ e ∈ es, Follow names env.overrides (eval env room e) (acts env room e)
      (eval env' room e) (acts env' room e)) :
    Follow names env.overrides (evalAll env room es) (actsAll env room es)
      (evalAll env' room es) (actsAll env' room es) := by
  induction es with
  | nil => exact .pure []
  | cons first rest ih =>
    obtain ⟨hfirst, hrest⟩ := List.forall_mem_cons.mp each
    rw [evalAll, evalAll, actsAll, actsAll]
    exact hfirst.bind fun value => (ih hrest).bind_ofExcept fun values => .ok (value :: values)

theorem evalStatements_follow {es : List Expr}
    (each : ∀ e ∈ es, Follow names env.overrides (eval env room e) (acts env room e)
      (eval env' room e) (acts env' room e)) (before : Value) :
    Follow names env.overrides (evalStatements env room before es) (actsAll env room es)
      (evalStatements env' room before es) (actsAll env' room es) := by
  induction es generalizing before with
  | nil => exact .pure before
  | cons first rest ih =>
    obtain ⟨hfirst, hrest⟩ := List.forall_mem_cons.mp each
    rw [evalStatements, evalStatements, actsAll, actsAll]
    exact hfirst.bind fun value => ih hrest value

/-- Whether a node is no variable except one of the given names. -/
def Expr.ReadsOnly (names : List String) (node : Expr) : Prop :=
  ∀ name, node.name? = some name → name ∈ names

theorem Expr.everywhere_readsOnly (e : Expr) : e.Everywhere (ReadsOnly e.variableNames) :=
  fun node member _ hname => List.mem_filterMap.mpr ⟨node, member, hname⟩

theorem eval_follow (same : env.SameOn names env') (room : Room) {e : Expr}
    (reads : e.Everywhere (Expr.ReadsOnly names)) :
    Follow names env.overrides (eval env room e) (acts env room e)
      (eval env' room e) (acts env' room e) := by
  induction e using Expr.inductionOn generalizing room with
  | number value => exact .pure value
  | reference name =>
    rw [Expr.everywhere_variable] at reads
    exact .read same (reads name rfl)
  | operation operator operands ih =>
    rw [Expr.everywhere_operation] at reads
    rw [eval, eval, acts, acts]
    exact .descend room fun inner =>
      (evalAll_follow fun e member => ih e member inner (reads.2 e member)).bind_ofExcept
        operator.apply
  | assignment target value _ ih =>
    rw [Expr.everywhere_assignment] at reads
    rw [eval, eval, acts, acts]
    cases target.name? with
    | none => exact .throw _
    | some name =>
      exact .descend room fun inner => (ih inner reads.2.2).bind fun result => .write name result
  | call name arguments ih =>
    rw [Expr.everywhere_call] at reads
    rw [eval, eval, acts, acts, ← same.functions]
    cases env.functions name with
    | none => exact .throw _
    | some callee =>
      exact .descend room fun inner =>
        (evalAll_follow fun e member => ih e member inner (reads.2 e member)).bind fun values =>
          .call name callee values
  | block statements ih =>
    rw [Expr.everywhere_block] at reads
    rw [eval, eval, acts, acts]
    exact .descend room fun inner =>
      evalStatements_follow (fun e member => ih e member inner (reads.2 e member)) .none
  | unknown => exact .throw _

/-- Two evaluations of a tree have the same course if all looks alike to it. -/
theorem evaluate_sameCourse {functions : String → Option (Callee σ)}
    {missing : String → Effect σ Value} {overrides overrides' store store' : Store} {e : Expr}
    (alike : LookAlike e.variableNames overrides overrides' store store') (room : Room) (host : σ) :
    SameCourse e.variableNames
      (acts ⟨overrides, functions, missing⟩ room e ⟨store, host⟩)
      (acts ⟨overrides', functions, missing⟩ room e ⟨store', host⟩)
      ((evaluate ⟨overrides, functions, missing⟩ room e).run ⟨store, host⟩)
      ((evaluate ⟨overrides', functions, missing⟩ room e).run ⟨store', host⟩) := by
  have same : Environment.SameOn e.variableNames (⟨overrides, functions, missing⟩ : Environment σ)
      ⟨overrides', functions, missing⟩ := ⟨alike.given, rfl, rfl⟩
  obtain ⟨hresult, hacts, hmissed, hafter⟩ :=
    eval_follow same room e.everywhere_readsOnly ⟨store, host⟩ ⟨store', host⟩ ⟨rfl, alike.stored⟩
  rw [evaluate, evaluate, Effect.run_boundDepth, Effect.run_boundDepth]
  refine ⟨by rw [hresult], hafter.host, hacts, hmissed, fun name value member => ?_⟩
  rw [(eval_shows _ room e).store, (eval_shows _ room e).store, ← hacts]
  exact Act.get?_foldl_write_eq (.inr ⟨value, member⟩)

end Formula
