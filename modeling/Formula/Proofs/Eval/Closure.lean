import Formula.Proofs.Eval.Unlimited
import Formula.Proofs.Expr.Shape

namespace Formula

variable {σ α β : Type} {good : Value → Prop} {fine : Fault → Prop}

/-- Whether a result is a good one or, where there is none, the fault is. -/
def Meets (post : α → Prop) (fine : Fault → Prop) : Except Fault α → Prop
  | .ok result => post result
  | .error fault => fine fault

theorem Meets.mono {post : α → Prop} {fine' : Fault → Prop} {result : Except Fault α}
    (h : Meets post fine result) (weaker : ∀ fault, fine fault → fine' fault) :
    Meets post fine' result := by
  cases result with
  | ok value => exact h
  | error fault => exact weaker fault h

theorem Meets.boundDepth {post : α → Prop} {fine' : Fault → Prop} {result : Except Fault α}
    (h : Meets post fine result) (weaker : ∀ fault, fine fault → fine' (Effect.outermost fault)) :
    Meets post fine' (result.mapError Effect.outermost) := by
  cases result with
  | ok value => exact h
  | error fault => exact weaker fault h

namespace Store

/-- Whether all variables have good values. -/
def All (good : Value → Prop) (store : Store) : Prop :=
  ∀ name value, store.get? name = some value → good value

theorem all_empty : All good ∅ := by
  simp [All]

theorem All.set {store : Store} (h : store.All good) (name : String) {value : Value}
    (hvalue : good value) : (store.set name value).All good := by
  intro other found hfound
  rw [get?_set] at hfound
  split at hfound
  next => exact Option.some.inj hfound ▸ hvalue
  next => exact h other found hfound

theorem all_ofList {entries : List (String × Value)} (h : ∀ entry ∈ entries, good entry.2) :
    (ofList entries).All good := by
  have hfold : ∀ store : Store, store.All good →
      (entries.foldl (fun store entry => store.set entry.1 entry.2) store).All good := by
    induction entries with
    | nil => exact fun _ hstore => hstore
    | cons entry rest ih =>
      obtain ⟨hfirst, hrest⟩ := List.forall_mem_cons.mp h
      exact fun store hstore => ih hrest _ (hstore.set entry.1 hfirst)
  exact hfold ∅ all_empty

end Store

/-- Whether an operator leads from good values to good values or to a fault of evaluation. -/
def Operator.IsClosed (good : Value → Prop) (operator : Operator) : Prop :=
  ∀ values : List Value, operator.Takes values.length → (∀ value ∈ values, good value) →
    Meets good (·.isEvaluation) (operator.apply values)

/-- Whether a node brings in no values but good ones. -/
def Expr.IsClosed (good : Value → Prop) : Expr → Prop
  | .number value => good value
  | .operation operator _ => operator.IsClosed good
  | _ => True

/-- Whether an environment supplies good values to good arguments. -/
structure Environment.Supplies (env : Environment σ) (good : Value → Prop) (fine : Fault → Prop) :
    Prop where
  overrides : env.overrides.All good
  functions : ∀ name callee, env.functions name = some callee → ∀ arguments : List Value,
    (∀ value ∈ arguments, good value) → ∀ host,
      Meets good fine ((callee.call name arguments).run host).1
  missing : ∀ name host, Meets good fine ((env.missing name).run host).1

namespace Run

/-- Whether a computation, among good variables, has a result as asked for and leaves good
variables. -/
def Keeps (good : Value → Prop) (fine : Fault → Prop) (post : α → Prop) (x : Run σ α) : Prop :=
  ∀ frame, frame.store.All good →
    Meets post fine (x.run frame).1 ∧ (x.run frame).2.store.All good

/-- Whether two computations do the same among good variables. -/
def Same (good : Value → Prop) (x y : Run σ α) : Prop :=
  ∀ frame, frame.store.All good → x.run frame = y.run frame

variable {post : α → Prop} {later : β → Prop} {x y : Run σ α} {next other : α → Run σ β}

theorem Keeps.pure {value : α} (h : post value) :
    Keeps good fine post (Pure.pure value : Run σ α) :=
  fun _ hframe => ⟨h, hframe⟩

theorem Keeps.throw {fault : Fault} (h : fine fault) :
    Keeps good fine post (throw fault : Run σ α) :=
  fun _ hframe => ⟨h, hframe⟩

theorem Keeps.bind (hx : Keeps good fine post x)
    (hnext : ∀ value, post value → Keeps good fine later (next value)) :
    Keeps good fine later (x >>= next) := by
  intro frame hframe
  obtain ⟨hresult, hafter⟩ := hx frame hframe
  rw [Effect.run_bind]
  rcases h : x.run frame with ⟨fault | value, after⟩
  · rw [h] at hresult hafter
    exact ⟨hresult, hafter⟩
  · rw [h] at hresult hafter
    exact hnext value hresult after hafter

theorem Keeps.ofExcept {result : Except Fault α} (h : Meets post fine result) :
    Keeps good fine post (Effect.ofExcept result : Run σ α) := by
  cases result with
  | ok value => exact .pure h
  | error fault => exact .throw h

theorem Keeps.ofHost {x : Effect σ α} (h : ∀ host, Meets post fine (x.run host).1) :
    Keeps good fine post (Run.ofHost x) :=
  fun frame hframe => ⟨h frame.host, hframe⟩

theorem Same.refl (x : Run σ α) : Same good x x :=
  fun _ _ => rfl

theorem Same.symm (h : Same good x y) : Same good y x :=
  fun frame hframe => (h frame hframe).symm

theorem Same.trans {z : Run σ α} (h : Same good x y) (h' : Same good y z) : Same good x z :=
  fun frame hframe => (h frame hframe).trans (h' frame hframe)

theorem Keeps.of_same (keeps : Keeps good fine post y) (h : Same good x y) :
    Keeps good fine post x := by
  intro frame hframe
  rw [h frame hframe]
  exact keeps frame hframe

/-- Computations that begin alike may differ behind results that cannot occur. -/
theorem Same.bind (h : Same good x y) (keeps : Keeps good fine post x)
    (hnext : ∀ value, post value → Same good (next value) (other value)) :
    Same good (x >>= next) (y >>= other) := by
  intro frame hframe
  obtain ⟨hresult, hafter⟩ := keeps frame hframe
  rw [Effect.run_bind, Effect.run_bind, ← h frame hframe]
  rcases hx : x.run frame with ⟨fault | value, after⟩
  · rfl
  · rw [hx] at hresult hafter
    exact hnext value hresult after hafter

end Run

open Run

theorem readVariable_keeps {env : Environment σ} (supplies : env.Supplies good fine)
    (name : String) : Keeps good fine good (readVariable env.overrides env.missing name) := by
  unfold readVariable
  split
  next value hvalue => exact .pure (supplies.overrides name value hvalue)
  next =>
    intro frame hframe
    rw [Effect.run_bind, Effect.run_get]
    dsimp only
    split
    next value hvalue => exact Keeps.pure (hframe name value hvalue) frame hframe
    next => exact Keeps.ofHost (supplies.missing name) frame hframe

theorem writeVariable_keeps (name : String) {value : Value} (h : good value) :
    Keeps good fine good (writeVariable name value : Run σ Value) :=
  fun _ hframe => ⟨h, hframe.set name h⟩

variable {env : Environment σ} {room : Room}

theorem evalAll_keeps {es : List Expr}
    (each : ∀ e ∈ es, Keeps good fine good (eval env room e)) :
    Keeps good fine (fun values => values.length = es.length ∧ ∀ value ∈ values, good value)
      (evalAll env room es) := by
  induction es with
  | nil => exact .pure ⟨rfl, by simp⟩
  | cons first rest ih =>
    obtain ⟨hfirst, hrest⟩ := List.forall_mem_cons.mp each
    rw [evalAll]
    refine hfirst.bind fun value hvalue => ?_
    refine (ih hrest).bind fun values hvalues => ?_
    exact .pure ⟨by simp [hvalues.1], List.forall_mem_cons.mpr ⟨hvalue, hvalues.2⟩⟩

theorem evalStatements_keeps {es : List Expr} (nonempty : es ≠ [])
    (each : ∀ e ∈ es, Keeps good fine good (eval env room e)) (before : Value) :
    Keeps good fine good (evalStatements env room before es) := by
  induction es generalizing before with
  | nil => exact absurd rfl nonempty
  | cons first rest ih =>
    obtain ⟨hfirst, hrest⟩ := List.forall_mem_cons.mp each
    rw [evalStatements]
    refine hfirst.bind fun value hvalue => ?_
    cases rest with
    | nil => exact .pure hvalue
    | cons => exact ih (by simp) hrest value

section Same

variable {es : List Expr} {f : Expr → Expr}

theorem evalAll_same (keeps : ∀ e ∈ es, Keeps good fine good (eval env .unlimited e))
    (each : ∀ e ∈ es, Same good (eval env .unlimited (f e)) (eval env .unlimited e)) :
    Same good (evalAll env .unlimited (es.map f)) (evalAll env .unlimited es) := by
  induction es with
  | nil => exact .refl _
  | cons first rest ih =>
    obtain ⟨hkeeps, hkeepsRest⟩ := List.forall_mem_cons.mp keeps
    obtain ⟨hfirst, heach⟩ := List.forall_mem_cons.mp each
    have hrest := ih hkeepsRest heach
    rw [List.map_cons, evalAll, evalAll]
    refine hfirst.bind (hkeeps.of_same hfirst) fun value _ => ?_
    exact hrest.bind ((evalAll_keeps hkeepsRest).of_same hrest) fun values _ => .refl _

theorem evalStatements_same (keeps : ∀ e ∈ es, Keeps good fine good (eval env .unlimited e))
    (each : ∀ e ∈ es, Same good (eval env .unlimited (f e)) (eval env .unlimited e))
    (before : Value) :
    Same good (evalStatements env .unlimited before (es.map f))
      (evalStatements env .unlimited before es) := by
  induction es generalizing before with
  | nil => exact .refl _
  | cons first rest ih =>
    obtain ⟨hkeeps, hkeepsRest⟩ := List.forall_mem_cons.mp keeps
    obtain ⟨hfirst, hrest⟩ := List.forall_mem_cons.mp each
    rw [List.map_cons, evalStatements, evalStatements]
    refine hfirst.bind (hkeeps.of_same hfirst) fun value _ => ?_
    exact ih hkeepsRest hrest value

end Same

/-- Whether a node brings in good values only, and its operator leads from good values to good ones
or to fine faults. -/
def Expr.Leads (good : Value → Prop) (fine : Fault → Prop) : Expr → Prop
  | .number value => good value
  | .operation operator _ => ∀ values : List Value, operator.Takes values.length →
    (∀ value ∈ values, good value) → Meets good fine (operator.apply values)
  | _ => True

theorem Expr.IsClosed.leads (hfine : ∀ fault : Fault, fault.isEvaluation → fine fault) :
    ∀ node : Expr, node.IsClosed good → node.Leads good fine
  | .number _, h => h
  | .operation _ _, h => fun values takes hvalues => (h values takes hvalues).mono hfine
  | .variable _, _ | .assignment .., _ | .call .., _ | .block _, _ | .unknown, _ => trivial

/-- Going one level down cannot fail in unlimited room. -/
theorem descend_keeps (hroom : room = .unlimited ∨ fine .stackExhausted) (cost : Nat) :
    Keeps good fine (fun inner => inner = .unlimited ∨ fine .stackExhausted)
      (Effect.descend room cost : Run σ Room) := by
  rcases hroom with rfl | hexhausted
  · exact .pure (.inl rfl)
  · unfold Effect.descend
    split
    next => exact .pure (.inr hexhausted)
    next => exact .throw hexhausted

/-- Evaluating a tree in shape gives a good value or a fine fault, and what it writes is good. -/
theorem eval_keeps_within (supplies : env.Supplies good fine)
    (hunknown : ∀ name, fine (.unknownFunction name)) {e : Expr}
    (shape : e.Everywhere Expr.InShape) (leads : e.Everywhere (Expr.Leads good fine))
    (hroom : room = .unlimited ∨ fine .stackExhausted) :
    Keeps good fine good (eval env room e) := by
  induction e using Expr.inductionOn generalizing room with
  | number value =>
    rw [Expr.everywhere_number] at leads
    exact .pure leads
  | reference name => exact readVariable_keeps supplies name
  | operation operator operands ih =>
    rw [Expr.everywhere_operation] at shape leads
    rw [eval]
    refine (descend_keeps hroom _).bind fun inner hinner => ?_
    refine .bind (evalAll_keeps fun e member =>
      ih e member (shape.2 e member) (leads.2 e member) hinner) fun values hvalues => .ofExcept ?_
    exact leads.1 values (hvalues.1 ▸ shape.1) hvalues.2
  | assignment target value _ ih =>
    rw [Expr.everywhere_assignment] at shape leads
    obtain ⟨name, hname⟩ := Option.isSome_iff_exists.mp shape.1
    rw [eval, hname]
    refine (descend_keeps hroom _).bind fun inner hinner => ?_
    exact .bind (ih shape.2.2 leads.2.2 hinner) fun result hresult =>
      writeVariable_keeps name hresult
  | call name arguments ih =>
    rw [Expr.everywhere_call] at shape leads
    rw [eval]
    split
    next => exact .throw (hunknown name)
    next callee hname =>
      refine (descend_keeps hroom _).bind fun inner hinner => ?_
      refine .bind (evalAll_keeps fun e member =>
        ih e member (shape.2 e member) (leads.2 e member) hinner) fun values hvalues => .ofHost ?_
      exact supplies.functions name callee hname values hvalues.2
  | block statements ih =>
    rw [Expr.everywhere_block] at shape leads
    rw [eval]
    refine (descend_keeps hroom _).bind fun inner hinner => ?_
    exact evalStatements_keeps shape.1
      (fun e member => ih e member (shape.2 e member) (leads.2 e member) hinner) .none
  | unknown => simp [Expr.InShape] at shape

theorem eval_keeps (supplies : env.Supplies good fine)
    (hfine : ∀ fault : Fault, fault.isEvaluation → fine fault) {e : Expr}
    (shape : e.Everywhere Expr.InShape) (closed : e.Everywhere (Expr.IsClosed good)) :
    Keeps good fine good (eval env .unlimited e) :=
  eval_keeps_within supplies (fun _ => hfine _ rfl) shape (closed.mono (Expr.IsClosed.leads hfine))
    (.inl rfl)

end Formula
