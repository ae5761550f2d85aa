import Formula.Calculator
import Formula.Proofs.Function.Registry

namespace Formula

variable {σ α β : Type}

/-- A call that reaches the caller: of a calculator's own function, of a registered one, or of the
handler. -/
inductive Event (σ : Type) where
  | own (name : String) (arguments : List Value)
  | registered (name : String) (callee : Callee σ) (arguments : List Value)
  | missed (name : String)

/-- A host state with the calls so far. -/
structure Recorded (σ : Type) where
  host : σ
  events : List (Event σ)

/-- Notes are no calls. -/
instance [Journal σ] : Journal (Recorded σ) :=
  ⟨fun note recorded => { recorded with host := Journal.write note recorded.host }⟩

namespace Effect

/-- Writes down a call and then does it. -/
def recorded (event : Event σ) (x : Effect σ α) : Effect (Recorded σ) α :=
  ⟨fun before =>
    ((x.run before.host).1, ⟨(x.run before.host).2, before.events ++ [event]⟩)⟩

end Effect

def Callee.recorded (event : List Value → Event σ) : Callee σ → Callee (Recorded σ)
  | .function run => .function fun arguments => (run arguments).recorded (event arguments)
  | .inert => .inert

def Definition.recorded (definition : Definition σ) : Definition (Recorded σ) :=
  { definition with
    callee := definition.callee.recorded (.registered definition.name definition.callee) }

/-- A registry whose functions write down what they are called with. -/
def Registry.recorded (registry : Registry σ) : Registry (Recorded σ) :=
  ⟨registry.definitions.map Definition.recorded⟩

def FunctionTable.recorded (functions : FunctionTable σ) : FunctionTable (Recorded σ) :=
  ⟨functions.own.map fun (name, callee) => (name, callee.recorded (.own name))⟩

/-- A calculator whose own functions and handler write down what they are called with. -/
def Calculator.recorded (calculator : Calculator σ) : Calculator (Recorded σ) where
  options := calculator.options
  store := calculator.store
  functions := calculator.functions.recorded
  tree := calculator.tree
  missing name := (calculator.missing name).recorded (.missed name)

/-- Two computations that do the same, the second with a record of calls that are all allowed. -/
def Records (allowed : Event σ → Prop) (x : Effect σ α) (y : Effect (Recorded σ) α) : Prop :=
  ∀ host events, ∃ calls, (∀ event ∈ calls, allowed event) ∧
    y.run ⟨host, events⟩ = ((x.run host).1, ⟨(x.run host).2, events ++ calls⟩)

namespace Records

variable {allowed : Event σ → Prop} {x : Effect σ α} {y : Effect (Recorded σ) α}

theorem pure (value : α) :
    Records allowed (Pure.pure value : Effect σ α) (Pure.pure value) :=
  fun _ events => ⟨[], by simp, by simp⟩

theorem throw (fault : Fault) :
    Records allowed (MonadExcept.throw fault : Effect σ α) (MonadExcept.throw fault) :=
  fun _ events => ⟨[], by simp, by simp⟩

theorem ofExcept (result : Except Fault α) :
    Records allowed (Effect.ofExcept result : Effect σ α) (Effect.ofExcept result) := by
  cases result with
  | ok value => exact .pure value
  | error fault => exact .throw fault

theorem bind (h : Records allowed x y) {next : α → Effect σ β}
    {next' : α → Effect (Recorded σ) β}
    (hnext : ∀ value, Records allowed (next value) (next' value)) :
    Records allowed (x >>= next) (y >>= next') := by
  intro host events
  obtain ⟨calls, hcalls, hrun⟩ := h host events
  rw [Effect.run_bind, Effect.run_bind, hrun]
  rcases x.run host with ⟨fault | value, after⟩
  · exact ⟨calls, hcalls, rfl⟩
  · obtain ⟨others, hothers, hrest⟩ := hnext value after (events ++ calls)
    refine ⟨calls ++ others, List.forall_mem_append.mpr ⟨hcalls, hothers⟩, ?_⟩
    rw [← List.append_assoc]
    exact hrest

theorem orElse (h : Records allowed x y) {next : Fault → Effect σ α}
    {next' : Fault → Effect (Recorded σ) α}
    (hnext : ∀ fault, Records allowed (next fault) (next' fault)) :
    Records allowed (x.orElse next) (y.orElse next') := by
  intro host events
  obtain ⟨calls, hcalls, hrun⟩ := h host events
  simp only [Effect.orElse, hrun]
  rcases x.run host with ⟨fault | value, after⟩
  · obtain ⟨others, hothers, hrest⟩ := hnext fault after (events ++ calls)
    refine ⟨calls ++ others, List.forall_mem_append.mpr ⟨hcalls, hothers⟩, ?_⟩
    rw [← List.append_assoc]
    exact hrest
  · exact ⟨calls, hcalls, rfl⟩

theorem mapFault (h : Records allowed x y) (update : Fault → Fault) :
    Records allowed (x.mapFault update) (y.mapFault update) :=
  h.orElse fun fault => .throw (update fault)

theorem boundDepth (h : Records allowed x y) : Records allowed x.boundDepth y.boundDepth :=
  h.mapFault _

theorem descend (room : Room) (cost : Nat) :
    Records allowed (Effect.descend room cost : Effect σ Room) (Effect.descend room cost) := by
  unfold Effect.descend
  split
  · exact .pure _
  · exact .throw _

/-- A change of the host that is no call. -/
theorem onHost (update : σ → σ) :
    Records allowed (modify update : Effect σ PUnit)
      (modify fun before => { before with host := update before.host }) :=
  fun _ events => ⟨[], by simp, by simp⟩

/-- A recorded call is one more event. -/
theorem recorded {event : Event σ} (h : allowed event) (x : Effect σ α) :
    Records allowed x (x.recorded event) :=
  fun _ _ => ⟨[event], List.forall_mem_singleton.mpr h, rfl⟩

theorem call {callee : Callee σ} {event : List Value → Event σ}
    (h : ∀ arguments, allowed (event arguments)) (name : String) (arguments : List Value) :
    Records allowed (callee.call name arguments) ((callee.recorded event).call name arguments) := by
  cases callee with
  | function run => exact (Records.recorded (h arguments) (run arguments)).mapFault _
  | inert => exact (Records.throw .notCallable).mapFault _

end Records

namespace Registry

variable {registry : Registry σ} {name : String}

theorem callee?_recorded (registry : Registry σ) (name : String) :
    registry.recorded.callee? name =
      (registry.callee? name).map fun callee => callee.recorded (.registered name callee) := by
  have hsame : (fun definition : Definition (Recorded σ) => definition.name == name) ∘
      Definition.recorded = fun definition : Definition σ => definition.name == name := rfl
  rw [callee?, callee?, find?, find?, recorded, List.find?_map, hsame]
  cases hfound : registry.definitions.find? fun definition => definition.name == name with
  | none => rfl
  | some definition =>
    have hname : definition.name = name := by simpa using List.find?_some hfound
    subst hname
    rfl

end Registry

namespace FunctionTable

theorem lookup_own_recorded (functions : FunctionTable σ) (name : String) :
    functions.recorded.own.lookup name =
      (functions.own.lookup name).map fun callee => callee.recorded (.own name) := by
  obtain ⟨own⟩ := functions
  induction own with
  | nil => rfl
  | cons first rest ih =>
    obtain ⟨key, callee⟩ := first
    by_cases hkey : name = key
    · subst hkey
      simp [recorded]
    · have hother : (name == key) = false := beq_false_of_ne hkey
      simpa [recorded, List.lookup_cons, hother] using ih

theorem owns_recorded (functions : FunctionTable σ) (name : String) :
    functions.recorded.owns name = functions.owns name := by
  rw [owns, owns, lookup_own_recorded, Option.isSome_map]

/-- Folding may call the same functions, each with its record. -/
theorem foldable_recorded (functions : FunctionTable σ) (registry : Registry σ) (name : String) :
    functions.recorded.foldable registry.recorded name =
      (functions.foldable registry name).map fun callee =>
        callee.recorded (.registered name callee) := by
  rw [foldable, foldable, owns_recorded, Registry.callee?_recorded]
  split <;> rfl

end FunctionTable

end Formula
