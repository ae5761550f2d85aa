import Formula.Proofs.Expr.Nesting
import Formula.Proofs.Parser.Shape
import Formula.Proofs.Program.Agreement

namespace Formula

open Formula.Expr

variable {σ α β : Type}

namespace Expr

/-- The name of a function that is missing where a node calls it. -/
def unknownCall? (functions : String → Option (Callee σ)) : Expr → Option String
  | .call name _ => if (functions name).isNone then some name else none
  | _ => none

/-- The first name, in the order of a list of nodes, of a function that is missing. -/
def firstUnknown? (functions : String → Option (Callee σ)) (nodes : List Expr) : Option String :=
  nodes.findSome? (unknownCall? functions)

variable {functions : String → Option (Callee σ)} {name : String}

theorem unknownCall?_eq_some_iff {node : Expr} :
    node.unknownCall? functions = some name ↔
      ∃ arguments, node = .call name arguments ∧ functions name = none := by
  cases node with
  | call other arguments =>
    simp only [unknownCall?, Option.isNone_iff_eq_none, Option.ite_none_right_eq_some,
      Option.some.injEq, call.injEq]
    constructor
    · rintro ⟨hnone, rfl⟩
      exact ⟨arguments, ⟨rfl, rfl⟩, hnone⟩
    · rintro ⟨_, ⟨rfl, rfl⟩, hnone⟩
      exact ⟨hnone, rfl⟩
  | _ => simp [unknownCall?]

theorem exists_of_firstUnknown?_eq_some {nodes : List Expr}
    (h : firstUnknown? functions nodes = some name) :
    ∃ arguments, .call name arguments ∈ nodes ∧ functions name = none := by
  obtain ⟨node, member, hnode⟩ := List.exists_of_findSome?_eq_some h
  obtain ⟨arguments, rfl, hname⟩ := unknownCall?_eq_some_iff.mp hnode
  exact ⟨arguments, member, hname⟩

/-- Some call names a missing function exactly where a first one does. -/
theorem exists_firstUnknown?_iff {nodes : List Expr} :
    (∃ name, firstUnknown? functions nodes = some name) ↔
      ∃ name arguments, .call name arguments ∈ nodes ∧ functions name = none := by
  constructor
  · rintro ⟨name, h⟩
    exact ⟨name, exists_of_firstUnknown?_eq_some h⟩
  · rintro ⟨name, arguments, member, hname⟩
    refine Option.ne_none_iff_exists'.mp fun hnone => ?_
    have hcall := List.findSome?_eq_none_iff.mp hnone _ member
    rw [unknownCall?_eq_some_iff.mpr ⟨arguments, rfl, hname⟩] at hcall
    cases hcall

theorem firstUnknown?_append (nodes others : List Expr) :
    firstUnknown? functions (nodes ++ others) =
      (firstUnknown? functions nodes).or (firstUnknown? functions others) :=
  List.findSome?_append

theorem firstUnknown?_nodesOf_eq_none {es : List Expr}
    (each : ∀ e ∈ es, firstUnknown? functions e.nodes = none) :
    firstUnknown? functions (nodesOf es) = none := by
  induction es with
  | nil => rfl
  | cons first rest ih =>
    obtain ⟨hfirst, hrest⟩ := List.forall_mem_cons.mp each
    rw [nodesOf, firstUnknown?_append, hfirst, ih hrest]
    rfl

theorem firstUnknown?_operation (operator : Operator) (operands : List Expr) :
    firstUnknown? functions (operation operator operands).nodes =
      firstUnknown? functions (nodesOf operands) := rfl

theorem firstUnknown?_block (statements : List Expr) :
    firstUnknown? functions (block statements).nodes =
      firstUnknown? functions (nodesOf statements) := rfl

theorem firstUnknown?_assignment {target : Expr} (h : target.name? = some name) (value : Expr) :
    firstUnknown? functions (assignment target value).nodes =
      firstUnknown? functions value.nodes := by
  cases target with
  | «variable» other => rfl
  | _ => cases h

theorem firstUnknown?_call_of_none (h : functions name = none) (arguments : List Expr) :
    firstUnknown? functions (call name arguments).nodes = some name := by
  simp [firstUnknown?, nodes, unknownCall?, h]

theorem firstUnknown?_call_of_some {callee : Callee σ} (h : functions name = some callee)
    (arguments : List Expr) :
    firstUnknown? functions (call name arguments).nodes =
      firstUnknown? functions (nodesOf arguments) := by
  simp [firstUnknown?, nodes, unknownCall?, h]

end Expr

section Compilation

variable {snapshot : Snapshot σ} {room : Room} {e : Expr} {es : List Expr} {fault : Fault}

/-- What has code calls known functions only. -/
theorem firstUnknown?_of_code {result : Code σ} (h : code snapshot room e = .ok result) :
    firstUnknown? snapshot.functions e.nodes = none := by
  induction e using Expr.inductionOn generalizing room result with
  | number value | reference name | unknown => rfl
  | operation operator operands ih | block operands ih =>
    rw [code] at h
    obtain ⟨inner, -, h⟩ := exists_of_bind_eq_ok h
    obtain ⟨parts, hparts, -⟩ := exists_of_bind_eq_ok h
    exact firstUnknown?_nodesOf_eq_none (forall_of_codeAll hparts fun e member _ => ih e member)
  | assignment target value _ ih =>
    rw [code] at h
    split at h
    next => cases h
    next name hname =>
      obtain ⟨inner, -, h⟩ := exists_of_bind_eq_ok h
      obtain ⟨valueCode, hvalue, -⟩ := exists_of_bind_eq_ok h
      rw [firstUnknown?_assignment hname]
      exact ih hvalue
  | call name arguments ih =>
    rw [code] at h
    split at h
    next => cases h
    next callee hcallee =>
      obtain ⟨inner, -, h⟩ := exists_of_bind_eq_ok h
      obtain ⟨parts, hparts, -⟩ := exists_of_bind_eq_ok h
      rw [firstUnknown?_call_of_some hcallee]
      exact firstUnknown?_nodesOf_eq_none (forall_of_codeAll hparts fun e member _ => ih e member)

theorem length_of_codeAll {parts : List (Code σ)} (h : codeAll snapshot room es = .ok parts) :
    parts.length = es.length := by
  induction es generalizing parts with
  | nil =>
    cases h
    rfl
  | cons first rest ih =>
    rw [codeAll] at h
    obtain ⟨code, -, h⟩ := exists_of_bind_eq_ok h
    obtain ⟨others, hothers, h⟩ := exists_of_bind_eq_ok h
    cases h
    rw [List.length_cons, List.length_cons, ih hothers]

/-- Why trees in shape with these nodes have no code: they do not fit, or their first unknown
function is reported. -/
def Snapshot.Stops (snapshot : Snapshot σ) (nodes : List Expr) (fits : Prop) (fault : Fault) :
    Prop :=
  (fault = .stackExhausted ∧ ¬ fits) ∨
    ∃ name, firstUnknown? snapshot.functions nodes = some name ∧ fault = .unknownFunction name

theorem Snapshot.Stops.imp {nodes others : List Expr} {fits other : Prop}
    (h : snapshot.Stops nodes fits fault)
    (hnodes : firstUnknown? snapshot.functions others = firstUnknown? snapshot.functions nodes)
    (hfits : other → fits) : snapshot.Stops others other fault := by
  rcases h with ⟨hfault, hnot⟩ | ⟨name, hname, hfault⟩
  · exact .inl ⟨hfault, fun h => hnot (hfits h)⟩
  · exact .inr ⟨name, hnodes.trans hname, hfault⟩

/-- There is a room one level down from what fits, and it is enough for the parts. -/
theorem exists_descend_of_holds {levels : Nat}
    (h : room.holds (price.evaluation * (levels + 1))) :
    ∃ inner, Snapshot.descend room = .ok inner ∧ inner.holds (price.evaluation * levels) := by
  rw [Nat.mul_add, Nat.mul_one, Nat.add_comm] at h
  obtain ⟨inner, henter, hinner⟩ := Room.enter?_of_holds h
  exact ⟨inner, by rw [Snapshot.descend, henter], hinner⟩

theorem holds_of_descend {inner : Room} {levels : Nat} (h : Snapshot.descend room = .ok inner)
    (hroom : room.holds (price.evaluation * (levels + 1))) :
    inner.holds (price.evaluation * levels) := by
  obtain ⟨other, hother, hinner⟩ := exists_descend_of_holds hroom
  cases hother.symm.trans h
  exact hinner

theorem stops_of_descend {nodes : List Expr} {levels : Nat}
    (h : Snapshot.descend room = .error fault) :
    snapshot.Stops nodes (room.holds (price.evaluation * (levels + 1))) fault := by
  refine .inl ⟨?_, fun hroom => ?_⟩
  · unfold Snapshot.descend at h
    split at h
    next => cases h
    next =>
      cases h
      rfl
  · obtain ⟨other, hother, -⟩ := exists_descend_of_holds hroom
    cases hother.symm.trans h

theorem stops_of_codeAll (h : codeAll snapshot room es = .error fault)
    (each : ∀ e ∈ es, ∀ fault, code snapshot room e = .error fault →
      snapshot.Stops e.nodes (e.Fits room) fault) :
    snapshot.Stops (nodesOf es) (room.holds (price.evaluation * heightOf es)) fault := by
  induction es with
  | nil => cases h
  | cons first rest ih =>
    obtain ⟨hfirst, hrest⟩ := List.forall_mem_cons.mp each
    rw [codeAll] at h
    rcases exists_of_bind_eq_error h with h | ⟨result, hresult, h⟩
    · rcases hfirst fault h with ⟨hfault, hnot⟩ | ⟨name, hname, hfault⟩
      · exact .inl ⟨hfault, fun hroom => hnot (fits_of_mem hroom List.mem_cons_self)⟩
      · exact .inr ⟨name, by rw [nodesOf, firstUnknown?_append, hname, Option.some_or], hfault⟩
    rcases exists_of_bind_eq_error h with h | ⟨others, -, h⟩
    · refine (ih h hrest).imp ?_ fun hroom =>
        Room.holds_mono hroom (Nat.mul_le_mul_left _ (Nat.le_max_right _ _))
      rw [nodesOf, firstUnknown?_append, firstUnknown?_of_code hresult, Option.none_or]
    · cases h

/-- A tree in shape that fits has code unless it calls an unknown function. -/
theorem stops_of_code (shape : e.Everywhere InShape) (h : code snapshot room e = .error fault) :
    snapshot.Stops e.nodes (e.Fits room) fault := by
  induction e using Expr.inductionOn generalizing room fault with
  | number value | reference name => cases h
  | operation operator operands ih =>
    rw [everywhere_operation] at shape
    rw [code] at h
    rcases exists_of_bind_eq_error h with h | ⟨inner, hinner, h⟩
    · exact stops_of_descend h
    rcases exists_of_bind_eq_error h with h | ⟨parts, hparts, h⟩
    · exact (stops_of_codeAll h fun e member _ => ih e member (shape.2 e member)).imp
        (firstUnknown?_operation operator operands) (holds_of_descend hinner)
    · have takes : operator.Takes parts.length := length_of_codeAll hparts ▸ shape.1
      obtain ⟨other, hother, -⟩ := ofOperation_eq takes
      cases hother.symm.trans h
  | assignment target value _ ih =>
    rw [everywhere_assignment] at shape
    obtain ⟨name, hname⟩ := Option.isSome_iff_exists.mp shape.1
    rw [code, hname] at h
    rcases exists_of_bind_eq_error h with h | ⟨inner, hinner, h⟩
    · exact stops_of_descend h
    rcases exists_of_bind_eq_error h with h | ⟨valueCode, -, h⟩
    · refine (ih shape.2.2 h).imp (firstUnknown?_assignment hname value) fun hroom => ?_
      exact Room.holds_mono (holds_of_descend hinner hroom)
        (Nat.mul_le_mul_left _ (Nat.le_max_right _ _))
    · cases h
  | call name arguments ih =>
    rw [everywhere_call] at shape
    rw [code] at h
    split at h
    next hnone =>
      cases h
      exact .inr ⟨name, firstUnknown?_call_of_none hnone arguments, rfl⟩
    next callee hcallee =>
      rcases exists_of_bind_eq_error h with h | ⟨inner, hinner, h⟩
      · exact stops_of_descend h
      rcases exists_of_bind_eq_error h with h | ⟨parts, -, h⟩
      · exact (stops_of_codeAll h fun e member _ => ih e member (shape.2 e member)).imp
          (firstUnknown?_call_of_some hcallee arguments) (holds_of_descend hinner)
      · cases h
  | block statements ih =>
    rw [everywhere_block] at shape
    rw [code] at h
    rcases exists_of_bind_eq_error h with h | ⟨inner, hinner, h⟩
    · exact stops_of_descend h
    rcases exists_of_bind_eq_error h with h | ⟨parts, hparts, h⟩
    · exact (stops_of_codeAll h fun e member _ => ih e member (shape.2 e member)).imp
        (firstUnknown?_block statements) (holds_of_descend hinner)
    · unfold Code.ofBlock at h
      split at h
      next hnone =>
        have hlength := length_of_codeAll hparts
        rw [List.getLast?_eq_none_iff.mp hnone, List.length_nil] at hlength
        exact absurd (List.length_eq_zero_iff.mp hlength.symm) shape.1
      next => cases h
  | unknown => simp [InShape] at shape

/-- A tree in shape that fits fails to compile exactly for its first unknown function. -/
theorem compile_eq_error_iff (shape : e.Everywhere InShape) (fits : e.Fits room) :
    compile snapshot room e = .error fault ↔
      ∃ name, firstUnknown? snapshot.functions e.nodes = some name ∧
        fault = .unknownFunction name := by
  have hstops : ∀ {cause}, code snapshot room e = .error cause →
      ∃ name, firstUnknown? snapshot.functions e.nodes = some name ∧
        cause = .unknownFunction name := by
    intro cause hcause
    rcases stops_of_code shape hcause with ⟨-, hnot⟩ | h
    · exact absurd fits hnot
    · exact h
  unfold compile
  cases hcode : code snapshot room e with
  | ok result =>
    rw [firstUnknown?_of_code hcode]
    simp
  | error cause =>
    obtain ⟨name, hname, rfl⟩ := hstops hcode
    constructor
    · intro h
      cases h
      exact ⟨name, hname, rfl⟩
    · rintro ⟨other, hother, rfl⟩
      cases hname.symm.trans hother
      rfl

end Compilation

namespace Effect

/-- Whether a computation fails from every state. -/
def Fails (x : Effect σ α) : Prop :=
  ∀ state, ∃ fault after, x.run state = (.error fault, after)

theorem Fails.throw (fault : Fault) : Fails (MonadExcept.throw fault : Effect σ α) :=
  fun state => ⟨fault, state, rfl⟩

theorem Fails.bind {x : Effect σ α} (h : x.Fails) (next : α → Effect σ β) :
    (x >>= next).Fails := by
  intro state
  obtain ⟨fault, after, hx⟩ := h state
  exact ⟨fault, after, by rw [run_bind, hx]⟩

theorem Fails.then {next : α → Effect σ β} (h : ∀ value, (next value).Fails) (x : Effect σ α) :
    (x >>= next).Fails := by
  intro state
  rw [run_bind]
  rcases x.run state with ⟨fault | value, after⟩
  · exact ⟨fault, after, rfl⟩
  · exact h value after

theorem Fails.boundDepth {x : Effect σ α} (h : x.Fails) : x.boundDepth.Fails := by
  intro state
  obtain ⟨fault, after, hx⟩ := h state
  exact ⟨outermost fault, after, by rw [run_boundDepth, hx]; rfl⟩

end Effect

section Evaluation

open Formula.Effect

variable {env : Environment σ} {room : Room} {e : Expr} {es : List Expr} {name : String}
  {arguments : List Expr}

theorem evalAll_fails (member : e ∈ es) (h : (eval env room e).Fails) :
    (evalAll env room es).Fails := by
  induction es with
  | nil => cases member
  | cons first rest ih =>
    rw [evalAll]
    rcases List.mem_cons.mp member with rfl | member
    · exact h.bind _
    · exact .then (fun _ => (ih member).bind _) _

theorem evalStatements_fails (member : e ∈ es) (h : (eval env room e).Fails) (before : Value) :
    (evalStatements env room before es).Fails := by
  induction es generalizing before with
  | nil => cases member
  | cons first rest ih =>
    rw [evalStatements]
    rcases List.mem_cons.mp member with rfl | member
    · exact h.bind _
    · exact .then (fun value => ih member value) _

/-- No part of a tree is left out: a call of an unknown function anywhere makes evaluation fail. -/
theorem eval_fails (hname : env.functions name = none) (member : .call name arguments ∈ e.nodes) :
    (eval env room e).Fails := by
  induction e using Expr.inductionOn generalizing room with
  | number value | reference other | unknown => simp [nodes] at member
  | operation operator operands ih =>
    obtain ⟨operand, hoperand, hnode⟩ :=
      mem_nodesOf.mp ((List.mem_cons.mp member).resolve_left fun h => by cases h)
    rw [eval]
    exact .then (fun _ => (evalAll_fails hoperand (ih operand hoperand hnode)).bind _) _
  | assignment target value _ ih =>
    rw [eval]
    split
    next => exact .throw _
    next other hother =>
      have hvalue : .call name arguments ∈ value.nodes := by
        cases target with
        | «variable» _ => simpa [nodes] using member
        | _ => cases hother
      exact .then (fun _ => (ih hvalue).bind _) _
  | call other others ih =>
    rw [eval]
    split
    next => exact .throw _
    next callee hcallee =>
      rcases List.mem_cons.mp member with h | member
      · cases h
        cases hname.symm.trans hcallee
      · obtain ⟨argument, hargument, hnode⟩ := mem_nodesOf.mp member
        exact .then (fun _ => (evalAll_fails hargument (ih argument hargument hnode)).bind _) _
  | block statements ih =>
    obtain ⟨statement, hstatement, hnode⟩ :=
      mem_nodesOf.mp ((List.mem_cons.mp member).resolve_left fun h => by cases h)
    rw [eval]
    exact .then (fun _ => evalStatements_fails hstatement (ih statement hstatement hnode) _) _

end Evaluation

/-- A parsed tree fails to compile exactly where it calls an unknown function. The fault is that of
the first such call, and evaluating the tree with the same functions fails as well, whatever the
variables and the handler are. -/
theorem compile_error_iff_unknown {text : Option String} {force : Bool} {room within : Room}
    {tree : Expr} (parsed : parse room force text = .ok tree) (fits : tree.Fits within)
    (snapshot : Snapshot σ) :
    ((∃ fault, compile snapshot within tree = .error fault) ↔
      ∃ name arguments, .call name arguments ∈ tree.nodes ∧ snapshot.functions name = none) ∧
    ∀ fault, compile snapshot within tree = .error fault →
      (∃ name, firstUnknown? snapshot.functions tree.nodes = some name ∧
        fault = .unknownFunction name ∧ fault.kind = .evaluation ∧
        fault.message = "Unknown function: " ++ name ∧ fault.name? = some name) ∧
      ∀ overrides missing outer frame, ∃ cause after,
        (evaluate ⟨overrides, snapshot.functions, missing⟩ outer tree).run frame =
          (.error cause, after) := by
  have hcompile : ∀ fault, compile snapshot within tree = .error fault ↔
      ∃ name, firstUnknown? snapshot.functions tree.nodes = some name ∧
        fault = .unknownFunction name :=
    fun fault => compile_eq_error_iff (isProgram_of_parse parsed).inShape fits
  constructor
  · rw [← exists_firstUnknown?_iff]
    constructor
    · rintro ⟨fault, h⟩
      obtain ⟨name, hname, -⟩ := (hcompile fault).mp h
      exact ⟨name, hname⟩
    · rintro ⟨name, hname⟩
      exact ⟨_, (hcompile _).mpr ⟨name, hname, rfl⟩⟩
  · intro fault h
    obtain ⟨name, hname, rfl⟩ := (hcompile fault).mp h
    refine ⟨⟨name, hname, rfl, rfl, rfl, rfl⟩, fun overrides missing outer => ?_⟩
    obtain ⟨arguments, member, hnone⟩ := exists_of_firstUnknown?_eq_some hname
    have hfails : (eval ⟨overrides, snapshot.functions, missing⟩ outer tree).Fails :=
      eval_fails hnone member
    exact hfails.boundDepth

def unknownSource : String := "x = 1 / 0; count(twice(count(x), half()), y)"

theorem compile_error_iff_unknown_twice :
    ∃ tree, parse .standard false (some unknownSource) = .ok tree ∧ tree.Fits .standard ∧
      compile countingSnapshot .standard tree = .error (.unknownFunction "twice") ∧
      ∀ overrides missing outer frame, ∃ cause after,
        (evaluate ⟨overrides, countingSnapshot.functions, missing⟩ outer tree).run frame =
          (.error cause, after) := by
  obtain ⟨tree, parsed, hchecks⟩ := @exists_ok_of_any _ _
    (parse .standard false (some unknownSource))
    (fun tree => decide (tree.Fits .standard ∧
      firstUnknown? countingSnapshot.functions tree.nodes = some "twice")) (by decide +kernel)
  obtain ⟨fits, htwice⟩ := of_decide_eq_true hchecks
  obtain ⟨hiff, herror⟩ := compile_error_iff_unknown parsed fits countingSnapshot
  obtain ⟨fault, hfault⟩ := hiff.mpr (exists_firstUnknown?_iff.mp ⟨"twice", htwice⟩)
  obtain ⟨⟨name, hname, rfl, -⟩, hfails⟩ := herror fault hfault
  cases hname.symm.trans htwice
  exact ⟨tree, parsed, fits, hfault, hfails⟩

end Formula
