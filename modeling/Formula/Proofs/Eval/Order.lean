import Formula.Proofs.Eval.Acts
import Formula.Proofs.Eval.Depth
import Formula.Proofs.Expr.Postorder
import Formula.Proofs.Program.Agreement

namespace Formula

open Formula.Expr

variable {σ α β : Type} {env : Environment σ} {room : Room} {short : Prop}

/-- What is done at a node whose parts have the given values. -/
def work (env : Environment σ) : Expr → List Value → Run σ Value
  | .number value, _ => pure value
  | .variable name, _ => readVariable env.overrides env.missing name
  | .operation operator _, values => Effect.ofExcept (operator.apply values)
  | .assignment target _, values =>
    match target.name? with
    | some name => writeVariable name (values.getLastD .none)
    | none => throw (.badTarget target.kind)
  | .call name _, values =>
    match env.functions name with
    | some callee => .ofHost (callee.call name values)
    | none => throw (.unknownFunction name)
  | .block _, values => pure (values.getLastD .none)
  | .unknown, _ => throw .unknownNode

/-- The acts at a node whose parts have the given values: one assignment, one call, one request for
a variable that is found nowhere, or none. -/
def actsAt (env : Environment σ) : Expr → List Value → Acts σ
  | .variable name, _ => .ofVariable env.overrides name
  | .assignment target _, values =>
    match target.name? with
    | some name => fun _ => [.assigned name (values.getLastD .none)]
    | none => .nothing
  | .call name _, values =>
    match env.functions name with
    | some callee => .ofCallee name values callee
    | none => .nothing
  | _, _ => .nothing

/-- The values of the parts of a node, which lie on the stack, the last one on top. -/
def Expr.taken (node : Expr) (stack : List Value) : List Value :=
  (stack.take node.evaluated.length).reverse

def Expr.left (node : Expr) (stack : List Value) : List Value :=
  stack.drop node.evaluated.length

/-- What comes of working through nodes in order, with the acts on the way. It ends behind the last
node, at a node that fails, or in front of a node where room is short. -/
inductive Course (env : Environment σ) (short : Prop) : List Expr → List Value → Frame σ →
    List Act → Except Fault (List Value) → Frame σ → Prop where
  | done (stack : List Value) (frame : Frame σ) :
    Course env short [] stack frame [] (.ok stack) frame
  | next {node : Expr} {rest : List Expr} {stack : List Value} {frame between after : Frame σ}
      {value : Value} {trace : List Act} {result : Except Fault (List Value)} :
    (work env node (node.taken stack)).run frame = (.ok value, between) →
    Course env short rest (value :: node.left stack) between trace result after →
    Course env short (node :: rest) stack frame
      (actsAt env node (node.taken stack) frame ++ trace) result after
  | fails {node : Expr} {rest : List Expr} {stack : List Value} {frame after : Frame σ}
      {fault : Fault} :
    (work env node (node.taken stack)).run frame = (.error fault, after) →
    Course env short (node :: rest) stack frame
      (actsAt env node (node.taken stack) frame) (.error fault) after
  | exhausted {node : Expr} {rest : List Expr} {stack : List Value} {frame : Frame σ} :
    short → Course env short (node :: rest) stack frame [] (.error .stackExhausted) frame

namespace Course

variable {nodes others : List Expr} {stack middle : List Value} {frame between after : Frame σ}
  {trace later : List Act} {result : Except Fault (List Value)} {fault : Fault}

/-- What succeeds goes on with the nodes behind. -/
theorem append (h : Course env short nodes stack frame trace (.ok middle) between)
    (h' : Course env short others middle between later result after) :
    Course env short (nodes ++ others) stack frame (trace ++ later) result after := by
  generalize hmiddle : (Except.ok middle : Except Fault (List Value)) = outcome at h
  induction h with
  | done stack frame =>
    cases hmiddle
    exact h'
  | next hwork _ ih =>
    rw [List.append_assoc]
    exact .next hwork (ih h' hmiddle)
  | fails | exhausted => cases hmiddle

/-- What fails does not reach the nodes behind. -/
theorem append_error (h : Course env short nodes stack frame trace (.error fault) after)
    (others : List Expr) :
    Course env short (nodes ++ others) stack frame trace (.error fault) after := by
  generalize hfault : (Except.error fault : Except Fault (List Value)) = outcome at h
  induction h with
  | done => cases hfault
  | next hwork _ ih => exact .next hwork (ih hfault)
  | fails hwork =>
    cases hfault
    exact .fails hwork
  | exhausted hshort =>
    cases hfault
    exact .exhausted hshort

end Course

/-- Where room is short for a part, it is short for the whole. -/
theorem short_of_part {e part : Expr} {inner : Room} (hshort : ¬ e.Fits room → short)
    (hinner : room.enter? price.evaluation = some inner) (member : part ∈ e.children) :
    ¬ part.Fits inner → short :=
  fun hpart => hshort fun fits => hpart (fits_of_mem_children fits hinner member)

namespace Run

/-- Whether a computation, with the given acts, is a course through nodes that leaves its result on
the stack. -/
def Follows (env : Environment σ) (short : Prop) (nodes : List Expr) (stack : List Value)
    (x : Run σ α) (trace : Acts σ) (push : α → List Value) : Prop :=
  ∀ frame, Course env short nodes stack frame (trace frame) ((x.run frame).1.map push)
    (x.run frame).2

variable {nodes others : List Expr} {stack : List Value} {x : Run σ α} {trace : Acts σ}
  {push : α → List Value} {last : β → List Value}

theorem Follows.bind {next : α → Run σ β} {later : α → Acts σ}
    (h : Follows env short nodes stack x trace push)
    (hnext : ∀ value, (∃ frame after, x.run frame = (.ok value, after)) →
      Follows env short others (push value) (next value) (later value) last) :
    Follows env short (nodes ++ others) stack (x >>= next) (trace.andThen x later) last := by
  intro frame
  have hx := h frame
  rw [Effect.run_bind, Acts.andThen]
  rcases hrun : x.run frame with ⟨fault | value, between⟩
  · rw [hrun] at hx
    dsimp only
    rw [List.append_nil]
    exact hx.append_error others
  · rw [hrun] at hx
    exact hx.append (hnext value ⟨frame, between, hrun⟩ between)

theorem Follows.map {f : α → β} (h : Follows env short nodes stack x trace (last ∘ f)) :
    Follows env short nodes stack (f <$> x) trace last := by
  intro frame
  have hx := h frame
  rw [Effect.run_map]
  rcases hrun : x.run frame with ⟨fault | value, between⟩ <;>
  · rw [hrun] at hx
    exact hx

/-- A node works on the values that its parts have left. -/
theorem Follows.node {node : Expr} {values : List Value}
    (hlength : values.length = node.evaluated.length) (stack : List Value) :
    Follows env short [node] (values.reverse ++ stack) (work env node values)
      (actsAt env node values) (· :: stack) := by
  intro frame
  have htaken : node.taken (values.reverse ++ stack) = values := by
    rw [taken, ← hlength, ← List.length_reverse, List.take_left, List.reverse_reverse]
  have hleft : node.left (values.reverse ++ stack) = stack := by
    rw [left, ← hlength, ← List.length_reverse, List.drop_left]
  rcases hwork : (work env node values).run frame with ⟨fault | value, after⟩
  · rw [← htaken] at hwork
    have hfails : Course env short [node] _ frame _ _ after := .fails hwork
    rwa [htaken] at hfails
  · rw [← htaken] at hwork
    have hnext : Course env short [node] _ frame _ _ after := .next hwork (.done _ after)
    rwa [htaken, hleft, List.append_nil] at hnext

/-- Where there is no room to go down, the course ends in front of the next node. -/
theorem Follows.descend {e : Expr} {next : Room → Run σ α} {later : Room → Acts σ}
    (hnodes : nodes ≠ []) (hshort : ¬ e.Fits room → short)
    (h : ∀ inner, room.enter? price.evaluation = some inner →
      Follows env short nodes stack (next inner) (later inner) push) :
    Follows env short nodes stack (Effect.descend room price.evaluation >>= next)
      (.below room later) push := by
  unfold Effect.descend Acts.below
  cases hinner : room.enter? price.evaluation with
  | none =>
    obtain ⟨node, rest, rfl⟩ := List.exists_cons_of_ne_nil hnodes
    exact fun frame => .exhausted (hshort (not_fits_of_enter? hinner))
  | some inner => exact h inner hinner

end Run

open Run

theorem length_of_evalAll {es : List Expr} {values : List Value} {frame after : Frame σ}
    (h : (evalAll env room es).run frame = (.ok values, after)) : values.length = es.length := by
  induction es generalizing values frame with
  | nil =>
    cases h
    rfl
  | cons first rest ih =>
    rw [evalAll] at h
    obtain ⟨value, between, -, h⟩ := Effect.exists_of_run_bind h
    obtain ⟨others, last, hrest, h⟩ := Effect.exists_of_run_bind h
    cases h
    rw [List.length_cons, List.length_cons, ih hrest]

/-- Statements are evaluated like operands; only the last value is kept. -/
theorem evalStatements_eq (before : Value) (es : List Expr) :
    evalStatements env room before es = (·.getLastD before) <$> evalAll env room es := by
  induction es generalizing before with
  | nil => rfl
  | cons first rest ih =>
    have hlast (value : Value) :
        (·.getLastD value) = fun values => (value :: values).getLastD before := by
      funext values
      rw [List.getLastD_cons]
    rw [evalStatements, evalAll, map_bind]
    refine congrArg _ (funext fun value => ?_)
    rw [ih, hlast, ← map_eq_pure_bind, Functor.map_map]

theorem evalAll_follows {es : List Expr}
    (each : ∀ e ∈ es, ∀ stack, Follows env short e.postorder stack (eval env room e)
      (acts env room e) (· :: stack)) (stack : List Value) :
    Follows env short (postorderOf es) stack (evalAll env room es) (actsAll env room es)
      (·.reverse ++ stack) := by
  induction es generalizing stack with
  | nil => exact fun frame => .done stack frame
  | cons first rest ih =>
    obtain ⟨hfirst, hrest⟩ := List.forall_mem_cons.mp each
    have hpush : ∀ value : Value, (fun values => values.reverse ++ value :: stack) =
        (·.reverse ++ stack) ∘ (value :: ·) := fun value => by
      funext values
      simp
    rw [evalAll, actsAll, postorderOf]
    refine (hfirst stack).bind fun value _ => ?_
    rw [← map_eq_pure_bind]
    exact .map (hpush value ▸ ih hrest (value :: stack))

/-- A node is worked on behind all of its parts. -/
theorem Run.Follows.behind {node : Expr} {parts : List Expr} {stack : List Value}
    (hparts : node.evaluated = parts)
    (each : ∀ e ∈ parts, ∀ stack, Follows env short e.postorder stack (eval env room e)
      (acts env room e) (· :: stack)) :
    Follows env short (postorderOf parts ++ [node]) stack
      (evalAll env room parts >>= work env node)
      ((actsAll env room parts).andThen (evalAll env room parts) (actsAt env node))
      (· :: stack) := by
  refine (evalAll_follows each stack).bind ?_
  rintro values ⟨frame, after, hrun⟩
  exact .node ((length_of_evalAll hrun).trans (congrArg List.length hparts).symm) stack

/-- Evaluating a tree in shape whose functions are known is working through its nodes. -/
theorem eval_follows {e : Expr} (shape : e.Everywhere InShape)
    (known : e.Everywhere (IsKnown env.functions)) (hshort : ¬ e.Fits room → short)
    (stack : List Value) :
    Follows env short e.postorder stack (eval env room e) (acts env room e) (· :: stack) := by
  induction e using Expr.inductionOn generalizing room stack with
  | number value => exact @Follows.node σ env short (.number value) [] rfl stack
  | reference name => exact @Follows.node σ env short (.variable name) [] rfl stack
  | operation operator operands ih =>
    rw [everywhere_operation] at shape known
    rw [eval, acts, postorder]
    refine .descend (by simp) hshort fun inner hinner => ?_
    rw [← Acts.andThen_nothing (actsAll env inner operands) (evalAll env inner operands)]
    exact Follows.behind rfl fun e member stack =>
      ih e member (shape.2 e member) (known.2 e member) (short_of_part hshort hinner member) stack
  | assignment target value _ ih =>
    rw [everywhere_assignment] at shape known
    obtain ⟨name, hname⟩ := Option.isSome_iff_exists.mp shape.1
    simp only [eval, acts, hname, postorder]
    refine .descend (by simp) hshort fun inner hinner => ?_
    have hvalue := ih shape.2.2 known.2.2 (short_of_part hshort hinner (by simp [children])) stack
    refine hvalue.bind fun result _ => ?_
    have hnode := @Follows.node σ env short (.assignment target value) [result] rfl stack
    simp only [work, actsAt, hname] at hnode
    exact hnode
  | call name arguments ih =>
    rw [everywhere_call] at shape known
    obtain ⟨callee, found⟩ := Option.isSome_iff_exists.mp known.1
    simp only [eval, acts, found, postorder]
    refine .descend (by simp) hshort fun inner hinner => ?_
    have hnode : Follows env short (postorderOf arguments ++ [.call name arguments]) stack _ _ _ :=
      .behind rfl fun e member stack =>
        ih e member (shape.2 e member) (known.2 e member) (short_of_part hshort hinner member) stack
    have hwork : work env (.call name arguments) = fun values =>
        Run.ofHost (callee.call name values) := by
      funext values
      simp only [work, found]
    have hacts : actsAt env (.call name arguments) = fun values =>
        .ofCallee name values callee := by
      funext values
      simp only [actsAt, found]
    rwa [hwork, hacts] at hnode
  | block statements ih =>
    rw [everywhere_block] at shape known
    rw [eval, acts, postorder]
    refine .descend (by simp) hshort fun inner hinner => ?_
    rw [evalStatements_eq, map_eq_pure_bind,
      ← Acts.andThen_nothing (actsAll env inner statements) (evalAll env inner statements)]
    exact Follows.behind rfl fun e member stack =>
      ih e member (shape.2 e member) (known.2 e member) (short_of_part hshort hinner member) stack
  | unknown => exact absurd shape (by simp [InShape])

/-- What a node does each time it is worked on, by its name alone. -/
inductive Deed where
  | call (name : String)
  | assignment (name : String)

def Expr.deed? : Expr → Option Deed
  | .call name _ => some (.call name)
  | .assignment target _ => target.name?.map .assignment
  | _ => none

namespace Act

def deed? : Act → Option Deed
  | .called name _ => some (.call name)
  | .assigned name _ => some (.assignment name)
  | .missed _ => none

def missed? : Act → Option String
  | .missed name => some name
  | _ => none

end Act

section ActsAt

variable {node : Expr} {values : List Value} {frame after : Frame σ}

/-- A node that succeeds has done what it does. -/
theorem deeds_actsAt {value : Value}
    (h : (work env node values).run frame = (.ok value, after)) :
    (actsAt env node values frame).filterMap Act.deed? = node.deed?.toList := by
  cases node with
  | number | operation | block | unknown => rfl
  | «variable» name =>
    simp only [actsAt, Acts.ofVariable]
    split <;> rfl
  | assignment target value =>
    simp only [actsAt, deed?]
    cases target.name? <;> rfl
  | call name arguments =>
    simp only [actsAt, deed?]
    rw [work] at h
    cases hfound : env.functions name with
    | none =>
      rw [hfound] at h
      cases h
    | some callee =>
      cases callee with
      | function run => rfl
      | inert =>
        -- what cannot be called does not succeed
        rw [hfound] at h
        cases h

/-- Also a node that fails does no more than that. -/
theorem deeds_actsAt_prefix :
    (actsAt env node values frame).filterMap Act.deed? <+: node.deed?.toList := by
  cases node with
  | number | operation | block | unknown => exact List.nil_prefix
  | «variable» name =>
    simp only [actsAt, Acts.ofVariable]
    split <;> exact List.nil_prefix
  | assignment target value =>
    simp only [actsAt, deed?]
    cases target.name? <;> exact List.prefix_refl _
  | call name arguments =>
    simp only [actsAt, deed?]
    cases env.functions name with
    | none => exact List.nil_prefix
    | some callee =>
      cases callee with
      | function run => exact List.prefix_refl _
      | inert => exact List.nil_prefix

/-- Only a variable is asked for, and only under its own name. -/
theorem missed_actsAt_sublist :
    ((actsAt env node values frame).filterMap Act.missed?).Sublist node.name?.toList := by
  cases node with
  | number | operation | block | unknown => exact List.nil_sublist _
  | «variable» name =>
    simp only [actsAt, Acts.ofVariable]
    split
    next => exact List.Sublist.refl _
    next => exact List.nil_sublist _
  | assignment target value =>
    simp only [actsAt]
    cases target.name? <;> exact List.nil_sublist _
  | call name arguments =>
    simp only [actsAt]
    cases env.functions name with
    | none => exact List.nil_sublist _
    | some callee => cases callee <;> exact List.nil_sublist _

end ActsAt

namespace Course

variable {nodes : List Expr} {stack values : List Value} {frame after : Frame σ}
  {trace : List Act} {result : Except Fault (List Value)}

theorem filterMap_cons_eq {f : Expr → Option α} (node : Expr) (rest : List Expr) :
    (node :: rest).filterMap f = (f node).toList ++ rest.filterMap f := by
  rw [List.filterMap_cons]
  cases f node <;> rfl

/-- A course that gets to the end has done what its nodes do, each once and in their order. -/
theorem deeds_eq (h : Course env short nodes stack frame trace (.ok values) after) :
    trace.filterMap Act.deed? = nodes.filterMap Expr.deed? := by
  generalize hvalues : (Except.ok values : Except Fault (List Value)) = outcome at h
  induction h with
  | done => rfl
  | next hwork _ ih =>
    rw [List.filterMap_append, deeds_actsAt hwork, ih hvalues, filterMap_cons_eq]
  | fails | exhausted => cases hvalues

/-- A course that ends early has done so for the first of its nodes. -/
theorem deeds_prefix (h : Course env short nodes stack frame trace result after) :
    trace.filterMap Act.deed? <+: nodes.filterMap Expr.deed? := by
  induction h with
  | done => exact List.prefix_refl _
  | next hwork _ ih =>
    rw [List.filterMap_append, deeds_actsAt hwork, filterMap_cons_eq]
    exact (List.prefix_append_right_inj _).mpr ih
  | fails =>
    rw [filterMap_cons_eq]
    exact deeds_actsAt_prefix.trans (List.prefix_append _ _)
  | exhausted => exact List.nil_prefix

/-- No variable is asked for more often than it occurs, or in another order. -/
theorem missed_sublist (h : Course env short nodes stack frame trace result after) :
    (trace.filterMap Act.missed?).Sublist (nodes.filterMap Expr.name?) := by
  induction h with
  | done => exact List.Sublist.refl _
  | next _ _ ih =>
    rw [List.filterMap_append, filterMap_cons_eq]
    exact missed_actsAt_sublist.append ih
  | fails =>
    rw [filterMap_cons_eq]
    exact missed_actsAt_sublist.trans (List.sublist_append_left _ _)
  | exhausted => exact List.nil_sublist _

end Course

end Formula
