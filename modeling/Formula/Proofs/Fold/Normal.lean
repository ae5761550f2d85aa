import Formula.Proofs.Fold.Exact
import Formula.Proofs.Fold.Shape

namespace Formula

open Formula.Expr

variable {σ : Type} {table : PureTable} {folding : Folding σ}

namespace Expr

theorem mem_outerNodesOf {node : Expr} {es : List Expr} :
    node ∈ outerNodesOf es ↔ ∃ e ∈ es, node ∈ e.outerNodes := by
  induction es with
  | nil => simp [outerNodesOf]
  | cons first rest ih => simp [outerNodesOf, ih]

/-- Whether a node has a value that does not depend on variables once its parts are numbers. -/
def IsFoldable (table : PureTable) : Expr → Prop
  | .operation .. | .block _ => True
  | .call name _ => (table name).isSome
  | _ => False

/-- Whether evaluating a tree with the functions of a table has a fault of evaluation, whatever the
variables and the handler are. -/
def IsRefused (table : PureTable) (e : Expr) : Prop :=
  ∃ fault : Fault, fault.isEvaluation ∧ ∀ {τ : Type} (env : Environment τ),
    env.functions = table.callee? → ∀ frame,
      (evaluate env .unlimited e).run frame = (.error fault, frame)

/-- Whether there is nothing to fold at a node. -/
structure IsNormal (table : PureTable) (node : Expr) : Prop where
  known : node ≠ .unknown
  evaluated : node.IsFoldable table →
    (∃ child ∈ node.children, child.isNumber = false) ∨ node.IsRefused table
  joined : ∀ operator operands, node = .operation operator operands → operator.isCommutative →
    (∃ child ∈ operands, child.isNumber = false) → (operands.filter isNumber).length ≤ 1

/-- Whether there is nothing to fold in a tree. Folding leaves assignments alone. -/
def AllNormal (table : PureTable) (e : Expr) : Prop :=
  ∀ node ∈ e.outerNodes, node.IsNormal table

theorem isNormal_of_not_isFoldable {node : Expr} (known : node ≠ .unknown)
    (hnot : ¬ node.IsFoldable table) : node.IsNormal table where
  known := known
  evaluated foldable := absurd foldable hnot
  joined operator operands heq := by
    subst heq
    exact absurd trivial hnot

/-- Numbers and variables have no parts, and folding does not look into assignments. -/
theorem allNormal_of_not_isFoldable {node : Expr} (houter : node.outerNodes = [node])
    (known : node ≠ .unknown) (hnot : ¬ node.IsFoldable table) : node.AllNormal table := by
  intro inner member
  rw [houter] at member
  rw [List.mem_singleton.mp member]
  exact isNormal_of_not_isFoldable known hnot

theorem allNormal_number (value : Value) : (Expr.number value).AllNormal table :=
  allNormal_of_not_isFoldable rfl nofun id

theorem exists_result {node : Expr} (foldable : node.IsFoldable table)
    (hall : node.children.all isNumber = true) :
    ∃ result : Except Fault Value, ∀ {τ : Type} (env : Environment τ),
      env.functions = table.callee? → eval env .unlimited node = Effect.ofExcept result := by
  cases node with
  | operation operator operands =>
    have hall : operands.all isNumber = true := hall
    obtain ⟨values, rfl⟩ := exists_numbers hall
    exact ⟨_, fun env _ => eval_operation_numbers operator⟩
  | block statements =>
    have hall : statements.all isNumber = true := hall
    obtain ⟨values, rfl⟩ := exists_numbers hall
    exact ⟨_, fun env _ => eval_block_numbers⟩
  | call name arguments =>
    have hall : arguments.all isNumber = true := hall
    obtain ⟨values, rfl⟩ := exists_numbers hall
    obtain ⟨function, hfunction⟩ := Option.isSome_iff_exists.mp foldable
    refine ⟨callOutcome name function values, fun env hfunctions => ?_⟩
    have found : env.functions name = some (.pureFunction function) := by
      rw [hfunctions]
      exact PureTable.callee?_eq_some hfunction
    exact eval_call_numbers found
  | number _ | «variable» _ | assignment _ _ | unknown => exact foldable.elim

end Expr

namespace Folding

variable {note : Note → σ → σ} {node folded : Expr} {host after : σ}

/-- What is evaluated ahead of time becomes a number or is refused everywhere. -/
theorem number_or_isRefused (foldable : node.IsFoldable table)
    (hall : node.children.all isNumber = true)
    (returns : ((table.folding note).evaluateConstant node).run host = (.ok folded, after)) :
    (∃ value, folded = .number value) ∨ folded = node ∧ node.IsRefused table := by
  obtain ⟨result, hresult⟩ := exists_result foldable hall
  have hnode := hresult (table.folding note).environment rfl
  rcases evaluateConstant_cases hnode returns with ⟨value, -, heq⟩ | ⟨fault, hfault, he, heq⟩
  · exact .inl ⟨value, heq⟩
  · refine .inr ⟨heq, Effect.outermost fault, he, fun env hfunctions frame => ?_⟩
    rw [evaluate, hresult env hfunctions, Effect.run_boundDepth, Effect.run_ofExcept, hfault]
    rfl

theorem evaluateConstant_returns_self (refused : node.IsRefused table) :
    ((table.folding note).evaluateConstant node).Returns node := by
  intro host
  obtain ⟨fault, hevaluation, hrun⟩ := refused
  have hrun := hrun (table.folding note).environment rfl ⟨∅, host⟩
  simp [evaluateConstant, hrun, hevaluation]

theorem foldNode_returns_self (foldable : node.IsFoldable table) (normal : node.IsNormal table) :
    ((table.folding note).foldNode node).Returns node := by
  unfold foldNode
  split
  next hall =>
    rcases normal.evaluated foldable with ⟨child, member, hchild⟩ | refused
    · have := List.all_eq_true.mp hall child member
      rw [hchild] at this
      cases this
    · exact evaluateConstant_returns_self refused
  next hsome =>
    split
    next operator operands =>
      split
      next hcomm =>
        have hother : ∃ child ∈ operands, child.isNumber = false := by
          simpa [children] using hsome
        have hfew := normal.joined operator operands rfl hcomm hother
        unfold join
        dsimp only
        rw [if_pos hfew]
        exact .pure _
      next => exact .pure _
    next => exact .pure _

theorem foldAll_returns_self {es : List Expr}
    (each : ∀ e ∈ es, (fold folding .unlimited e).Returns e) :
    (foldAll folding .unlimited es).Returns es := by
  induction es with
  | nil => exact .pure _
  | cons first rest ih =>
    obtain ⟨hfirst, hrest⟩ := List.forall_mem_cons.mp each
    rw [foldAll]
    exact hfirst.bind ((ih hrest).bind (.pure _))

end Folding

theorem Expr.AllNormal.parts {node : Expr} {parts : List Expr} (h : node.AllNormal table)
    (hparts : node.outerNodes = node :: outerNodesOf parts) :
    node.IsNormal table ∧ ∀ e ∈ parts, e.AllNormal table := by
  have hroot : node ∈ node.outerNodes := by
    rw [hparts]
    exact List.mem_cons_self
  refine ⟨h node hroot, fun e member inner hinner => h inner ?_⟩
  rw [hparts]
  exact List.mem_cons_of_mem _ (mem_outerNodesOf.mpr ⟨e, member, hinner⟩)

theorem Expr.allNormal_of_parts {node : Expr} {parts : List Expr}
    (hparts : node.outerNodes = node :: outerNodesOf parts) (hnode : node.IsNormal table)
    (heach : ∀ e ∈ parts, e.AllNormal table) : node.AllNormal table := by
  intro inner hinner
  rw [hparts] at hinner
  rcases List.mem_cons.mp hinner with rfl | hinner
  · exact hnode
  · obtain ⟨e, member, hmem⟩ := mem_outerNodesOf.mp hinner
    exact heach e member inner hmem

theorem fold_returns_self (note : Note → σ → σ) {e : Expr} (normal : e.AllNormal table) :
    (fold (table.folding note) .unlimited e).Returns e := by
  induction e using Expr.inductionOn with
  | number value | reference name | assignment target value _ _ => exact .pure _
  | operation operator operands ih =>
    obtain ⟨hnode, hoperands⟩ := normal.parts rfl
    have hparts := Folding.foldAll_returns_self fun e member => ih e member (hoperands e member)
    rw [fold_operation]
    exact hparts.bind (Folding.foldNode_returns_self trivial hnode)
  | call name arguments ih =>
    obtain ⟨hnode, harguments⟩ := normal.parts rfl
    have hparts := Folding.foldAll_returns_self fun e member => ih e member (harguments e member)
    rw [fold_call]
    refine hparts.bind ?_
    split
    next => exact .pure _
    next hsome =>
      have foldable : (Expr.call name arguments).IsFoldable table := by
        simpa [PureTable.folding, PureTable.callee?, IsFoldable, Option.isSome_iff_ne_none] using
          hsome
      exact Folding.foldNode_returns_self foldable hnode
  | block statements ih =>
    obtain ⟨hnode, hstatements⟩ := normal.parts rfl
    have hparts := Folding.foldAll_returns_self fun e member => ih e member (hstatements e member)
    rw [fold_block]
    exact hparts.bind (Folding.foldNode_returns_self trivial hnode)
  | unknown =>
    have hnode := normal .unknown List.mem_cons_self
    exact absurd rfl hnode.known

namespace Folding

variable {note : Note → σ → σ} {folded : Expr} {host after : σ}

/-- A folded call or block is normal where its parts are. Neither has constants to be joined. -/
theorem allNormal_of_foldNode {node : Expr} {parts : List Expr}
    (hparts : node.outerNodes = node :: outerNodesOf parts) (hchildren : node.children = parts)
    (foldable : node.IsFoldable table) (hkind : node.kind = .call ∨ node.kind = .block)
    (heach : ∀ e ∈ parts, e.AllNormal table)
    (returns : ((table.folding note).foldNode node).run host = (.ok folded, after)) :
    folded.AllNormal table := by
  have hoperation : ∀ operator operands, node ≠ .operation operator operands := by
    rintro operator operands rfl
    rcases hkind with h | h <;> cases h
  have hknown : node ≠ .unknown := by
    rintro rfl
    rcases hkind with h | h <;> cases h
  have stays (hevaluated : (∃ child ∈ node.children, child.isNumber = false) ∨
      node.IsRefused table) : node.AllNormal table :=
    allNormal_of_parts hparts ⟨hknown, fun _ => hevaluated, fun operator operands heq =>
      absurd heq (hoperation operator operands)⟩ heach
  rcases foldNode_cases returns with ⟨hall, hconstant⟩ | ⟨hsome, rfl, -⟩ |
    ⟨operator, operands, _, _, heq, _⟩
  · rcases number_or_isRefused foldable hall hconstant with ⟨value, rfl⟩ | ⟨rfl, refused⟩
    · exact allNormal_number value
    · exact stays (.inr refused)
  · obtain ⟨child, member, hchild⟩ := List.all_eq_false.mp hsome
    exact stays (.inl ⟨child, member, by simpa using hchild⟩)
  · exact absurd heq (hoperation operator operands)

theorem isNormal_joined {operator : Operator} {operands : List Expr} {constant : Expr}
    (hsome : operands.all isNumber = false) :
    (Expr.operation operator (operands.filter (!·.isNumber) ++ [constant])).IsNormal table := by
  obtain ⟨child, member, hchild⟩ := List.all_eq_false.mp hsome
  have hother : child ∈ operands.filter (!·.isNumber) ++ [constant] :=
    List.mem_append_left _ (List.mem_filter.mpr ⟨member, by simpa using hchild⟩)
  refine ⟨nofun, fun _ => .inl ⟨child, hother, by simpa using hchild⟩, ?_⟩
  rintro operator' operands' heq - -
  cases heq
  have hnone : (operands.filter (!·.isNumber)).filter isNumber = [] := by
    rw [List.filter_filter, List.filter_eq_nil_iff]
    intro e _
    simp
  rw [List.filter_append, hnone, List.nil_append]
  exact List.length_filter_le _ _

theorem allNormal_of_foldNode_operation {operator : Operator} {operands : List Expr}
    (heach : ∀ e ∈ operands, e.AllNormal table)
    (returns : ((table.folding note).foldNode (.operation operator operands)).run host =
      (.ok folded, after)) : folded.AllNormal table := by
  rcases foldNode_cases returns with ⟨hall, hconstant⟩ | ⟨hsome, rfl, hfew⟩ |
    ⟨_, _, constant, between, heq, hsome, hcomm, hmany, hconstant, rfl⟩
  · have foldable : (Expr.operation operator operands).IsFoldable table := trivial
    rcases number_or_isRefused foldable hall hconstant with ⟨value, rfl⟩ | ⟨rfl, refused⟩
    · exact allNormal_number value
    · refine allNormal_of_parts rfl ⟨nofun, fun _ => .inr refused, ?_⟩ heach
      rintro operator' operands' heq - ⟨child, member, hchild⟩
      cases heq
      have := List.all_eq_true.mp hall child member
      rw [hchild] at this
      cases this
  · obtain ⟨child, member, hchild⟩ := List.all_eq_false.mp hsome
    refine allNormal_of_parts rfl ⟨nofun, fun _ => .inl ⟨child, member, by simpa using hchild⟩,
      ?_⟩ heach
    rintro operator' operands' heq hcomm -
    exact Expr.operation.inj heq |>.2 ▸ hfew operator' operands' heq hcomm
  · cases heq
    have hnumbers : (operands.filter isNumber).all isNumber = true := by simp
    have hnumber := Mirrors.isNumber_of_joined hnumbers hcomm hconstant
    rw [if_pos hnumber]
    refine allNormal_of_parts rfl (isNormal_joined hsome) fun e member => ?_
    rcases List.mem_append.mp member with member | member
    · exact heach e (List.mem_of_mem_filter member)
    · rw [List.mem_singleton.mp member]
      cases constant with
      | number value => exact allNormal_number value
      | _ => cases hnumber

/-- Whatever folding yields has nothing left to fold. -/
theorem Yields.allNormal {e : Expr} (yields : (table.folding note).Yields e folded) :
    folded.AllNormal table := by
  induction e using Expr.inductionOn generalizing folded with
  | number value =>
    rw [yields.eq_of_number]
    exact allNormal_number value
  | reference name =>
    rw [yields.eq_of_variable]
    exact allNormal_of_not_isFoldable rfl (by simp) id
  | operation operator operands ih =>
    obtain ⟨parts, host, after, hparts, hnode⟩ := yields.operation
    have heach : ∀ part ∈ parts, part.AllNormal table :=
      forall_parts hparts (fun _ _ => trivial) fun e member _ _ hpart => ih e member hpart
    exact allNormal_of_foldNode_operation heach hnode
  | assignment target value _ _ =>
    rw [yields.eq_of_assignment]
    exact allNormal_of_not_isFoldable rfl (by simp) id
  | call name arguments ih =>
    obtain ⟨parts, host, after, hparts, hcases⟩ := yields.call
    have heach : ∀ part ∈ parts, part.AllNormal table :=
      forall_parts hparts (fun _ _ => trivial) fun e member _ _ hpart => ih e member hpart
    have hname : ((table.folding note).functions name).isSome = (table name).isSome := by
      simp [PureTable.folding, PureTable.callee?]
    rcases hcases with ⟨hnone, rfl⟩ | ⟨hsome, hnode⟩
    · -- the function is not in the table, so the call is left to the evaluation
      have hentry : (table name).isSome = false := by rw [← hname, hnone, Option.isSome_none]
      have hnot : ¬ (Expr.call name parts).IsFoldable table := by
        rw [IsFoldable, hentry]
        exact Bool.false_ne_true
      exact allNormal_of_parts rfl (isNormal_of_not_isFoldable (by simp) hnot) heach
    · have foldable : (Expr.call name parts).IsFoldable table := hname.symm.trans hsome
      exact allNormal_of_foldNode rfl rfl foldable (.inl rfl) heach hnode
  | block statements ih =>
    obtain ⟨parts, host, after, hparts, hnode⟩ := yields.block
    have heach : ∀ part ∈ parts, part.AllNormal table :=
      forall_parts hparts (fun _ _ => trivial) fun e member _ _ hpart => ih e member hpart
    have foldable : (Expr.block parts).IsFoldable table := trivial
    exact allNormal_of_foldNode rfl rfl foldable (.inr rfl) heach hnode
  | unknown => exact absurd yields Yields.not_unknown

end Folding

/-- What a tree is optimized to is in normal form: outside of assignments every operation, block and
call of a function of the table has a part that is no number or is refused, and sums and products
with such a part have one number at most. Optimizing it once more, from any state, gives it back. -/
theorem optimize_normal {note : Note → σ → σ} {room : Room} {e folded : Expr} {host after : σ}
    (optimized : (optimize (table.folding note) room e).run host = (.ok folded, after)) :
    (∀ node ∈ folded.outerNodes, node.IsNormal table) ∧
      (optimize (table.folding note) .unlimited folded).Returns folded := by
  have normal : folded.AllNormal table := (yields_of_optimize optimized).allNormal
  exact ⟨normal, optimize_returns (fold_returns_self note normal)⟩

/-- A table whose only function halves even integers and complains about all others. -/
def halvingTable : PureTable := fun name =>
  if name = "half" then
    some fun arguments => match arguments with
      | [.int n] => if n % 2 = 0 then .ok (.int (n / 2)) else .error (.reported "odd")
      | _ => .error .notCallable
  else none

/-- A tree that no text has: constants among operands that are refused, unknown or assigned. -/
def tangledTree : Expr :=
  .operation .add [.number (.int 1), .call "half" [.number (.int 3)],
    .call "half" [.operation .multiply [.number (.int 2), .number (.int 5)]],
    .operation (.other "~") [.number (.int 0)], .number (.bool true),
    .block [.assignment (.variable "x") (.operation .add [.number (.int 1), .number (.int 1)]),
      .call "unknown" [.block []]]]

theorem optimize_normal_tangled :
    ∃ folded after,
      (optimize (halvingTable.folding fun _ (host : Unit) => host) .standard tangledTree).run () =
        (.ok folded, after) ∧
      (∀ node ∈ folded.outerNodes, node.IsNormal halvingTable) ∧
      (optimize (halvingTable.folding fun _ (host : Unit) => host) .unlimited folded).Returns
        folded := by
  obtain ⟨folded, hfolded, -⟩ := @exists_ok_of_any _ _
    ((optimize (halvingTable.folding fun _ (host : Unit) => host) .standard tangledTree).run ()).1
    (fun _ => true) (by decide +kernel)
  have optimized :
      (optimize (halvingTable.folding fun _ (host : Unit) => host) .standard tangledTree).run () =
        (.ok folded, ()) := Prod.ext hfolded rfl
  exact ⟨folded, (), optimized, optimize_normal optimized⟩

end Formula
