import Formula.Proofs.Expr.Nesting
import Formula.Proofs.Fold.Height
import Formula.Proofs.Fold.Total
import Formula.Proofs.Parser.Shape

namespace Formula

open Formula.Expr

variable {σ : Type} {table : PureTable} {folding : Folding σ} {room : Room} {e node folded : Expr}
  {es parts : List Expr} {host after : σ}

namespace Expr

theorem floats_of_isPlain {values : List Value}
    (h : ∀ e ∈ values.map Expr.number, e.Everywhere IsPlain) : ∀ value ∈ values, value.IsFloat :=
  fun value member => everywhere_number.mp (h (.number value) (List.mem_map_of_mem member))

/-- Whether a condition holds of all nodes that folding can build. -/
def AcceptsFolded (P : Expr → Prop) : Prop :=
  ∀ node : Expr, node.kind ∈ [.number, .operation, .call, .block] → P node

theorem AcceptsFolded.everywhere_of_isNumber {P : Expr → Prop} (accepts : AcceptsFolded P)
    (h : e.isNumber = true) : e.Everywhere P := by
  cases e with
  | number value => exact everywhere_number.mpr (accepts _ (by simp [kind]))
  | _ => cases h

theorem acceptsFolded_printable : AcceptsFolded Printable := by
  intro node member
  cases node <;> simp [kind, Printable] at member ⊢

theorem IsProgram.printable (h : e.IsProgram) : e.Everywhere Printable :=
  h.inShape.mono printable_of_inShape

end Expr

namespace Folding

theorem isPlain_of_evaluateConstant {result : Except Fault Value}
    (hnode : eval folding.environment .unlimited node = Effect.ofExcept result)
    (hfloat : ∀ value, result = .ok value → value.IsFloat) (plain : node.Everywhere IsPlain)
    (returns : (folding.evaluateConstant node).run host = (.ok folded, after)) :
    folded.Everywhere IsPlain := by
  rcases evaluateConstant_cases hnode returns with ⟨value, hvalue, rfl⟩ | ⟨fault, -, -, rfl⟩
  · exact everywhere_number.mpr (hfloat value hvalue)
  · exact plain

theorem isPlain_of_evaluateConstant_operation {operator : Operator} {operands : List Expr}
    (plain : (Expr.operation operator operands).Everywhere IsPlain)
    (hall : operands.all Expr.isNumber = true)
    (returns : (folding.evaluateConstant (.operation operator operands)).run host =
      (.ok folded, after)) : folded.Everywhere IsPlain := by
  obtain ⟨values, rfl⟩ := exists_numbers hall
  obtain ⟨⟨takes, -⟩, hoperands⟩ := everywhere_operation.mp plain
  have hmeets := operator.isClosed_floats values (by simpa using takes)
    (floats_of_isPlain hoperands)
  refine isPlain_of_evaluateConstant (eval_operation_numbers operator) (fun value hvalue => ?_)
    plain returns
  rw [hvalue] at hmeets
  exact hmeets

/-- A sum or product that has its constants joined keeps another operand beside them. -/
theorem isPlain_of_foldNode_operation {operator : Operator} {operands : List Expr}
    (plain : (Expr.operation operator operands).Everywhere IsPlain)
    (returns : (folding.foldNode (.operation operator operands)).run host = (.ok folded, after)) :
    folded.Everywhere IsPlain := by
  rcases foldNode_cases returns with ⟨hall, hconstant⟩ | ⟨-, rfl, -⟩ |
    ⟨_, _, constant, between, heq, hsome, hcomm, hmany, hconstant, rfl⟩
  · exact isPlain_of_evaluateConstant_operation plain hall hconstant
  · exact plain
  · cases heq
    split
    next hnumber =>
      obtain ⟨⟨takes, -⟩, hoperands⟩ := everywhere_operation.mp plain
      have hconstants : (Expr.operation operator (operands.filter Expr.isNumber)).Everywhere
          IsPlain := by
        exact Parser.isPlain_chain hcomm hmany
          fun e member => hoperands e (List.mem_of_mem_filter member)
      have hjoined := isPlain_of_evaluateConstant_operation hconstants (by simp) hconstant
      have hother : 1 ≤ (operands.filter (!·.isNumber)).length := by
        obtain ⟨e, member, hkind⟩ := List.all_eq_false.mp hsome
        exact List.length_pos_of_mem (List.mem_filter.mpr ⟨member, by simpa using hkind⟩)
      refine Parser.isPlain_chain hcomm (by simp; omega) fun e member => ?_
      rcases List.mem_append.mp member with member | member
      · exact hoperands e (List.mem_of_mem_filter member)
      · rw [List.mem_singleton.mp member]
        exact hjoined
    next => exact plain

theorem isPlain_of_foldNode_call {name : String} {arguments : List Expr}
    (hfunctions : folding.functions = table.callee?) (closed : table.IsClosed Value.IsFloat)
    (plain : (Expr.call name arguments).Everywhere IsPlain)
    (returns : (folding.foldNode (.call name arguments)).run host = (.ok folded, after)) :
    folded.Everywhere IsPlain := by
  rcases foldNode_cases returns with ⟨hall, hconstant⟩ | ⟨-, rfl, -⟩ | ⟨_, _, _, _, heq, _⟩
  · have hall : arguments.all Expr.isNumber = true := hall
    obtain ⟨values, rfl⟩ := exists_numbers hall
    have hvalues := floats_of_isPlain (everywhere_call.mp plain).2
    have hname : folding.environment.functions name = table.callee? name := by
      rw [environment, hfunctions]
    cases hentry : table name with
    | none =>
      rw [PureTable.callee?, hentry] at hname
      have hnode : eval folding.environment .unlimited (.call name (values.map .number)) =
          Effect.ofExcept (.error (.unknownFunction name)) := eval_call_unknown hname _
      exact isPlain_of_evaluateConstant hnode (fun value h => by cases h) plain hconstant
    | some function =>
      rw [PureTable.callee?_eq_some hentry] at hname
      have hmeets : Meets Value.IsFloat (·.isEvaluation) (callOutcome name function values) :=
        callOutcome_meets fun value => closed name function hentry values hvalues value
      refine isPlain_of_evaluateConstant (eval_call_numbers hname) (fun value hvalue => ?_) plain
        hconstant
      rw [hvalue] at hmeets
      exact hmeets
  · exact plain
  · cases heq

theorem forall_parts {P Q : Expr → Prop} (yields : List.Forall₂ folding.Yields es parts)
    (hes : ∀ e ∈ es, P e)
    (each : ∀ e ∈ es, ∀ part, P e → folding.Yields e part → Q part) : ∀ part ∈ parts, Q part := by
  induction yields with
  | nil => simp
  | cons first _ ih =>
    obtain ⟨hfirst, hrest⟩ := List.forall_mem_cons.mp hes
    obtain ⟨hpart, hparts⟩ := List.forall_mem_cons.mp each
    exact List.forall_mem_cons.mpr ⟨hpart _ hfirst first, ih hrest hparts⟩

section Everywhere

variable {P : Expr → Prop}

theorem everywhere_of_foldNode (accepts : AcceptsFolded P) (everywhere : node.Everywhere P)
    (returns : (folding.foldNode node).run host = (.ok folded, after)) : folded.Everywhere P := by
  rcases foldNode_cases returns with ⟨-, hconstant⟩ | ⟨-, rfl, -⟩ |
    ⟨operator, operands, constant, between, rfl, -, -, -, -, rfl⟩
  · rcases eq_or_isNumber_of_evaluateConstant hconstant with rfl | hnumber
    · exact everywhere
    · exact accepts.everywhere_of_isNumber hnumber
  · exact everywhere
  · split
    next hnumber =>
      have hoperands := (everywhere_operation.mp everywhere).2
      refine everywhere_operation.mpr ⟨accepts _ (by simp [kind]), fun e member => ?_⟩
      rcases List.mem_append.mp member with member | member
      · exact hoperands e (List.mem_of_mem_filter member)
      · rw [List.mem_singleton.mp member]
        exact accepts.everywhere_of_isNumber hnumber
    next => exact everywhere

/-- What holds everywhere in a tree holds everywhere in what folding makes of it, if it may hold of
the nodes that folding builds. Variables and assignments it only keeps. -/
theorem Yields.everywhere (accepts : AcceptsFolded P) (everywhere : e.Everywhere P)
    (yields : folding.Yields e folded) : folded.Everywhere P := by
  induction e using Expr.inductionOn generalizing folded with
  | number value => exact yields.eq_of_number ▸ everywhere
  | reference name => exact yields.eq_of_variable ▸ everywhere
  | operation operator operands ih =>
    obtain ⟨-, hoperands⟩ := everywhere_operation.mp everywhere
    obtain ⟨parts, host, after, hparts, hnode⟩ := yields.operation
    have hoperation : (Expr.operation operator parts).Everywhere P :=
      everywhere_operation.mpr ⟨accepts _ (by simp [kind]),
        forall_parts hparts hoperands fun e member _ h => ih e member h⟩
    exact everywhere_of_foldNode accepts hoperation hnode
  | assignment target value _ _ => exact yields.eq_of_assignment ▸ everywhere
  | call name arguments ih =>
    obtain ⟨-, harguments⟩ := everywhere_call.mp everywhere
    obtain ⟨parts, host, after, hparts, hcases⟩ := yields.call
    have hcall : (Expr.call name parts).Everywhere P :=
      everywhere_call.mpr ⟨accepts _ (by simp [kind]),
        forall_parts hparts harguments fun e member _ h => ih e member h⟩
    rcases hcases with ⟨-, rfl⟩ | ⟨-, hnode⟩
    · exact hcall
    · exact everywhere_of_foldNode accepts hcall hnode
  | block statements ih =>
    obtain ⟨-, hstatements⟩ := everywhere_block.mp everywhere
    obtain ⟨parts, host, after, hparts, hnode⟩ := yields.block
    have hblock : (Expr.block parts).Everywhere P :=
      everywhere_block.mpr ⟨accepts _ (by simp [kind]),
        forall_parts hparts hstatements fun e member _ h => ih e member h⟩
    exact everywhere_of_foldNode accepts hblock hnode
  | unknown => exact absurd yields not_unknown

end Everywhere

namespace Yields

/-- What folding yields can be written where the tree can. -/
theorem printable (printable : e.Everywhere Printable)
    (yields : folding.Yields e folded) : folded.Everywhere Printable :=
  yields.everywhere acceptsFolded_printable printable

theorem isPlain (hfunctions : folding.functions = table.callee?)
    (closed : table.IsClosed Value.IsFloat) (plain : e.Everywhere IsPlain)
    (yields : folding.Yields e folded) : folded.Everywhere IsPlain := by
  induction e using Expr.inductionOn generalizing folded with
  | number value => exact yields.eq_of_number ▸ plain
  | reference name => exact yields.eq_of_variable ▸ plain
  | operation operator operands ih =>
    obtain ⟨⟨takes, hmany⟩, hoperands⟩ := everywhere_operation.mp plain
    obtain ⟨parts, host, after, hparts, hnode⟩ := yields.operation
    have hlength := hparts.length_eq
    refine isPlain_of_foldNode_operation (everywhere_operation.mpr ⟨⟨?_, fun commutes => ?_⟩,
      forall_parts hparts hoperands fun e member _ hplain => ih e member hplain⟩) hnode
    · exact hlength ▸ takes
    · exact hlength ▸ hmany commutes
  | assignment target value _ _ => exact (everywhere_assignment.mp plain).1.elim
  | call name arguments ih =>
    obtain ⟨-, harguments⟩ := everywhere_call.mp plain
    obtain ⟨parts, host, after, hparts, hcases⟩ := yields.call
    have hcall : (Expr.call name parts).Everywhere IsPlain := everywhere_call.mpr
      ⟨trivial, forall_parts hparts harguments fun e member _ hplain => ih e member hplain⟩
    rcases hcases with ⟨-, rfl⟩ | ⟨-, hnode⟩
    · exact hcall
    · exact isPlain_of_foldNode_call hfunctions closed hcall hnode
  | block statements _ => exact (everywhere_block.mp plain).1.elim
  | unknown => exact absurd yields not_unknown

theorem isStatement (hfunctions : folding.functions = table.callee?)
    (closed : table.IsClosed Value.IsFloat) (statement : e.IsStatement)
    (yields : folding.Yields e folded) : folded.IsStatement := by
  rcases statement with plain | ⟨name, value, rfl, hvalue⟩
  · exact .inl (yields.isPlain hfunctions closed plain)
  · exact .inr ⟨name, value, yields.eq_of_assignment, hvalue⟩

theorem isProgram (hfunctions : folding.functions = table.callee?)
    (closed : table.IsClosed Value.IsFloat) (program : e.IsProgram)
    (yields : folding.Yields e folded) : folded.IsProgram := by
  rcases program with statement | ⟨statements, rfl, hmany, hstatements⟩
  · exact .inl (yields.isStatement hfunctions closed statement)
  obtain ⟨parts, host, after, hparts, hnode⟩ := yields.block
  have hpartsStatements : ∀ part ∈ parts, part.IsStatement :=
    forall_parts hparts hstatements fun e _ _ statement => isStatement hfunctions closed statement
  have hlength := hparts.length_eq
  rcases foldNode_cases hnode with ⟨hall, hconstant⟩ | ⟨-, rfl, -⟩ | ⟨_, _, _, _, heq, _⟩
  · have hall : parts.all Expr.isNumber = true := hall
    obtain ⟨values, rfl⟩ := exists_numbers hall
    have hfloats : ∀ value ∈ values, value.IsFloat := by
      intro value member
      rcases hpartsStatements _ (List.mem_map_of_mem member) with plain | ⟨_, _, heq, _⟩
      · exact everywhere_number.mp plain
      · cases heq
    have hvalues : values ≠ [] := by
      rintro rfl
      rw [List.map_nil, List.length_nil] at hlength
      omega
    have hlast : (values.getLastD .none).IsFloat := by
      rw [List.getLastD_eq_getLast?, List.getLast?_eq_some_getLast hvalues]
      exact hfloats _ (List.getLast_mem hvalues)
    rcases evaluateConstant_cases eval_block_numbers hconstant with ⟨value, hvalue, rfl⟩ |
      ⟨fault, hfault, -⟩
    · cases hvalue
      exact .inl (.inl (everywhere_number.mpr hlast))
    · cases hfault
  · exact .inr ⟨parts, rfl, hlength ▸ hmany, hpartsStatements⟩
  · cases heq

end Yields

end Folding

/-- Whether everything that one computation yields is yielded by another one too. -/
def Effect.Refines {α : Type} (x y : Effect σ α) : Prop :=
  ∀ state result after, x.run state = (.ok result, after) → y.run state = (.ok result, after)

/-- Whether a computation does what another one does, or gives up for want of room. -/
def Effect.Curbs {α : Type} (x y : Effect σ α) : Prop :=
  ∀ state, x.run state = y.run state ∨ (x.run state).1 = .error .stackExhausted

namespace Effect

variable {α β : Type} {x y : Effect σ α} {next other : α → Effect σ β}

theorem Curbs.refl (x : Effect σ α) : x.Curbs x :=
  fun _ => .inl rfl

theorem Curbs.bind (h : x.Curbs y) (hnext : ∀ value, (next value).Curbs (other value)) :
    (x >>= next).Curbs (y >>= other) := by
  intro state
  rw [run_bind, run_bind]
  rcases h state with hsame | hgives
  · rw [hsame]
    rcases y.run state with ⟨fault | value, between⟩
    · exact .inl rfl
    · exact hnext value between
  · rcases hrun : x.run state with ⟨result, between⟩
    rw [hrun] at hgives
    cases hgives
    exact .inr rfl

/-- Going one level down at most gives up. -/
theorem Curbs.descend {cost : Nat} {next : Room → Effect σ β} {z : Effect σ β}
    (h : ∀ inner, (next inner).Curbs z) : (Effect.descend room cost >>= next).Curbs z := by
  intro state
  unfold Effect.descend
  split
  next => exact h _ state
  next => exact .inr rfl

theorem Curbs.refines (h : x.Curbs y) : x.Refines y := by
  intro state result after hrun
  rcases h state with hsame | hgives
  · exact hsame.symm.trans hrun
  · rw [hrun] at hgives
    cases hgives

end Effect

theorem foldAll_curbs
    (each : ∀ e ∈ es, (fold folding room e).Curbs (fold folding .unlimited e)) :
    (foldAll folding room es).Curbs (foldAll folding .unlimited es) := by
  induction es with
  | nil => exact .refl _
  | cons first rest ih =>
    obtain ⟨hfirst, hrest⟩ := List.forall_mem_cons.mp each
    rw [foldAll, foldAll]
    exact hfirst.bind fun _ => (ih hrest).bind fun _ => .refl _

/-- Folding in some room gives up or does what it does without a limit. -/
theorem fold_curbs (folding : Folding σ) (room : Room) (e : Expr) :
    (fold folding room e).Curbs (fold folding .unlimited e) := by
  induction e using Expr.inductionOn generalizing room with
  | number value | reference name | assignment target value _ _ | unknown => exact .refl _
  | operation operator parts ih | call name parts ih | block parts ih =>
    rw [fold, fold, Effect.descend_unlimited, pure_bind]
    exact .descend fun inner =>
      (foldAll_curbs fun e member => ih e member inner).bind fun _ => .refl _

/-- What folding yields in some room it yields without a limit. -/
theorem fold_refines (folding : Folding σ) (room : Room) (e : Expr) :
    (fold folding room e).Refines (fold folding .unlimited e) :=
  (fold_curbs folding room e).refines

/-- What a tree is optimized to is what folding yields. -/
theorem yields_of_optimize
    (optimized : (optimize folding room e).run host = (.ok folded, after)) :
    folding.Yields e folded := by
  rw [optimize, Effect.run_boundDepth] at optimized
  refine ⟨host, after, fold_refines folding room e host folded after ?_⟩
  rcases hrun : (fold folding room e).run host with ⟨fault | result, last⟩
  · rw [hrun] at optimized
    cases optimized
  · rw [hrun] at optimized
    cases optimized
    rfl

end Formula
