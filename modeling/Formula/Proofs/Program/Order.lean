import Formula.Proofs.Eval.Order
import Formula.Proofs.Parser.Shape
import Formula.Proofs.Program.Dependence

namespace Formula

open Formula.Expr

variable {σ : Type} {env : Environment σ} {room : Room} {tree : Expr}

/-- Whether a run with the given acts works through the nodes of a tree in order. -/
structure InOrder (env : Environment σ) (room : Room) (tree : Expr) (frame : Frame σ)
    (trace : List Act) (run : Except Fault Value × Frame σ) : Prop where
  /-- The value is what the last node leaves. A fault ends the course at a node, or in front of one
  if the tree is too deep. -/
  course : ∃ result : Except Fault Value, run.1 = result.mapError Effect.outermost ∧
    Course env (¬ tree.Fits room) tree.postorder [] frame trace (result.map ([·])) run.2
  /-- A run that succeeds makes each call and each assignment once. -/
  complete : ∀ value, run.1 = .ok value →
    trace.filterMap Act.deed? = tree.postorder.filterMap Expr.deed?
  /-- Any run makes the first of them. -/
  started : trace.filterMap Act.deed? <+: tree.postorder.filterMap Expr.deed?
  /-- Each occurrence of a variable asks for it once at most. -/
  missed : (trace.filterMap Act.missed?).Sublist (tree.postorder.filterMap Expr.name?)
  /-- The assignments of the trace, one after the other, tell what becomes of the variables. -/
  store : run.2.store = trace.foldl Act.write frame.store

theorem evaluate_inOrder (shape : tree.Everywhere InShape)
    (known : tree.Everywhere (IsKnown env.functions)) (frame : Frame σ) :
    InOrder env room tree frame (acts env room tree frame)
      ((evaluate env room tree).run frame) := by
  have course := @eval_follows σ env room (¬ tree.Fits room) tree shape known id [] frame
  rw [evaluate, Effect.run_boundDepth]
  refine ⟨⟨_, rfl, course⟩, fun value h => ?_, course.deeds_prefix, course.missed_sublist,
    (eval_shows env room tree).store frame⟩
  rcases hrun : (eval env room tree).run frame with ⟨fault | result, after⟩
  · rw [hrun] at h
    cases h
  · rw [hrun] at course
    exact course.deeds_eq

namespace Expr

theorem filterMap_target?_of_isPlain {e : Expr} (plain : e.Everywhere IsPlain) :
    e.postorder.filterMap target? = [] := by
  have shape : e.Everywhere InShape := plain.mono inShape_of_isPlain
  refine List.filterMap_eq_nil_iff.mpr fun node member => ?_
  have hplain := plain node (mem_nodes_of_mem_postorder shape member)
  cases node with
  | assignment target value => exact hplain.elim
  | _ => rfl

theorem filterMap_target?_of_isStatement {e : Expr} (h : e.IsStatement) :
    e.postorder.filterMap target? = [e].filterMap target? := by
  rcases h with plain | ⟨name, value, rfl, plain⟩
  · have hself := plain e (by cases e <;> simp [nodes])
    rw [filterMap_target?_of_isPlain plain]
    cases e with
    | assignment target value => exact hself.elim
    | _ => rfl
  · rw [postorder, List.filterMap_append, filterMap_target?_of_isPlain plain, List.nil_append]

theorem filterMap_target?_postorderOf {es : List Expr} (h : ∀ e ∈ es, e.IsStatement) :
    (postorderOf es).filterMap target? = es.filterMap target? := by
  induction es with
  | nil => rfl
  | cons first rest ih =>
    obtain ⟨hfirst, hrest⟩ := List.forall_mem_cons.mp h
    rw [postorderOf, List.filterMap_append, filterMap_target?_of_isStatement hfirst, ih hrest,
      ← List.filterMap_append, List.singleton_append]

/-- The assignments of a program in postorder are its statements. -/
theorem IsProgram.filterMap_target? {e : Expr} (h : e.IsProgram) :
    e.postorder.filterMap target? = e.statements.filterMap target? := by
  rcases h with h | ⟨statements, rfl, -, h⟩
  · have hkind : e.kind ≠ .block := by
      rcases h with plain | ⟨name, value, rfl, -⟩
      · have hself := plain e (by cases e <;> simp [nodes])
        cases e with
        | block statements => exact hself.elim
        | _ => simp [kind]
      · simp [kind]
    rw [statements_of_kind_ne_block hkind, filterMap_target?_of_isStatement h]
  · rw [postorder, List.filterMap_append, filterMap_target?_postorderOf h]
    exact List.append_nil _

end Expr

/-- Compiling a tree in shape whose functions are known fails only if the tree does not fit. -/
theorem compile_tooDeep_or_ok {snapshot : Snapshot σ} (shape : tree.Everywhere InShape)
    (known : tree.Everywhere (IsKnown snapshot.functions)) :
    (compile snapshot room tree = .error .tooDeep ∧ ¬ tree.Fits room) ∨
      ∃ program, compile snapshot room tree = .ok program := by
  cases hcode : code snapshot room tree with
  | ok result => exact .inr ⟨_, by rw [compile, hcode]⟩
  | error fault =>
    rcases stops_of_code shape hcode with ⟨rfl, hnot⟩ | ⟨name, hname, -⟩
    · exact .inl ⟨by rw [compile, hcode]; rfl, hnot⟩
    · obtain ⟨arguments, member, hnone⟩ := exists_of_firstUnknown?_eq_some hname
      have hsome := known _ member
      rw [IsKnown, hnone] at hsome
      cases hsome

/-- Every effect of a program happens once and in the order of the source. Its nodes are worked on
in postorder, where each node of the tree stands once unless it is the target of an assignment, and
where the assignments stand in the order of the statements. A call node makes one call, with the
values of its arguments; an assignment writes one variable; a variable asks the handler once if its
name is at that moment neither overridden nor stored; nothing else acts. A run that succeeds gets to
the last node, and one that fails does nothing behind the node that fails. What runs makes just
these calls, as functions and a handler that write them down show. The compiled program has the same
course and the same acts; it exists unless the tree is too deep. -/
theorem effects_in_order {reading : Room} {force : Bool} {source : Option String}
    (parsed : parse reading force source = .ok tree) {functions : String → Option (Callee σ)}
    (known : tree.Everywhere (IsKnown functions)) (missing : String → Effect σ Value)
    (room : Room) :
    let env (overrides : Store) : Environment σ := ⟨overrides, functions, missing⟩
    let trace (overrides store : Store) (host : σ) := acts (env overrides) room tree ⟨store, host⟩
    tree.nodes.Perm (tree.postorder ++ tree.nodes.filterMap assignee?) ∧
    tree.postorder.filterMap target? = tree.statements.filterMap target? ∧
    (∀ overrides store host,
      InOrder (env overrides) room tree ⟨store, host⟩ (trace overrides store host)
        ((evaluate (env overrides) room tree).run ⟨store, host⟩)) ∧
    (∀ overrides, Run.Shows (eval (env overrides) room tree) (acts (env overrides) room tree)
      (eval (env overrides).recorded room tree)) ∧
    ∀ store,
      ((compile ⟨store, functions, missing⟩ room tree = .error .tooDeep ∧ ¬ tree.Fits room) ∨
        ∃ program, compile ⟨store, functions, missing⟩ room tree = .ok program ∧
          ∀ overrides host,
            InOrder (env overrides) room tree ⟨store, host⟩ (trace overrides store host)
              (program.runFrame overrides host)) ∧
      ∀ program, compile (Snapshot.recorded ⟨store, functions, missing⟩) room tree = .ok program →
        ∀ overrides host, (program.runFrame overrides ⟨host, []⟩).2.host.events =
          (trace overrides store host).filterMap Act.event? := by
  intro env trace
  have program := isProgram_of_parse parsed
  have shape := program.inShape
  have inOrder : ∀ overrides store host,
      InOrder (env overrides) room tree ⟨store, host⟩ (trace overrides store host)
        ((evaluate (env overrides) room tree).run ⟨store, host⟩) :=
    fun overrides store host => evaluate_inOrder shape known ⟨store, host⟩
  refine ⟨nodes_perm shape, program.filterMap_target?, inOrder,
    fun overrides => eval_shows (env overrides) room tree, fun store => ⟨?_, ?_⟩⟩
  · rcases @compile_tooDeep_or_ok σ room tree ⟨store, functions, missing⟩ shape known with
      deep | ⟨compiled, hcompiled⟩
    · exact .inl deep
    · refine .inr ⟨compiled, hcompiled, fun overrides host => ?_⟩
      rw [runFrame_of_compile hcompiled]
      exact inOrder overrides store host
  · exact fun compiled hcompiled overrides host => events_runFrame hcompiled overrides host []

/-- The variable `a` is found nowhere, `b` is overridden and `c` stored. -/
theorem effects_in_order_counting :
    let missing : String → Effect Nat Value := fun _ => do
      modify (· + 1)
      return .int 10
    let overrides := Store.ofList [("b", .int 2)]
    let store := Store.ofList [("c", .int 3)]
    let env : Environment Nat := ⟨overrides, countingSnapshot.functions, missing⟩
    ∃ tree program,
      parse .standard false (some "x = count(a, b); count(x - c, count(c))") = .ok tree ∧
      tree.Everywhere (IsKnown countingSnapshot.functions) ∧
      acts env .standard tree ⟨store, 0⟩ =
        [.missed "a", .called "count" [.int 10, .int 2], .assigned "x" (.int 2),
          .called "count" [.int 3], .called "count" [.int (-1), .int 3]] ∧
      InOrder env .standard tree ⟨store, 0⟩ (acts env .standard tree ⟨store, 0⟩)
        ((evaluate env .standard tree).run ⟨store, 0⟩) ∧
      compile ⟨store, countingSnapshot.functions, missing⟩ .standard tree = .ok program ∧
      InOrder env .standard tree ⟨store, 0⟩ (acts env .standard tree ⟨store, 0⟩)
        (program.runFrame overrides 0) := by
  intro missing overrides store env
  obtain ⟨tree, parsed, hchecked⟩ := @exists_ok_of_any _ _
    (parse .standard false (some "x = count(a, b); count(x - c, count(c))"))
    (fun tree => decide (tree.Everywhere (IsKnown countingSnapshot.functions) ∧
      tree.Fits .standard ∧ acts env .standard tree ⟨store, 0⟩ =
        [.missed "a", .called "count" [.int 10, .int 2], .assigned "x" (.int 2),
          .called "count" [.int 3], .called "count" [.int (-1), .int 3]])) (by decide +kernel)
  obtain ⟨known, fits, hacts⟩ := of_decide_eq_true hchecked
  obtain ⟨-, -, evaluated, -, compiled⟩ := effects_in_order parsed known missing .standard
  rcases (compiled store).1 with ⟨-, hnot⟩ | ⟨program, hprogram, hruns⟩
  · exact absurd fits hnot
  · exact ⟨tree, program, parsed, known, hacts, evaluated overrides store 0, hprogram,
      hruns overrides 0⟩

end Formula
