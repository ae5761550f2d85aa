import Formula.Proofs.Expr.Nesting
import Formula.Proofs.Fold.Height
import Formula.Proofs.Session.Steps

namespace Formula

variable {σ α β : Type}

/-- Whether a computation ended because the stack was exhausted. -/
def Exhausts (result : Except Fault α) : Prop :=
  ∃ fault, result = .error fault ∧ fault.kind = .recursion

@[simp] theorem not_exhausts_ok (value : α) : ¬ Exhausts (.ok value : Except Fault α) := by
  rintro ⟨fault, hfault, -⟩
  cases hfault

@[simp] theorem exhausts_error {fault : Fault} :
    Exhausts (.error fault : Except Fault α) ↔ fault.kind = .recursion := by
  simp [Exhausts]

theorem exhausts_bind {x : Except Fault α} {next : α → Except Fault β} :
    Exhausts (x >>= next) ↔ Exhausts x ∨ ∃ value, x = .ok value ∧ Exhausts (next value) := by
  cases x with
  | error fault => simp [bind, Except.bind]
  | ok value => simp [bind, Except.bind]

theorem kind_outermost_ne (fault : Fault) : (Effect.outermost fault).kind ≠ .recursion := by
  unfold Effect.outermost
  split
  next => decide
  next h => simpa using h

namespace Effect

theorem exhausts_run_bind {x : Effect σ α} {next : α → Effect σ β} {state : σ} :
    Exhausts ((x >>= next).run state).1 ↔ Exhausts (x.run state).1 ∨
      ∃ value between, x.run state = (.ok value, between) ∧
        Exhausts ((next value).run between).1 := by
  rw [run_bind]
  rcases x.run state with ⟨fault | value, between⟩
  · simp
  · simp

theorem exhausts_ofExcept_bind {result : Except Fault α} {next : α → Effect σ β} {state : σ} :
    Exhausts ((ofExcept result >>= next).run state).1 ↔ Exhausts result ∨
      ∃ value, result = .ok value ∧ Exhausts ((next value).run state).1 := by
  rw [exhausts_run_bind, run_ofExcept]
  simp

theorem not_exhausts_boundDepth (x : Effect σ α) (state : σ) :
    ¬ Exhausts (x.boundDepth.run state).1 := by
  rw [run_boundDepth]
  rcases x.run state with ⟨fault | value, after⟩
  · exact fun h => kind_outermost_ne fault (exhausts_error.mp h)
  · exact not_exhausts_ok value

end Effect

theorem not_exhausts_compile (snapshot : Snapshot σ) (room : Room) (e : Expr) :
    ¬ Exhausts (compile snapshot room e) := by
  unfold compile
  split
  next => exact not_exhausts_ok _
  next fault _ => exact fun h => kind_outermost_ne fault (exhausts_error.mp h)

theorem Program.not_exhausts_call (program : Program σ) (overrides : Store) (host : σ) :
    ¬ Exhausts ((program.call overrides).run host).1 :=
  Effect.not_exhausts_boundDepth (program.code overrides) ⟨program.defaults, host⟩

theorem holds_standard {levels : Nat} : Room.standard.holds levels = true ↔ levels ≤ 985 := by
  simp [Room.standard, Room.holds]

/-- A compiled tree is far from exhausting a pass at one frame for each level. -/
theorem height_le_of_compile {snapshot : Snapshot σ} {e : Expr} {program : Program σ}
    (h : compile snapshot .standard e = .ok program) : e.height ≤ 985 := by
  unfold compile at h
  split at h
  next code hcode =>
    obtain ⟨hprintable, hholds⟩ := nesting_of_code hcode
    have hheight := Expr.height_le_nesting hprintable
    have hnesting : 3 * e.nesting ≤ 985 := holds_standard.mp hholds
    omega
  next => cases h

namespace Calculator

variable {calculator made : Calculator σ} {tree : Expr}

theorem not_exhausts_requireTree (calculator : Calculator σ) :
    ¬ Exhausts calculator.requireTree := by
  unfold requireTree
  split
  next => exact not_exhausts_ok _
  next => simp [Fault.kind]

theorem requireTree_eq_ok_iff :
    calculator.requireTree = .ok tree ↔ calculator.tree = some tree := by
  unfold requireTree
  split
  next h => simp [h]
  next h => simp [h]

theorem exhausts_count : Exhausts (countNodes tree) ↔ 985 < tree.height := by
  unfold countNodes
  split
  next h => simpa using holds_standard.mp h
  next h => simpa [Fault.kind, holds_standard] using h

theorem exhausts_list : Exhausts (listVariables tree) ↔ 985 < tree.height := by
  unfold listVariables
  split
  next h => simpa using holds_standard.mp h
  next h => simpa [Fault.kind, holds_standard] using h

/-- Whether a calculator has a tree with too many levels to walk through. -/
def IsOvergrown (calculator : Calculator σ) : Prop :=
  ∃ tree, calculator.tree = some tree ∧ 985 < tree.height

theorem exhausts_walk {walk : Expr → Except Fault α}
    (hwalk : ∀ {tree}, Exhausts (walk tree) ↔ 985 < tree.height) :
    Exhausts (calculator.requireTree >>= walk) ↔ calculator.IsOvergrown := by
  rw [exhausts_bind]
  constructor
  · rintro (h | ⟨tree, htree, h⟩)
    · exact absurd h calculator.not_exhausts_requireTree
    · exact ⟨tree, requireTree_eq_ok_iff.mp htree, hwalk.mp h⟩
  · rintro ⟨tree, htree, hheight⟩
    exact .inr ⟨tree, requireTree_eq_ok_iff.mpr htree, hwalk.mpr hheight⟩

theorem exhausts_countNodes :
    Exhausts (calculator.requireTree >>= countNodes) ↔ calculator.IsOvergrown :=
  exhausts_walk exhausts_count

theorem exhausts_listVariables :
    Exhausts (calculator.requireTree >>= listVariables) ↔ calculator.IsOvergrown :=
  exhausts_walk exhausts_list

variable [Journal σ] {registry : Registry σ} {host : σ}

theorem not_exhausts_evaluate (calculator : Calculator σ) (registry : Registry σ)
    (overrides : Store) (host : σ) :
    ¬ Exhausts (calculator.evaluate registry overrides host).1 := by
  unfold evaluate
  split
  next fault h =>
    have hrequire := calculator.not_exhausts_requireTree
    rw [h] at hrequire
    exact fun hfault => hrequire (exhausts_error.mpr (exhausts_error.mp hfault))
  next tree _ => exact Effect.not_exhausts_boundDepth _ _

theorem exhausts_optimize :
    Exhausts ((calculator.optimize registry).run host).1 ↔ calculator.IsOvergrown := by
  unfold optimize
  rw [Effect.exhausts_ofExcept_bind]
  constructor
  · rintro (h | ⟨tree, htree, h⟩)
    · exact absurd h calculator.not_exhausts_requireTree
    refine ⟨tree, requireTree_eq_ok_iff.mp htree, ?_⟩
    rcases Effect.exhausts_ofExcept_bind.mp h with h | ⟨before, -, h⟩
    · exact exhausts_count.mp h
    rcases Effect.exhausts_run_bind.mp h with h | ⟨folded, between, hfolded, h⟩
    · exact absurd h (Effect.not_exhausts_boundDepth _ _)
    rcases Effect.exhausts_ofExcept_bind.mp h with h | ⟨after, -, h⟩
    · -- the second count has room where the first one had: the folded tree is no higher
      have hle := height_le_of_yields (yields_of_optimize hfolded)
      exact Nat.lt_of_lt_of_le (exhausts_count.mp h) hle
    · exact absurd h (not_exhausts_ok _)
  · rintro ⟨tree, htree, hheight⟩
    exact .inr ⟨tree, requireTree_eq_ok_iff.mpr htree,
      Effect.exhausts_ofExcept_bind.mpr (.inl (exhausts_count.mpr hheight))⟩

theorem countNodes_eq_ok_iff {n : Nat} :
    countNodes tree = .ok n ↔ tree.height ≤ 985 ∧ n = tree.nodeCount := by
  unfold countNodes
  split
  next h => simp [holds_standard.mp h, eq_comm]
  next h => simpa using fun hle => absurd (holds_standard.mpr hle) h

theorem optimize_eq_ok_iff :
    (∃ after, (calculator.optimize registry).run host = (.ok made, after)) ↔
      ∃ tree folded after, calculator.tree = some tree ∧ tree.height ≤ 985 ∧
        (Formula.optimize (calculator.folding registry) .standard tree).run host =
          (.ok folded, after) ∧ made = { calculator with tree := some folded } := by
  constructor
  · rintro ⟨after, h⟩
    unfold optimize at h
    obtain ⟨tree, first, hrequire, h⟩ := Effect.exists_of_run_bind h
    obtain ⟨htree, hfirst⟩ := tree_of_requireTree hrequire
    obtain ⟨before, second, hbefore, h⟩ := Effect.exists_of_run_bind h
    rw [Effect.run_ofExcept] at hbefore
    obtain ⟨hcount, hsecond⟩ := Prod.mk.inj hbefore
    obtain ⟨folded, third, hfolded, h⟩ := Effect.exists_of_run_bind h
    obtain ⟨_, _, -, h⟩ := Effect.exists_of_run_bind h
    obtain ⟨_, _, -, hlast⟩ := Effect.exists_of_run_bind h
    rw [← hsecond, hfirst] at hfolded
    exact ⟨tree, folded, third, htree, (countNodes_eq_ok_iff.mp hcount).1, hfolded,
      Effect.eq_of_run_pure hlast⟩
  · rintro ⟨tree, folded, after, htree, hheight, hfolded, rfl⟩
    have hlow := Nat.le_trans (height_le_of_yields (yields_of_optimize hfolded)) hheight
    refine ⟨((calculator.optimize registry).run host).2, Prod.ext ?_ rfl⟩
    unfold optimize
    rw [Effect.run_bind, Effect.run_ofExcept, requireTree_eq_ok_iff.mpr htree]
    dsimp only
    rw [Effect.run_bind, Effect.run_ofExcept, countNodes_eq_ok_iff.mpr ⟨hheight, rfl⟩]
    dsimp only
    rw [Effect.run_bind, hfolded]
    dsimp only
    rw [Effect.run_bind, Effect.run_ofExcept, countNodes_eq_ok_iff.mpr ⟨hlow, rfl⟩]
    rfl

/-- A tree that has a program is low enough for its nodes to be counted. -/
theorem not_exhausts_compile (calculator : Calculator σ) (registry : Registry σ) (host : σ) :
    ¬ Exhausts ((calculator.compile registry).run host).1 := by
  unfold compile
  rw [Effect.exhausts_ofExcept_bind]
  rintro (h | ⟨tree, -, h⟩)
  · exact calculator.not_exhausts_requireTree h
  rcases Effect.exhausts_ofExcept_bind.mp h with h | ⟨program, hprogram, h⟩
  · exact Formula.not_exhausts_compile _ _ _ h
  rcases Effect.exhausts_ofExcept_bind.mp h with h | ⟨nodes, -, h⟩
  · have hlow := height_le_of_compile hprogram
    have hhigh := exhausts_count.mp h
    omega
  · exact not_exhausts_ok _ h

end Calculator

/-- Whether a trouble is an exhausted stack. -/
def Trouble.IsOverflow : Trouble → Prop
  | .text _ => False
  | .fault cause => cause.kind = .recursion
  | .options error => error.kind = .recursion

@[simp] theorem isOverflow_fault {fault : Fault} :
    (Trouble.fault fault).IsOverflow ↔ fault.kind = .recursion := Iff.rfl

/-- Whether a trouble is about options, or about a name that stands for nothing. -/
def Trouble.IsMisuse (trouble : Trouble) : Prop :=
  (∃ error, trouble = .options error) ∨ ∃ name, trouble = Session.absent name

/-- Whether a request ended because the stack was exhausted. -/
def Overflows (result : Except Trouble α) : Prop :=
  ∃ trouble, result = .error trouble ∧ trouble.IsOverflow

theorem exists_of_map_mapError {result : Except Fault α} {f : α → β} {trouble : Trouble}
    (h : (result.map f).mapError .fault = .error trouble) :
    ∃ fault, result = .error fault ∧ trouble = .fault fault := by
  cases result with
  | error fault =>
    cases h
    exact ⟨fault, rfl, rfl⟩
  | ok value => cases h

theorem Session.not_isOverflow_absent (name : String) : ¬ (Session.absent name).IsOverflow := by
  simp [Session.absent, Fault.kind]

/-- Whether a step asks something of a formula. -/
def Step.AsksFormula : Step σ → Prop
  | .create .. | .parse .. | .evaluate .. | .optimize _ | .compile .. | .call .. | .listVariables _
  | .countNodes _ => True
  | _ => False

/-- Whether a step gives options that are refused with this complaint. -/
def Step.IsRefused (error : OptionError) : Step σ → Prop
  | .create _ _ config => Options.ofSource .standard (.datum config) = .error error
  | _ => False

/-- The calculator whose tree a step walks through without a guard. -/
def Step.unguarded? : Step σ → Option String
  | .optimize name | .listVariables name | .countNodes name => some name
  | _ => none

namespace Session

variable {session : Session σ} {name : String}

theorem exists_of_inspect_error {look : Calculator σ → Except Fault (Reply σ)} {trouble : Trouble}
    (h : (session.inspect name look).1 = .error trouble) :
    trouble = absent name ∨ ∃ calculator fault, session.calculator? name = some calculator ∧
      look calculator = .error fault ∧ trouble = .fault fault := by
  unfold inspect at h
  split at h
  next =>
    cases h
    exact .inl rfl
  next calculator found =>
    dsimp only at h
    cases hlook : look calculator with
    | error fault =>
      rw [hlook] at h
      cases h
      exact .inr ⟨calculator, fault, found, hlook, rfl⟩
    | ok reply =>
      rw [hlook] at h
      cases h

theorem exists_of_update_error {change : Calculator σ → Effect σ (Calculator σ)}
    {trouble : Trouble} (h : (session.update name change).1 = .error trouble) :
    trouble = absent name ∨ ∃ calculator fault, session.calculator? name = some calculator ∧
      ((change calculator).run session.host).1 = .error fault ∧ trouble = .fault fault := by
  unfold update at h
  split at h
  next =>
    cases h
    exact .inl rfl
  next calculator found =>
    rcases hrun : (change calculator).run session.host with ⟨fault | made, after⟩
    · rw [hrun] at h
      cases h
      exact .inr ⟨calculator, fault, found, by rw [hrun], rfl⟩
    · rw [hrun] at h
      cases h

/-- Whether a step walks through a tree without a guard. -/
def Walks (session : Session σ) (step : Step σ) (tree : Expr) : Prop :=
  ∃ name calculator, step.unguarded? = some name ∧ session.calculator? name = some calculator ∧
    calculator.tree = some tree

variable [Journal σ]

/-- The faults of what is asked of a formula, before they become troubles of a session. -/
inductive Faults (session : Session σ) : Step σ → Fault → Prop where
  | evaluate {name : String} {overrides : Store} {calculator : Calculator σ} {fault : Fault} :
    session.calculator? name = some calculator →
    (calculator.evaluate session.registry overrides session.host).1 = .error fault →
    Faults session (.evaluate name overrides) fault
  | optimize {name : String} {calculator : Calculator σ} {fault : Fault} :
    session.calculator? name = some calculator →
    ((calculator.optimize session.registry).run session.host).1 = .error fault →
    Faults session (.optimize name) fault
  | compile {name program : String} {calculator : Calculator σ} {fault : Fault} :
    session.calculator? name = some calculator →
    ((calculator.compile session.registry).run session.host).1 = .error fault →
    Faults session (.compile name program) fault
  | call {name : String} {overrides : Store} {program : Program σ} {fault : Fault} :
    session.programs.lookup name = some program →
    ((program.call overrides).run session.host).1 = .error fault →
    Faults session (.call name overrides) fault
  | listVariables {name : String} {calculator : Calculator σ} {fault : Fault} :
    session.calculator? name = some calculator →
    calculator.requireTree >>= Calculator.listVariables = .error fault →
    Faults session (.listVariables name) fault
  | countNodes {name : String} {calculator : Calculator σ} {fault : Fault} :
    session.calculator? name = some calculator →
    calculator.requireTree >>= Calculator.countNodes = .error fault →
    Faults session (.countNodes name) fault

/-- What is asked of a formula fails for its options, for a name that stands for nothing, for an
error in its text, or with a fault. -/
inductive FailsAs (session : Session σ) (step : Step σ) : Trouble → Prop where
  | options {error : OptionError} : step.IsRefused error → FailsAs session step (.options error)
  | absent (name : String) : FailsAs session step (Session.absent name)
  | text (error : TextError) : FailsAs session step (.text error)
  | fault {fault : Fault} : session.Faults step fault → FailsAs session step (.fault fault)

theorem failsAs_of_step {step : Step σ} {trouble : Trouble} (hasks : step.AsksFormula)
    (h : (session.step step).1 = .error trouble) : session.FailsAs step trouble := by
  cases step with
  | create name source config =>
    unfold Session.step at h
    dsimp only at h
    split at h
    next error hoptions =>
      cases h
      exact .options hoptions
    next =>
      split at h
      next error _ =>
        cases h
        exact .text error
      next => cases h
  | parse name source =>
    unfold Session.step at h
    dsimp only at h
    split at h
    next =>
      cases h
      exact .absent name
    next =>
      split at h
      next error _ =>
        cases h
        exact .text error
      next => cases h
  | evaluate name overrides =>
    unfold Session.step at h
    dsimp only at h
    split at h
    next =>
      cases h
      exact .absent name
    next calculator found =>
      obtain ⟨fault, hfault, rfl⟩ := exists_of_map_mapError h
      exact .fault (.evaluate found hfault)
  | optimize name =>
    rcases exists_of_update_error h with rfl | ⟨calculator, fault, found, hfault, rfl⟩
    · exact .absent name
    · exact .fault (.optimize found hfault)
  | compile name program =>
    unfold Session.step at h
    dsimp only at h
    split at h
    next =>
      cases h
      exact .absent name
    next calculator found =>
      split at h
      next fault hfault =>
        cases h
        exact .fault (.compile found hfault)
      next => cases h
  | call program overrides =>
    unfold Session.step at h
    dsimp only at h
    split at h
    next =>
      cases h
      exact .absent program
    next compiled found =>
      obtain ⟨fault, hfault, rfl⟩ := exists_of_map_mapError h
      exact .fault (.call found hfault)
  | listVariables name =>
    rcases exists_of_inspect_error h with rfl | ⟨calculator, fault, found, hfault, rfl⟩
    · exact .absent name
    · rw [← bind_assoc] at hfault
      rcases exists_of_bind_eq_error hfault with hfault | ⟨_, -, ⟨⟩⟩
      exact .fault (.listVariables found hfault)
  | countNodes name =>
    rcases exists_of_inspect_error h with rfl | ⟨calculator, fault, found, hfault, rfl⟩
    · exact .absent name
    · rw [← bind_assoc] at hfault
      rcases exists_of_bind_eq_error hfault with hfault | ⟨_, -, ⟨⟩⟩
      exact .fault (.countNodes found hfault)
  | _ => exact hasks.elim

variable {step : Step σ} {fault : Fault}

theorem Faults.step_eq (h : session.Faults step fault) :
    (session.step step).1 = .error (.fault fault) := by
  cases h with
  | evaluate found hfault | call found hfault =>
    simp only [Session.step, found, hfault]
    rfl
  | @optimize name calculator fault found hfault =>
    rcases hrun : (calculator.optimize session.registry).run session.host with ⟨result, after⟩
    rw [hrun] at hfault
    cases hfault
    simp only [Session.step, update, found, hrun]
  | compile found hfault => simp only [Session.step, found, hfault]
  | listVariables found hfault | countNodes found hfault =>
    simp only [Session.step, inspect, found, ← bind_assoc, hfault]
    rfl

theorem step_of_isRefused {error : OptionError} (h : step.IsRefused error) :
    (session.step step).1 = .error (.options error) := by
  cases step with
  | create name source config =>
    have hoptions : Options.ofSource .standard (.datum config) = .error error := h
    simp only [Session.step, hoptions]
  | _ => exact h.elim

theorem Faults.walks (h : session.Faults step fault) (hkind : fault.kind = .recursion) :
    ∃ tree, session.Walks step tree ∧ 985 < tree.height := by
  cases h with
  | evaluate _ hfault =>
    exact absurd ⟨fault, hfault, hkind⟩ (Calculator.not_exhausts_evaluate _ _ _ _)
  | compile _ hfault =>
    exact absurd ⟨fault, hfault, hkind⟩ (Calculator.not_exhausts_compile _ _ _)
  | call _ hfault => exact absurd ⟨fault, hfault, hkind⟩ (Program.not_exhausts_call _ _ _)
  | optimize found hfault =>
    obtain ⟨tree, htree, hheight⟩ := Calculator.exhausts_optimize.mp ⟨fault, hfault, hkind⟩
    exact ⟨tree, ⟨_, _, rfl, found, htree⟩, hheight⟩
  | listVariables found hfault =>
    obtain ⟨tree, htree, hheight⟩ := Calculator.exhausts_listVariables.mp ⟨fault, hfault, hkind⟩
    exact ⟨tree, ⟨_, _, rfl, found, htree⟩, hheight⟩
  | countNodes found hfault =>
    obtain ⟨tree, htree, hheight⟩ := Calculator.exhausts_countNodes.mp ⟨fault, hfault, hkind⟩
    exact ⟨tree, ⟨_, _, rfl, found, htree⟩, hheight⟩

theorem Walks.faults {tree : Expr} (h : session.Walks step tree) (hheight : 985 < tree.height) :
    ∃ fault, session.Faults step fault ∧ fault.kind = .recursion := by
  obtain ⟨name, calculator, hname, found, htree⟩ := h
  cases step with
  | optimize _ =>
    cases hname
    obtain ⟨fault, hfault, hkind⟩ := Calculator.exhausts_optimize.mpr ⟨tree, htree, hheight⟩
    exact ⟨fault, .optimize found hfault, hkind⟩
  | listVariables _ =>
    cases hname
    obtain ⟨fault, hfault, hkind⟩ := Calculator.exhausts_listVariables.mpr ⟨tree, htree, hheight⟩
    exact ⟨fault, .listVariables found hfault, hkind⟩
  | countNodes _ =>
    cases hname
    obtain ⟨fault, hfault, hkind⟩ := Calculator.exhausts_countNodes.mpr ⟨tree, htree, hheight⟩
    exact ⟨fault, .countNodes found hfault, hkind⟩
  | _ => cases hname

/-- Of all that is asked of a formula only what walks through its tree without a guard lets an
exhausted stack out, and it does so where the tree has too many levels. Beside that the complaint
about options can exhaust the stack. -/
theorem overflows_step (hasks : step.AsksFormula) :
    Overflows (session.step step).1 ↔ (∃ tree, session.Walks step tree ∧ 985 < tree.height) ∨
      ∃ error, step.IsRefused error ∧ error.kind = .recursion := by
  constructor
  · rintro ⟨trouble, htrouble, hoverflow⟩
    cases failsAs_of_step hasks htrouble with
    | @options error hrefused => exact .inr ⟨error, hrefused, hoverflow⟩
    | absent name => exact absurd hoverflow (not_isOverflow_absent name)
    | text => exact hoverflow.elim
    | fault hfault => exact .inl (hfault.walks hoverflow)
  · rintro (⟨tree, walks, hheight⟩ | ⟨error, hrefused, hkind⟩)
    · obtain ⟨fault, hfault, hkind⟩ := walks.faults hheight
      exact ⟨.fault fault, hfault.step_eq, hkind⟩
    · exact ⟨.options error, step_of_isRefused hrefused, hkind⟩

end Session

end Formula
