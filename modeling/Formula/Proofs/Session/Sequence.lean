import Formula.Proofs.Eval.Depth
import Formula.Proofs.Parser.Sequence
import Formula.Proofs.Session.Calculator

namespace Formula

variable {σ : Type} {env : Environment σ} {room : Room} {e e' : Expr} {es es' : List Expr}

namespace Effect

theorem boundDepth_bind {α β : Type} (x : Effect σ α) (next : α → Effect σ β) :
    (x >>= next).boundDepth = x.boundDepth >>= fun value => (next value).boundDepth := by
  ext1
  funext state
  rw [run_boundDepth, run_bind, run_bind, run_boundDepth]
  rcases x.run state with ⟨fault | value, after⟩
  · rfl
  · exact (run_boundDepth _ _).symm

end Effect

theorem evalStatements_append (before : Value) (es es' : List Expr) :
    evalStatements env room before (es ++ es') =
      evalStatements env room before es >>= fun value => evalStatements env room value es' := by
  induction es generalizing before with
  | nil => rfl
  | cons first rest ih =>
    rw [List.cons_append, evalStatements, evalStatements, bind_assoc]
    exact congrArg _ (funext fun value => ih value)

/-- What a program comes to is what its statements come to, whatever value stood before them. -/
theorem eval_of_comprises (h : e.Comprises es) (before : Value) :
    eval env .unlimited e = evalStatements env .unlimited before es := by
  rcases h with rfl | ⟨rfl, hlength⟩
  · exact (bind_pure _).symm
  · match es, hlength with
    | first :: second :: rest, _ => rfl

theorem Expr.Comprises.height_le (h : e.Comprises es) (hsubset : es ⊆ es') :
    e.height ≤ heightOf es' + 1 := by
  have hmember : ∀ statement ∈ es, statement.height ≤ heightOf es' :=
    fun statement member => height_le_heightOf (hsubset member)
  rcases h with rfl | ⟨rfl, -⟩
  · exact Nat.le_succ_of_le (hmember e (by simp))
  · exact Nat.succ_le_succ (heightOf_le hmember)

theorem Expr.Comprises.fits (h : e.Comprises es) (hsubset : es ⊆ es')
    (fits : (Expr.block es').Fits room) : e.Fits room :=
  Room.holds_mono fits (Nat.mul_le_mul_left _ (h.height_le hsubset))

theorem evaluate_append (h : e.Comprises es) (h' : e'.Comprises es')
    (fits : (Expr.block (es ++ es')).Fits room) :
    evaluate env room (.block (es ++ es')) =
      evaluate env room e >>= fun _ => evaluate env room e' := by
  have hfits := h.fits (List.subset_append_left es es') fits
  have hfits' := h'.fits (List.subset_append_right es es') fits
  have hsecond : ∀ value, evalStatements env .unlimited value es' = eval env .unlimited e' :=
    fun value => (eval_of_comprises h' value).symm
  rw [evaluate, evaluate, evaluate, eval_of_fits fits, eval_of_fits hfits, eval_of_fits hfits',
    ← Effect.boundDepth_bind, eval_block, evalStatements_append, ← eval_of_comprises h]
  simp only [hsecond]

namespace Calculator

variable [Journal σ]

theorem evaluate_with (calculator : Calculator σ) (registry : Registry σ) (overrides store : Store)
    (tree : Expr) (host : σ) :
    { calculator with tree := some tree, store }.evaluate registry overrides host =
      match (Formula.evaluate (calculator.environment registry overrides) .standard tree).run
        ⟨store, host⟩ with
      | (result, frame) =>
        (result, { calculator with tree := some tree, store := frame.store }, frame.host) := rfl

/-- Evaluates the formula and then, unless that fails, a text that takes its place. -/
def evaluateThen (calculator : Calculator σ) (registry : Registry σ) (overrides : Store)
    (host : σ) (source : String) : Except Trouble Value × Calculator σ × σ :=
  match calculator.evaluate registry overrides host with
  | (.error fault, after, host) => (.error (.fault fault), after, host)
  | (.ok _, after, host) =>
    match after.parse (some source) with
    | .error error => (.error (.text error), after, host)
    | .ok next =>
      let (result, last, host) := next.evaluate registry overrides host
      (result.mapError .fault, last, host)

/-- Two texts that a calculator can parse it can parse with a semicolon between them. Unless the
whole is too deep to be evaluated, it comes to what the second text comes to behind the first one,
or to the fault of the first one; and it leaves the variables and the host as those two leave them,
so functions and handlers are called as often and in the same order. -/
theorem evaluate_parse_append (calculator : Calculator σ) (registry : Registry σ)
    (overrides : Store) (host : σ) {s s' : String} {first second : Calculator σ}
    (h : calculator.parse (some s) = .ok first) (h' : calculator.parse (some s') = .ok second) :
    ∃ whole tree, calculator.parse (some (s ++ ";" ++ s')) = .ok whole ∧ whole.tree = some tree ∧
      (tree.Fits .standard →
        let once := whole.evaluate registry overrides host
        let inTurn := first.evaluateThen registry overrides host s'
        once.1.mapError .fault = inTurn.1 ∧ once.2.1.store = inTurn.2.1.store ∧
          once.2.2 = inTurn.2.2) := by
  obtain ⟨e, he, rfl⟩ := exists_of_parse h
  obtain ⟨e', he', rfl⟩ := exists_of_parse h'
  obtain ⟨es, es', hes, hes', hwhole⟩ := parse_append he he'
  refine ⟨{ calculator with tree := some (.block (es ++ es')) }, .block (es ++ es'), ?_, rfl, ?_⟩
  · rw [Calculator.parse, hwhole]
    rfl
  · intro fits
    let env := calculator.environment registry overrides
    have hrun : (Formula.evaluate env .standard (.block (es ++ es'))).run ⟨calculator.store, host⟩ =
        (Formula.evaluate env .standard e >>= fun _ => Formula.evaluate env .standard e').run
          ⟨calculator.store, host⟩ := by
      rw [evaluate_append hes hes' fits]
    -- the second text parses to the same tree whatever the first one has left in the store
    have hnext : ∀ store, { calculator with tree := some e, store }.parse (some s') =
        .ok { calculator with tree := some e', store } := by
      intro store
      rw [Calculator.parse, he']
      rfl
    rw [Effect.run_bind] at hrun
    rw [evaluateThen, evaluate_with calculator registry overrides calculator.store e,
      evaluate_with calculator registry overrides calculator.store (.block (es ++ es')), hrun]
    rcases (Formula.evaluate env .standard e).run ⟨calculator.store, host⟩ with
      ⟨fault | value, store, hostAfter⟩
    · exact ⟨rfl, rfl, rfl⟩
    · simp only [hnext, evaluate_with]
      exact ⟨rfl, rfl, rfl⟩

/-- A host that writes down the notes that are left and the functions that are called. -/
def Ledger : Type :=
  List String

instance : Journal Ledger :=
  ⟨fun note lines => List.append lines [note.line]⟩

/-- Notes its name and returns the number of lines so far. -/
def tally (name : String) : Effect Ledger Value :=
  ⟨fun lines => (.ok (.int (List.length lines)), List.append lines [name])⟩

/-- A calculator with a function and a handler that depend on what happened before. -/
def meter : Calculator Ledger where
  options := ⟨false⟩
  store := ∅
  functions := FunctionTable.empty.register "next" (.function fun _ => tally "next")
  tree := none
  missing := tally

def meterSource : String := "n = next() m + n"

/-- A negative statement, which a sum before it would take in, and one that fails behind a call. -/
def meterSequel : String := "-n + 1; n = next() % 0"

theorem evaluate_parse_append_failing :
    ∃ first second whole tree, meter.parse (some meterSource) = .ok first ∧
      meter.parse (some meterSequel) = .ok second ∧
      meter.parse (some (meterSource ++ ";" ++ meterSequel)) = .ok whole ∧
      whole.tree = some tree ∧ tree.Fits .standard ∧
      let once := whole.evaluate .standard ∅ []
      let inTurn := first.evaluateThen .standard ∅ [] meterSequel
      once.1.mapError .fault = inTurn.1 ∧ once.2.1.store = inTurn.2.1.store ∧
        once.2.2 = inTurn.2.2 ∧ once.1.toBool = false ∧ List.length inTurn.2.2 = 4 := by
  obtain ⟨first, hfirst, -⟩ := @exists_ok_of_any _ _
    (meter.parse (some meterSource)) (fun _ => true) (by decide +kernel)
  obtain ⟨second, hsecond, -⟩ := @exists_ok_of_any _ _
    (meter.parse (some meterSequel)) (fun _ => true) (by decide +kernel)
  obtain ⟨whole, tree, hwhole, htree, hevaluate⟩ :=
    evaluate_parse_append meter .standard ∅ [] hfirst hsecond
  obtain ⟨other, hother, hchecked⟩ := @exists_ok_of_any _ _
    (meter.parse (some (meterSource ++ ";" ++ meterSequel)))
    (fun made => made.tree.any (fun tree => Room.standard.holds (price.evaluation * tree.height)) &&
      (!(made.evaluate .standard ∅ []).1.toBool &&
        List.length (made.evaluate .standard ∅ []).2.2 == 4)) (by decide +kernel)
  cases hwhole.symm.trans hother
  rw [htree, Bool.and_eq_true, Bool.and_eq_true] at hchecked
  obtain ⟨hfits, hfails, hcalls⟩ := hchecked
  obtain ⟨hresult, hstore, hhost⟩ := hevaluate hfits
  refine ⟨first, second, whole, tree, hfirst, hsecond, hwhole, htree, hfits, hresult, hstore, hhost,
    ?_, ?_⟩
  · simpa using hfails
  · rw [← hhost]
    simpa using hcalls

end Calculator

end Formula
