import Formula.Calculator
import Formula.Proofs.Effect
import Formula.Proofs.Number.Negated
import Formula.Proofs.Number.Reading
import Formula.Proofs.Parser.Numeral

namespace Formula

variable {σ : Type}

section Values

variable {tree : Expr} {value : Value}

/-- Whether a tree has the given value whatever it is evaluated against, and changes nothing. -/
def Expr.HasValue (σ : Type) (tree : Expr) (value : Value) : Prop :=
  ∀ (env : Environment σ) (frame : Frame σ),
    (evaluate env .standard tree).run frame = (.ok value, frame)

theorem hasValue_number (value : Value) : Expr.HasValue σ (.number value) value := by
  intro env frame
  rw [evaluate, Effect.run_boundDepth, eval]
  rfl

theorem hasValue_negate (x : Float) :
    Expr.HasValue σ (.operation .negate [.number (.float x)]) (.float (-x)) := by
  intro env frame
  rw [evaluate, Effect.run_boundDepth]
  simp only [eval, evalAll]
  rfl

theorem evaluateOnce_of_parse [Journal σ] {source : String} {options : Options}
    (h : parse .standard options.forceSemicolon (some source) = .ok tree)
    (hvalue : Expr.HasValue σ tree value) (registry : Registry σ) (overrides : Store) (host : σ) :
    Calculator.evaluateOnce (some source) options registry overrides host = (.ok value, host) := by
  have hcreate : (Calculator.create (some source) options : Except TextError (Calculator σ)) =
      .ok { Calculator.empty options with tree := some tree } := by
    rw [Calculator.create, Calculator.parse, Calculator.empty, h]
    rfl
  simp only [Calculator.evaluateOnce, hcreate, Calculator.evaluate, Calculator.requireTree,
    hvalue _ _]
  rfl

end Values

/-- The text of a finite float is a formula that has the float's value, and where the float has no
sign the formula is the float and nothing else. -/
theorem evaluateOnce_text [Journal σ] {x : Float} (h : Binary.isFinite x = true) :
    (∀ (options : Options) (registry : Registry σ) (overrides : Store) (host : σ), ∃ y,
      Calculator.evaluateOnce (some (Value.float x).text) options registry overrides host =
        (.ok (.float y), host) ∧ (y == x) = true) ∧
    (Binary.isNegative x = false → ∀ room force,
      parse room force (some (Value.float x).text) = .ok (.number (.float x))) := by
  obtain ⟨negative, significand, exponent, hparts⟩ := Binary.exists_parts_of_isFinite h
  obtain ⟨w, htext, hreads⟩ := toList_text hparts
  have hback := Binary.beq_of_parts hparts
  refine ⟨fun options registry overrides host => ?_, fun hsign room force => ?_⟩
  · by_cases hbelow : negative = true ∧ 0 < significand
    · rw [if_pos hbelow] at htext hback
      have hinner : Room.standard.enter? price.sign = some (.frames 984) := rfl
      have hparsed := parse_minus_numeral options.forceSemicolon hinner htext hreads.numeral
        hreads.reads
      exact ⟨_, evaluateOnce_of_parse hparsed (hasValue_negate _) registry overrides host, hback⟩
    · rw [if_neg hbelow] at htext hback
      have hparsed := parse_numeral .standard options.forceSemicolon htext hreads.numeral
        hreads.reads
      exact ⟨_, evaluateOnce_of_parse hparsed (hasValue_number _) registry overrides host, hback⟩
  · obtain ⟨hnumeral, hread⟩ := readNumeral_text h hsign
    exact parse_numeral room force rfl hnumeral hread

/-- An exponent with a sign of its own, behind a minus sign and without one. -/
theorem evaluateOnce_text_exponents :
    (∃ y, Calculator.evaluateOnce (some "-1e+16") ⟨false⟩ (.standard : Registry Unit) ∅ () =
        (.ok (.float y), ()) ∧ (y == Binary.nearest true (.ofScaled 1 10 16)) = true) ∧
      parse .standard true (some "2.5e-07") =
        .ok (.number (.float (Binary.nearest false (.ofScaled 25 10 (-8))))) := by
  have hlarge : Binary.isFinite (Binary.nearest true (.ofScaled 1 10 16)) = true := by
    decide +kernel
  have hsmall : Binary.isFinite (Binary.nearest false (.ofScaled 25 10 (-8))) = true := by
    decide +kernel
  have hsign : Binary.isNegative (Binary.nearest false (.ofScaled 25 10 (-8))) = false := by
    decide +kernel
  have hlargeText : (Value.float (Binary.nearest true (.ofScaled 1 10 16))).text = "-1e+16" := by
    decide +kernel
  have hsmallText : (Value.float (Binary.nearest false (.ofScaled 25 10 (-8)))).text =
      "2.5e-07" := by
    decide +kernel
  have hevaluated := (evaluateOnce_text hlarge).1 ⟨false⟩ (.standard : Registry Unit) ∅ ()
  have hparsed := (@evaluateOnce_text Unit _ _ hsmall).2 hsign .standard true
  rw [hlargeText] at hevaluated
  rw [hsmallText] at hparsed
  exact ⟨hevaluated, hparsed⟩

end Formula
