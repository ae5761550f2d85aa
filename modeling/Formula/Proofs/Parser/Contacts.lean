import Formula.Proofs.Effect
import Formula.Proofs.Parser.Grammar
import Formula.Proofs.Parser.Spans
import Formula.Proofs.Token.Seams

namespace Formula

open Grammar (Touches)

/-- The second run has the kinds, texts and contacts of the first one, and a tail behind it. -/
inductive Along (tail : List Token) : List Token → List Token → Prop where
  | done : Along tail [] tail
  | more {token token' : Token} {w w' : List Token} :
    token.kind ≠ .eof → token.kind = token'.kind → token.text = token'.text →
    (∀ next next', w.head? = some next → w'.head? = some next' →
      (Touches token next ↔ Touches token' next')) →
    Along tail w w' → Along tail (token :: w) (token' :: w')

namespace Along

variable {tail v v' w w' : List Token}

theorem of_shifted {n n' : Nat} (h : List.Forall₂ (Token.Shifted n n') w w')
    (hplain : ∀ token ∈ w, token.kind ≠ .eof) : Along tail w (w' ++ tail) := by
  induction h with
  | nil => exact .done
  | @cons token token' rest rest' hfirst hrest ih =>
    obtain ⟨hplainFirst, hplainRest⟩ := List.forall_mem_cons.mp hplain
    refine .more hplainFirst hfirst.kind hfirst.text (fun next next' hnext hnext' => ?_)
      (ih hplainRest)
    cases hrest with
    | nil => cases hnext
    | @cons second second' _ _ hsecond _ =>
      cases hnext
      cases hnext'
      have hposition := hfirst.position
      have hposition' := hsecond.position
      unfold Touches Token.stop
      rw [hfirst.text]
      omega

/-- Runs may be put together where neither pair of them touches. -/
theorem append (h : Along [] v v') (hrest : Along tail w w')
    (hapart : ∀ token ∈ v, ∀ next ∈ w, ¬ Touches token next)
    (hapart' : ∀ token ∈ v', ∀ next ∈ w', ¬ Touches token next) :
    Along tail (v ++ w) (v' ++ w') := by
  induction h with
  | done => exact hrest
  | @more token token' rest rest' hplain hkind htext htouches hothers ih =>
    obtain ⟨hfirst, hlater⟩ := List.forall_mem_cons.mp hapart
    obtain ⟨hfirst', hlater'⟩ := List.forall_mem_cons.mp hapart'
    refine .more hplain hkind htext (fun next next' hnext hnext' => ?_) (ih hlater hlater')
    cases hothers with
    | done =>
      -- only here does a token of the first pair of runs meet one of the second pair
      have hno := hfirst next (List.mem_of_mem_head? hnext)
      have hno' := hfirst' next' (List.mem_of_mem_head? hnext')
      exact iff_of_false hno hno'
    | more => exact htouches next next' hnext hnext'

theorem symm (h : Along [] w w') : Along [] w' w := by
  induction h with
  | done => exact .done
  | more hplain hkind htext htouches _ ih =>
    exact .more (hkind ▸ hplain) hkind.symm htext.symm
      (fun next next' hnext hnext' => (htouches next' next hnext' hnext).symm) ih

end Along

/-- The results of two computations are related wherever the first one has a result. -/
def Carries {ε α α' : Type} (R : α → α' → Prop) (x : Except ε α) (x' : Except ε α') : Prop :=
  ∀ value, x = .ok value → ∃ value', x' = .ok value' ∧ R value value'

namespace Carries

variable {ε α α' β β' : Type} {R : α → α' → Prop} {S : β → β' → Prop} {x : Except ε α}
  {x' : Except ε α'}

protected theorem pure {value : α} {value' : α'} (h : R value value') :
    Carries R (pure value : Except ε α) (pure value' : Except ε α') := by
  intro result hresult
  cases hresult
  exact ⟨value', rfl, h⟩

protected theorem error {e : ε} : Carries R (.error e : Except ε α) x' := by
  intro result hresult
  cases hresult

protected theorem bind {next : α → Except ε β} {next' : α' → Except ε β'} (h : Carries R x x')
    (hnext : ∀ value value', R value value' → Carries S (next value) (next' value')) :
    Carries S (x >>= next) (x' >>= next') := by
  intro result hresult
  obtain ⟨value, hvalue, hresult⟩ := exists_of_bind_eq_ok hresult
  obtain ⟨value', hvalue', hrelated⟩ := h value hvalue
  obtain ⟨result', hresult', hsame⟩ := hnext value value' hrelated result hresult
  refine ⟨result', ?_, hsame⟩
  rw [hvalue']
  exact hresult'

theorem of_ok (h : ∀ value, x = .ok value → Carries R x x') : Carries R x x' :=
  fun value hvalue => h value hvalue value hvalue

end Carries

/-- Cursors with tokens ahead that the parser cannot tell apart. -/
structure Alongside (tail : List Token) (start start' : Cursor) : Prop where
  behind : start.behindOperator = start'.behindOperator
  ahead : Along tail start.ahead start'.ahead
  last : start.last.kind = .eof
  last' : start'.last.kind = .eof

/-- Cursors behind tokens that the parser cannot tell apart, with such tokens ahead. -/
structure Abreast (tail : List Token) (stop stop' : Cursor) : Prop where
  around : ∃ token token', stop.previous = some token ∧ stop'.previous = some token' ∧
    Along tail (token :: stop.ahead) (token' :: stop'.ahead)
  last : stop.last.kind = .eof
  last' : stop'.last.kind = .eof

/-- Whether nothing or a semicolon begins a run. -/
def Closes (tail : List Token) : Prop :=
  ∀ token, tail.head? = some token → token.kind = .semicolon

variable {tail : List Token} {start start' next next' stop stop' : Cursor} {token token' : Token}

namespace Abreast

theorem alongside (h : Abreast tail stop stop') : Alongside tail stop stop' := by
  obtain ⟨⟨token, token', hprevious, hprevious', hahead⟩, hlast, hlast'⟩ := h
  cases hahead with
  | more _ hkind _ _ hrest =>
    refine ⟨?_, hrest, hlast, hlast'⟩
    rw [Cursor.behindOperator, Cursor.behindOperator, hprevious, hprevious']
    simp [hkind]

theorem touches (h : Abreast tail stop stop') (hprevious : stop.previous = some token)
    (hprevious' : stop'.previous = some token') (hne : stop.ahead ≠ []) :
    Touches token stop.current ↔ Touches token' stop'.current := by
  obtain ⟨before, before', hbefore, hbefore', hahead⟩ := h.around
  cases hbefore.symm.trans hprevious
  cases hbefore'.symm.trans hprevious'
  cases hahead with
  | more _ _ _ htouches hrest =>
    unfold Cursor.current
    generalize stop.ahead = w at hrest hne htouches ⊢
    generalize stop'.ahead = w' at hrest htouches ⊢
    cases hrest with
    | done => exact absurd rfl hne
    | more => exact htouches _ _ rfl rfl

end Abreast

namespace Alongside

section Taking

variable (h : Alongside tail start start')
include h

theorem take? (htake : start.take? = some (token, next)) :
    ∃ token' next', start'.take? = some (token', next') ∧ token.kind = token'.kind ∧
      token.text = token'.text ∧ Abreast tail next next' := by
  obtain ⟨hahead, hprevious, hlast⟩ := Cursor.take?_eq_some_iff.mp htake
  have halong := h.ahead
  rw [hahead] at halong
  generalize hahead' : start'.ahead = w' at halong
  cases halong with
  | @more _ token' _ rest' hplain hkind htext htouches hrest =>
    refine ⟨token', ⟨some token', rest', start'.last⟩, ?_, hkind, htext, ?_, ?_, h.last'⟩
    · exact Cursor.take?_eq_some_iff.mpr ⟨hahead', rfl, rfl⟩
    · exact ⟨token, token', hprevious, rfl, .more hplain hkind htext htouches hrest⟩
    · rw [hlast]
      exact h.last

theorem takeKind? {kind : TokenKind} (htake : start.takeKind? kind = some next) :
    ∃ next', start'.takeKind? kind = some next' ∧ Abreast tail next next' := by
  obtain ⟨token, htoken, hkind⟩ := Cursor.takeKind?_eq_some_iff.mp htake
  obtain ⟨token', next', htoken', hsame, -, habreast⟩ := h.take? htoken
  refine ⟨next', Cursor.takeKind?_eq_some_iff.mpr ⟨token', htoken', ?_⟩, habreast⟩
  rw [← hsame, hkind]

theorem take?_of_ahead (hne : start.ahead ≠ []) (htake' : start'.take? = some (token', next')) :
    ∃ token next, start.take? = some (token, next) ∧ token.kind = token'.kind := by
  obtain ⟨token, rest, hahead⟩ := List.exists_cons_of_ne_nil hne
  have htake : start.take? = some (token, ⟨some token, rest, start.last⟩) :=
    Cursor.take?_eq_some_iff.mpr ⟨hahead, rfl, rfl⟩
  obtain ⟨other, _, hother, hkind, -⟩ := h.take? htake
  cases htake'.symm.trans hother
  exact ⟨token, _, htake, hkind⟩

theorem ahead_of_nil (hnil : start.ahead = []) : start'.ahead = tail := by
  have halong := h.ahead
  rw [hnil] at halong
  generalize start'.ahead = w' at halong
  cases halong
  rfl

end Taking

section Closing

variable (hcloses : Closes tail) (h : Alongside tail start start')
include hcloses h

/-- Where the first cursor is at its end, the second one is at its own or before a semicolon. -/
theorem current_cases :
    (start.ahead ≠ [] ∧ start.current.kind ≠ .eof ∧
        start.current.kind = start'.current.kind) ∨
      start.ahead = [] ∧ start.current.kind = .eof ∧
        (start'.current.kind = .eof ∨ start'.current.kind = .semicolon) := by
  have halong := h.ahead
  unfold Cursor.current
  generalize start.ahead = w at halong ⊢
  generalize start'.ahead = w' at halong ⊢
  cases halong with
  | done =>
    refine .inr ⟨rfl, h.last, ?_⟩
    cases tail with
    | nil => exact .inl h.last'
    | cons token rest => exact .inr (hcloses token rfl)
  | more hplain hkind => exact .inl ⟨List.cons_ne_nil _ _, hplain, hkind⟩

/-- A kind that ends no run is that of both current tokens or of none. -/
theorem current_iff (kind : TokenKind) (heof : kind ≠ .eof) (hsemicolon : kind ≠ .semicolon) :
    start'.current.kind = kind ↔ start.current.kind = kind := by
  rcases h.current_cases hcloses with ⟨-, -, hsame⟩ | ⟨-, hend, hend' | hend'⟩
  · rw [hsame]
  · rw [hend, hend']
  · rw [hend, hend']
    exact iff_of_false hsemicolon.symm heof.symm

theorem take?_not {p : TokenKind → Prop} (hp : ¬ p .semicolon)
    (hnot : ∀ token next, start.take? = some (token, next) → ¬ p token.kind) :
    ∀ token next, start'.take? = some (token, next) → ¬ p token.kind := by
  intro token' next' htake'
  by_cases hnil : start.ahead = []
  · have htail := (Cursor.take?_eq_some_iff.mp htake').1
    rw [h.ahead_of_nil hnil] at htail
    have hkind := hcloses token' (by rw [htail]; rfl)
    rwa [hkind]
  · obtain ⟨token, next, htake, hkind⟩ := h.take?_of_ahead hnil htake'
    have hfirst := hnot token next htake
    rwa [hkind] at hfirst

theorem takeKind?_none {kind : TokenKind} (hsemicolon : kind ≠ .semicolon)
    (hnone : start.takeKind? kind = none) : start'.takeKind? kind = none := by
  rw [Cursor.takeKind?_eq_none_iff] at hnone ⊢
  exact h.take?_not hcloses (p := (· = kind)) hsemicolon.symm hnone

end Closing

end Alongside

end Formula
