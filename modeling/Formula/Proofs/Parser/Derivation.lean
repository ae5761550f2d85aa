import Formula.Proofs.Parser.Grammar
import Formula.Proofs.Parser.Reads
import Formula.Proofs.Parser.Spans

namespace Formula.Parser

open Grammar

theorem checkSign_eq_ok_iff {sign : Token} {cursor : Cursor} :
    checkSign sign cursor = .ok () ↔
      (cursor.behindOperator = true → cursor.following.position = sign.stop) := by
  unfold checkSign Cursor.behindOperator
  split
  next previous hprevious =>
    cases hoperator : previous.kind.isOperator <;> simp [hprevious, hoperator]
  next hnone => simp [hnone]

/-- The operators that go on with an operand of a power, of a product and of a sum. -/
def powerMarks : List TokenKind := [.power]

def productMarks : List TokenKind := [.power, .multiply, .divide, .modulo]

def sumMarks : List TokenKind := [.power, .multiply, .divide, .modulo, .plus, .minus]

/-- Whether an operand may end at a cursor where the given operators would go on with it. -/
structure Ends (marks : List TokenKind) (cursor : Cursor) : Prop where
  numeral : ∀ token, cursor.previous = some token → token.kind = .number →
    checkNumeral token cursor.current = .ok ()
  word : ∀ token, cursor.previous = some token → token.kind = .identifier →
    cursor.takeKind? .lparen = none
  next : ∀ token next, cursor.take? = some (token, next) → token.kind ∉ marks

namespace Ends

variable {marks fewer : List TokenKind} {cursor next : Cursor} {token : Token}

theorem mono (h : Ends marks cursor) (sub : fewer ⊆ marks) : Ends fewer cursor :=
  ⟨h.numeral, h.word, fun token next htake member => h.next token next htake (sub member)⟩

/-- A token that begins no operand leaves what stands before it alone. -/
theorem of_take? (htake : cursor.take? = some (token, next)) (hmarks : token.kind ∉ marks)
    (hnumber : token.kind ≠ .number) (hidentifier : token.kind ≠ .identifier)
    (hparen : token.kind ≠ .lparen) : Ends marks cursor where
  numeral previous _ _ := by
    rw [Cursor.current_of_take? htake, checkNumeral]
    simp [hnumber, hidentifier]
  word previous _ _ := by
    refine Cursor.takeKind?_eq_none_iff.mpr fun other rest hother => ?_
    cases htake.symm.trans hother
    exact hparen
  next other rest hother := by
    cases htake.symm.trans hother
    exact hmarks

theorem of_takeKind? {kind : TokenKind} (h : cursor.takeKind? kind = some next)
    (hmarks : kind ∉ marks) (hkind : kind ≠ .number ∧ kind ≠ .identifier ∧ kind ≠ .lparen) :
    Ends marks cursor := by
  obtain ⟨token, htake, rfl⟩ := Cursor.takeKind?_eq_some_iff.mp h
  exact of_take? htake hmarks hkind.1 hkind.2.1 hkind.2.2

/-- Behind a closing parenthesis there is neither a numeral nor a word to go on with. -/
theorem of_previous (hprevious : cursor.previous = some token) (hkind : token.kind = .rparen) :
    Ends [] cursor where
  numeral other hother hnumber := by
    cases hprevious.symm.trans hother
    cases hkind.symm.trans hnumber
  word other hother hidentifier := by
    cases hprevious.symm.trans hother
    cases hkind.symm.trans hidentifier
  next _ _ _ := by simp

end Ends

/-- What may come next behind a step. The rest of a chain may take nothing, so it can only rely on
what holds where it begins. -/
def Reading.Ending : Reading → Cursor → Cursor → Prop
  | .sum _, _, stop => Ends sumMarks stop
  | .sumRest _ _, start, stop => Ends productMarks start → Ends sumMarks stop
  | .product _, _, stop => Ends productMarks stop
  | .productRest _ _, start, stop => Ends powerMarks start → Ends productMarks stop
  | .unary _, _, stop | .power _, _, stop => Ends powerMarks stop
  | .primary _, _, stop => Ends [] stop
  | .arguments _, _, _ | .argumentsRest _, _, _ => True

theorem Reads.ending {reading : Reading} {start stop : Cursor} (h : Reads reading start stop) :
    reading.Ending start stop := by
  induction h with
  | sum _ _ ihFirst ihRest => exact ihRest ihFirst
  | summand _ _ _ _ ihOperand ihRest => exact fun _ => ihRest ihOperand
  | sumEnd hend =>
    intro hstart
    refine ⟨hstart.numeral, hstart.word, fun token next htake member => ?_⟩
    have hproduct := hstart.next token next htake
    have hsum := hend token next htake
    simp only [productMarks, sumMarks, List.mem_cons, List.not_mem_nil, or_false] at hproduct member
    grind
  | product _ _ ihFirst ihRest => exact ihRest ihFirst
  | factor _ _ _ _ ihOperand ihRest => exact fun _ => ihRest ihOperand
  | productEnd hend =>
    intro hstart
    refine ⟨hstart.numeral, hstart.word, fun token next htake member => ?_⟩
    have hpower := hstart.next token next htake
    have hproduct := hend token next htake
    simp only [powerMarks, productMarks, List.mem_cons, List.not_mem_nil, or_false] at hpower member
    grind
  | sign _ _ _ _ ih => exact ih
  | unsigned _ _ ih => exact ih
  | raised _ _ _ _ ihExponent => exact ihExponent
  | unraised _ hnone ih =>
    refine ⟨ih.numeral, ih.word, fun token next htake member => ?_⟩
    exact Cursor.takeKind?_eq_none_iff.mp hnone token next htake (List.mem_singleton.mp member)
  | number htake hkind hnumeral _ =>
    have hprevious := (Cursor.take?_eq_some_iff.mp htake).2.1
    refine ⟨fun token htoken _ => ?_, fun token htoken hidentifier => ?_, fun _ _ _ => by simp⟩
    · cases hprevious.symm.trans htoken
      exact hnumeral
    · cases hprevious.symm.trans htoken
      cases hkind.symm.trans hidentifier
  | reference htake hkind hnone =>
    have hprevious := (Cursor.take?_eq_some_iff.mp htake).2.1
    refine ⟨fun token htoken hnumber => ?_, fun _ _ _ => hnone, fun _ _ _ => by simp⟩
    cases hprevious.symm.trans htoken
    cases hkind.symm.trans hnumber
  | call _ _ _ _ hclose _ | parenthesis _ _ _ hclose _ =>
    obtain ⟨token, htake, hkind⟩ := Cursor.takeKind?_eq_some_iff.mp hclose
    exact .of_previous (Cursor.take?_eq_some_iff.mp htake).2.1 hkind
  | noArguments _ | arguments _ _ _ _ _ | argument _ _ _ _ _ | argumentsEnd _ => trivial

theorem derives_sumOf {b : Bool} {w : List Token} {es : List Expr}
    (h : Derives b w (.summands es)) : Derives b w (.sum (sumOf es)) := by
  match es with
  | [] => exact absurd rfl h.summands_ne_nil
  | [e] => exact .onlySummand h
  | first :: second :: rest => exact .sum h (by simp)

theorem derives_productOf {b : Bool} {w : List Token} {es : List Expr}
    (h : Derives b w (.factors es)) : Derives b w (.product (productOf es)) := by
  match es with
  | [] => exact absurd rfl h.factors_ne_nil
  | [e] => exact .onlyFactor h
  | first :: second :: rest => exact .product h (by simp)

theorem derives_summand {b : Bool} {u w : List Token} {token : Token} {es : List Expr} {e : Expr}
    (hkind : token.kind = .plus ∨ token.kind = .minus) (hfirst : Derives b u (.summands es))
    (hlast : Derives true w (.product e)) :
    Derives b (u ++ token :: w) (.summands (es ++ [summand token.kind e])) := by
  rcases hkind with hkind | hkind <;> rw [hkind]
  · exact .plus hfirst hkind hlast
  · exact .minus hfirst hkind hlast

theorem derives_factor {b : Bool} {u w : List Token} {token : Token} {es : List Expr} {e : Expr}
    (hkind : token.kind = .multiply ∨ token.kind = .divide ∨ token.kind = .modulo)
    (hfirst : Derives b u (.factors es)) (hlast : Derives true w (.unary e)) :
    Derives b (u ++ token :: w) (.factors (withFactor es token.kind e)) := by
  rcases hkind with hkind | hkind | hkind <;> rw [hkind]
  · exact .times hfirst hkind hlast
  · exact .divide hfirst hkind hlast
  · exact .modulo (derives_productOf hfirst) hkind hlast

/-- What a step takes is a phrase. The rest of a chain goes on with any phrase that it may find
before it. -/
def Reading.Derived : Reading → Cursor → Cursor → Prop
  | .sum e, start, stop => ∃ w, Spans start w stop ∧ Derives start.behindOperator w (.sum e)
  | .sumRest operands e, start, stop => ∃ w, Spans start w stop ∧
    ∀ b u, Derives b u (.summands operands) → Derives b (u ++ w) (.sum e)
  | .product e, start, stop =>
    ∃ w, Spans start w stop ∧ Derives start.behindOperator w (.product e)
  | .productRest factors e, start, stop => ∃ w, Spans start w stop ∧
    ∀ b u, Derives b u (.factors factors) → Derives b (u ++ w) (.product e)
  | .unary e, start, stop => ∃ w, Spans start w stop ∧ Derives start.behindOperator w (.unary e)
  | .power e, start, stop => ∃ w, Spans start w stop ∧ Derives start.behindOperator w (.power e)
  | .primary e, start, stop =>
    ∃ w, Spans start w stop ∧ Derives start.behindOperator w (.primary e)
  | .arguments es, start, stop => start.behindOperator = false →
    ∃ w, Spans start w stop ∧ (w = [] ∧ es = [] ∨ Derives false w (.arguments es))
  | .argumentsRest es, start, stop => ∃ w, Spans start w stop ∧
    ∀ u e, Derives false u (.sum e) → Derives false (u ++ w) (.arguments (e :: es))

theorem Reads.derived {reading : Reading} {start stop : Cursor} (h : Reads reading start stop) :
    reading.Derived start stop := by
  induction h with
  | sum _ _ ihFirst ihRest =>
    obtain ⟨w, hw, hproduct⟩ := ihFirst
    obtain ⟨v, hv, hrest⟩ := ihRest
    exact ⟨w ++ v, hw.append hv, hrest _ _ (.summand hproduct)⟩
  | @summand operands operand e token start next middle stop htake hkind _ _ ihOperand ihRest =>
    obtain ⟨w, hw, hproduct⟩ := ihOperand
    obtain ⟨v, hv, hrest⟩ := ihRest
    have hbehind : next.behindOperator = true := by
      rw [Cursor.behindOperator_of_take? htake]
      rcases hkind with hkind | hkind <;> rw [hkind] <;> rfl
    rw [hbehind] at hproduct
    refine ⟨token :: (w ++ v), .cons htake (hw.append hv), fun b u hu => ?_⟩
    simpa using hrest _ _ (derives_summand hkind hu hproduct)
  | sumEnd _ => exact ⟨[], .refl _, fun b u hu => by simpa using derives_sumOf hu⟩
  | product _ _ ihFirst ihRest =>
    obtain ⟨w, hw, hunary⟩ := ihFirst
    obtain ⟨v, hv, hrest⟩ := ihRest
    exact ⟨w ++ v, hw.append hv, hrest _ _ (.factor hunary)⟩
  | @factor factors operand e token start next middle stop htake hkind _ _ ihOperand ihRest =>
    obtain ⟨w, hw, hunary⟩ := ihOperand
    obtain ⟨v, hv, hrest⟩ := ihRest
    have hbehind : next.behindOperator = true := by
      rw [Cursor.behindOperator_of_take? htake]
      rcases hkind with hkind | hkind | hkind <;> rw [hkind] <;> rfl
    rw [hbehind] at hunary
    refine ⟨token :: (w ++ v), .cons htake (hw.append hv), fun b u hu => ?_⟩
    simpa using hrest _ _ (derives_factor hkind hu hunary)
  | productEnd _ => exact ⟨[], .refl _, fun b u hu => by simpa using derives_productOf hu⟩
  | @sign operand token start next stop htake hkind hsign _ ih =>
    obtain ⟨w, hw, hunary⟩ := ih
    have hbehind : next.behindOperator = true := by
      rw [Cursor.behindOperator_of_take? htake]
      rcases hkind with hkind | hkind <;> rw [hkind] <;> rfl
    rw [hbehind] at hunary
    have htouches : start.behindOperator = true →
        ∃ first, w.head? = some first ∧ Touches token first := by
      intro hstart
      obtain ⟨first, rest, rfl, -⟩ := hunary.starts
      refine ⟨first, rfl, ?_⟩
      have hposition := checkSign_eq_ok_iff.mp hsign hstart
      rwa [Cursor.following_of_take? htake, hw.current] at hposition
    refine ⟨token :: w, .cons htake hw, ?_⟩
    rcases hkind with hkind | hkind <;> rw [hkind]
    · exact .negative hkind htouches hunary
    · exact .positive hkind htouches hunary
  | unsigned _ _ ih =>
    obtain ⟨w, hw, hpower⟩ := ih
    exact ⟨w, hw, .unsigned hpower⟩
  | raised _ hpower _ ihBase ihExponent =>
    obtain ⟨operator, htake, hkind⟩ := Cursor.takeKind?_eq_some_iff.mp hpower
    obtain ⟨w, hw, hprimary⟩ := ihBase
    obtain ⟨v, hv, hunary⟩ := ihExponent
    rw [Cursor.behindOperator_of_take? htake, hkind] at hunary
    exact ⟨w ++ operator :: v, hw.append (.cons htake hv), .power hprimary hkind hunary⟩
  | unraised _ _ ih =>
    obtain ⟨w, hw, hprimary⟩ := ih
    exact ⟨w, hw, .base hprimary⟩
  | number htake hkind _ hx => exact ⟨_, .single htake, .number hkind hx⟩
  | reference htake hkind _ => exact ⟨_, .single htake, .reference hkind⟩
  | @call es name start next inside behind stop htake hkind hopen _ hclose ih =>
    obtain ⟨opening, hopening, hparen⟩ := Cursor.takeKind?_eq_some_iff.mp hopen
    obtain ⟨closing, hclosing, hclosed⟩ := Cursor.takeKind?_eq_some_iff.mp hclose
    have hbehind : inside.behindOperator = false := by
      rw [Cursor.behindOperator_of_take? hopening, hparen]
      rfl
    obtain ⟨w, hw, hcases⟩ := ih hbehind
    refine ⟨name :: opening :: (w ++ [closing]),
      .cons htake (.cons hopening (hw.append (.single hclosing))), ?_⟩
    rcases hcases with ⟨rfl, rfl⟩ | harguments
    · exact .emptyCall hkind hparen hclosed
    · exact .call hkind hparen harguments hclosed
  | parenthesis htake hkind _ hclose ih =>
    obtain ⟨closing, hclosing, hclosed⟩ := Cursor.takeKind?_eq_some_iff.mp hclose
    obtain ⟨w, hw, hsum⟩ := ih
    rw [Cursor.behindOperator_of_take? htake, hkind] at hsum
    exact ⟨_, .cons htake (hw.append (.single hclosing)), .parenthesis hkind hsum hclosed⟩
  | noArguments _ => exact fun _ => ⟨[], .refl _, .inl ⟨rfl, rfl⟩⟩
  | arguments _ _ _ ihFirst ihRest =>
    intro hbehind
    obtain ⟨w, hw, hsum⟩ := ihFirst
    obtain ⟨v, hv, hrest⟩ := ihRest
    rw [hbehind] at hsum
    exact ⟨w ++ v, hw.append hv, .inr (hrest w _ hsum)⟩
  | argument hcomma _ _ ihFirst ihRest =>
    obtain ⟨comma, htake, hkind⟩ := Cursor.takeKind?_eq_some_iff.mp hcomma
    obtain ⟨w, hw, hsum⟩ := ihFirst
    obtain ⟨v, hv, hrest⟩ := ihRest
    rw [Cursor.behindOperator_of_take? htake, hkind] at hsum
    refine ⟨comma :: (w ++ v), .cons htake (hw.append hv), fun u e hu => ?_⟩
    exact .arguments hu hkind (hrest w _ hsum)
  | argumentsEnd _ => exact ⟨[], .refl _, fun u e hu => by simpa using .argument hu⟩

end Formula.Parser
