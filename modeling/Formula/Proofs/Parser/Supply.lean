import Formula.Proofs.Parser.Assignable
import Formula.Proofs.Token.Cut

namespace Formula

open Grammar TokenRule

/-- What may be put at a place to complete a phrase there, with its tokens: an operand if one is
missing, and closing parentheses. -/
inductive Supplies (place : Text.Place) : List Char → List Token → Prop where
  | nil : Supplies place [] []
  | operand : Supplies place ['(', '1', ')']
      [⟨.lparen, "(", place⟩, ⟨.number, "1", place.advance ['(']⟩,
        ⟨.rparen, ")", place.advance ['(', '1']⟩]
  | close {text : List Char} {q : List Token} : Supplies place text q →
      Supplies place (text ++ [')']) (q ++ [⟨.rparen, ")", place.advance text⟩])

namespace Supplies

variable {place : Text.Place} {text : List Char} {q : List Token}

theorem tokensFrom_operand (whole : String) :
    tokensFrom standard whole place ['(', '1', ')'] =
      .ok [⟨.lparen, "(", place⟩, ⟨.number, "1", place.advance ['(']⟩,
        ⟨.rparen, ")", place.advance ['(', '1']⟩] := by
  have hdigit : first? standard (['1'] ++ [')']) = some (keep .number numeral, _) := rfl
  rw [tokensFrom_lparen, show ['1', ')'] = ['1'] ++ [')'] from rfl,
    tokensFrom_taken (by simp) hdigit, tokensFrom_rparen, tokensFrom_nil]
  rfl

protected theorem tokensFrom (h : Supplies place text q) (whole : String) :
    tokensFrom standard whole place text = .ok q := by
  induction h with
  | nil => exact tokensFrom_nil
  | operand => exact tokensFrom_operand whole
  | close _ ih =>
    rw [tokensFrom_append (parts_rparen _), ih, tokensFrom_rparen, tokensFrom_nil]
    rfl

/-- A supply begins with a parenthesis, which parts it from anything before it. -/
theorem parts (h : Supplies place text q) {d : Char} {more : List Char} (hd : text = d :: more)
    (before : List Char) : Parts standard d before := by
  have hhead : ∀ d, text.head? = some d → d = '(' ∨ d = ')' := by
    clear hd
    induction h with
    | nil => simp
    | operand => simp
    | @close text _ _ ih =>
      cases text with
      | nil => simp
      | cons c text => exact ih
  rcases hhead d (by rw [hd]; rfl) with rfl | rfl
  · exact parts_lparen before
  · exact parts_rparen before

/-- A supply has the tokens of its own, whatever stands before it. -/
theorem tokensFrom_behind {whole : String} {before : List Char} {p : List Token}
    (h : Supplies (place.advance before) text q)
    (hbefore : tokensFrom standard whole place before = .ok p) :
    tokensFrom standard whole place (before ++ text) = .ok (p ++ q) := by
  have hsupply := h.tokensFrom whole
  cases text with
  | nil =>
    obtain rfl : [] = q := Except.ok.inj (tokensFrom_nil.symm.trans hsupply)
    simpa using hbefore
  | cons d more =>
    rw [tokensFrom_append (h.parts rfl before), hbefore, hsupply]
    rfl

theorem position (h : Supplies place text q) {token : Token} (hhead : q.head? = some token) :
    token.position = place.position := by
  induction h with
  | nil => cases hhead
  | operand =>
    cases hhead
    rfl
  | @close text q hbefore ih =>
    cases hbefore with
    | nil =>
      cases hhead
      rfl
    | operand => exact ih hhead
    | close _ => exact ih (by simpa using hhead)

/-- Where an operand is missing one can be supplied. -/
theorem exists_operand (place : Text.Place) :
    ∃ text q e, Supplies place text q ∧ ∀ b, Derives b q (.primary e) := by
  obtain ⟨x, hx⟩ := Option.isSome_iff_exists.mp
    (show (Decimal.readNumeral false "1".toList).isSome from by decide +kernel)
  refine ⟨_, _, .number (.float x), .operand, fun b => ?_⟩
  exact .parenthesis (w := [_]) rfl
    (derives_sum_of_unary (.unsigned (.base (.number rfl hx)))) rfl

end Supplies

namespace Parser

variable {start middle next stop : Cursor} {token : Token} {w : List Token}
  {good good' : List Token → Prop}

/-- What stands between a cursor and a token can be completed to a good run of tokens. -/
def Viable (good : List Token → Prop) (start : Cursor) (token : Token) : Prop :=
  ∃ p text q stop, Spans start p stop ∧ stop.current = token ∧
    Supplies token.place text q ∧ good (p ++ q)

namespace Viable

theorem mono (h : Viable good' start token) (hgood : ∀ w, good' w → good w) :
    Viable good start token := by
  obtain ⟨p, text, q, stop, hp, hstop, hq, h⟩ := h
  exact ⟨p, text, q, stop, hp, hstop, hq, hgood _ h⟩

theorem after (hw : Spans start w middle) (h : Viable good' middle token)
    (hgood : ∀ v, good' v → good (w ++ v)) : Viable good start token := by
  obtain ⟨p, text, q, stop, hp, hstop, hq, h⟩ := h
  refine ⟨w ++ p, text, q, stop, hw.append hp, hstop, hq, ?_⟩
  rw [List.append_assoc]
  exact hgood _ h

/-- A closing parenthesis may be supplied at the end. -/
theorem enclosed (hw : Spans start w middle) (h : Viable good' middle token)
    (hgood : ∀ v closing, closing.kind = .rparen → good' v → good (w ++ (v ++ [closing]))) :
    Viable good start token := by
  obtain ⟨p, text, q, stop, hp, hstop, hq, h⟩ := h
  refine ⟨w ++ p, _, _, stop, hw.append hp, hstop, hq.close, ?_⟩
  rw [List.append_assoc, ← List.append_assoc p]
  exact hgood _ _ rfl h

/-- What is complete already needs no supply. -/
theorem complete (hw : Spans start w stop) (h : good w) : Viable good start stop.current :=
  ⟨w, [], [], stop, hw, rfl, .nil, by rwa [List.append_nil]⟩

/-- Where nothing is taken yet an operand is supplied. -/
theorem missing (start : Cursor) (hgood : ∀ w e, (∀ b, Derives b w (.primary e)) → good w) :
    Viable good start start.current := by
  obtain ⟨text, q, e, hq, hderives⟩ := Supplies.exists_operand start.current.place
  exact ⟨[], text, q, start, .refl start, rfl, hq, hgood q e hderives⟩

/-- What is completed begins where the next token does, also where all of it is supplied. -/
theorem position (h : Viable good start token) :
    Viable (fun w => good w ∧ ∀ first, w.head? = some first →
      first.position = start.current.position) start token := by
  obtain ⟨p, text, q, stop, hp, hstop, hq, h⟩ := h
  refine ⟨p, text, q, stop, hp, hstop, hq, h, fun first hfirst => ?_⟩
  cases p with
  | nil =>
    rw [hq.position hfirst, ← hstop, hp.eq_of_nil]
    rfl
  | cons other p =>
    cases hfirst
    rw [hp.current]

end Viable

/-- A complaint is about a token up to which everything can be completed, or about the operator
before, which lacks an operand. -/
def Blames (good : List Token → Prop) (start : Cursor) (token : Token) : Prop :=
  Viable good start token ∨ start.previous = some token ∧ token.kind.isOperator = true

namespace Blames

theorem mono (h : Blames good' start token) (hgood : ∀ w, good' w → good w) :
    Blames good start token :=
  h.imp_left fun hviable => hviable.mono hgood

theorem viable (h : Blames good start token) (hbehind : start.behindOperator = false) :
    Viable good start token := by
  refine h.resolve_right fun ⟨hprevious, hkind⟩ => ?_
  rw [Cursor.behindOperator, hprevious, Option.any_some, hkind] at hbehind
  cases hbehind

/-- An operator that lacks its operand is blamed itself, so what stands before it is to be good. -/
theorem behind {operator : Token} (htake : start.take? = some (operator, next))
    (h : Blames good' next token) (hgood : ∀ v, good' v → good (operator :: v))
    (hbefore : Viable good start operator) : Viable good start token := by
  rcases h with h | ⟨hprevious, -⟩
  · exact h.after (.single htake) hgood
  · cases (Cursor.take?_eq_some_iff.mp htake).2.1.symm.trans hprevious
    exact hbefore

end Blames

end Parser

end Formula
