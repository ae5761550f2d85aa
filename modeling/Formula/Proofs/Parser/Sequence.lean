import Formula.Proofs.Parser.Alongside

namespace Formula

open TokenRule (standard tokensFrom)

variable {room : Room} {force : Bool} {s s' : String} {e e' : Expr}

theorem Expr.Comprises.length_pos {es : List Expr} (h : e.Comprises es) : 0 < es.length := by
  rcases h with rfl | ⟨-, hlength⟩
  · exact Nat.zero_lt_one
  · omega

theorem tokensFrom_semicolon (whole : String) (place : Text.Place) (text : List Char) :
    tokensFrom standard whole place (';' :: text) = do
      let tokens ← tokensFrom standard whole (place.advance [';']) text
      return ⟨.semicolon, ";", place⟩ :: tokens := by
  have hfirst : TokenRule.first? standard ([';'] ++ text) =
      some (.keep .semicolon (.char ';'), text) := rfl
  exact TokenRule.tokensFrom_taken (List.cons_ne_nil _ _) hfirst

/-- What follows a semicolon is read like a text of its own. -/
theorem statements_semicolon {semicolon : Token} {w w' : List Token} {others : List Expr}
    (hkind : semicolon.kind = .semicolon) (halong : Along [] w w')
    (h : Parser.statements room force true (.ofTokens s w) = .ok others) (separated : Bool)
    (start : Cursor) (hahead : start.ahead = semicolon :: w') (hlast : start.last.kind = .eof) :
    Parser.statements room force separated start = .ok others := by
  have htake : start.takeKind? .semicolon = some ⟨some semicolon, w', start.last⟩ :=
    Cursor.takeKind?_eq_some_iff.mpr
      ⟨semicolon, Cursor.take?_eq_some_iff.mpr ⟨hahead, rfl, rfl⟩, hkind⟩
  have hbehind : Alongside [] (.ofTokens s w) ⟨some semicolon, w', start.last⟩ := by
    refine ⟨?_, halong, rfl, hlast⟩
    simp [Cursor.behindOperator, Cursor.ofTokens, hkind, TokenKind.isOperator]
  have hothers := Parser.statements_alongside (by simp [Closes])
    (fun _ _ => Parser.statements_end) hbehind h
  rw [List.append_nil] at hothers
  rw [Parser.statements_of_semicolon htake]
  exact hothers

/-- Two texts that are formulas make one with a semicolon between them, in the same room: its
statements are those of the first and then those of the second one. -/
theorem parse_append (h : parse room force (some s) = .ok e)
    (h' : parse room force (some s') = .ok e') :
    ∃ es es', e.Comprises es ∧ e'.Comprises es' ∧
      parse room force (some (s ++ ";" ++ s')) = .ok (.block (es ++ es')) := by
  obtain ⟨first, es, hfirst, hes, hcomprises⟩ := parse_eq_ok_iff.mp h
  obtain ⟨second, es', hsecond, hes', hcomprises'⟩ := parse_eq_ok_iff.mp h'
  refine ⟨es, es', hcomprises, hcomprises', parse_eq_ok_iff.mpr ?_⟩
  have htext : (s ++ ";" ++ s').toList = s.toList ++ ';' :: s'.toList := by simp
  have hstart : Text.Place.start.position + 0 = Text.Place.start.position + 0 := rfl
  obtain ⟨left, hleft, hleftShifted⟩ :=
    TokenRule.exists_shifted (s ++ ";" ++ s') hstart hfirst
  -- the tokens of the second text move behind the first one and the semicolon
  obtain ⟨right, hright, hrightShifted⟩ := TokenRule.exists_shifted (s ++ ";" ++ s')
    (Nat.add_comm _ ((Text.Place.start.advance s.toList).advance [';']).position) hsecond
  have hrightAlong : Along [] second (right ++ []) :=
    .of_shifted hrightShifted fun token => TokenRule.kind_ne_eof_of_tokensFrom hsecond
  rw [List.append_nil] at hrightAlong
  let semicolon : Token := ⟨.semicolon, ";", Text.Place.start.advance s.toList⟩
  have hleftAlong : Along (semicolon :: right) first (left ++ semicolon :: right) :=
    .of_shifted hleftShifted fun token => TokenRule.kind_ne_eof_of_tokensFrom hfirst
  have hcloses : Closes (semicolon :: right) := by
    intro token htoken
    cases htoken
    rfl
  refine ⟨left ++ semicolon :: right, es ++ es', ?_, ?_, ?_⟩
  · rw [htext, TokenRule.tokensFrom_append (TokenRule.parts_semicolon s.toList), hleft,
      tokensFrom_semicolon, hright]
    rfl
  · exact Parser.statements_alongside hcloses (statements_semicolon rfl hrightAlong hes')
      hleftAlong.ofTokens hes
  · have hpositive := hcomprises.length_pos
    have hpositive' := hcomprises'.length_pos
    refine .inr ⟨rfl, ?_⟩
    rw [List.length_append]
    omega

end Formula
