import Formula.Proofs.Parser.Alongside
import Formula.Proofs.Token.Longest

namespace Formula

namespace TokenRule

variable {w : List Char} {whole : String} {place : Text.Place}

theorem first?_numeral (h : IsNumeral w) :
    first? standard w = some (keep .number numeral, []) := by
  have hrule := numeral_mem_standard
  have hword : (keep .number numeral).pattern.Matches w := matches_numeral_iff.mpr h
  obtain ⟨after, hafter, hle⟩ := length_le_of_matches hrule hword []
  rw [List.append_nil] at hafter
  obtain ⟨⟨rule, rest⟩, hfirst⟩ : ∃ found, first? standard w = some found := by
    rw [← Option.isSome_iff_exists, first?, List.isSome_findSome?, List.any_eq_true]
    exact ⟨_, hrule, by rw [hafter]; rfl⟩
  obtain ⟨taken, hmatch⟩ := longestMatch_of_first? hfirst
  have hrest := hmatch.others _ hrule after hafter
  obtain rfl : rest = [] := List.eq_nil_of_length_eq_zero (Nat.eq_zero_of_le_zero
    (Nat.le_trans hrest hle))
  obtain ⟨member, found, heq, hmatches⟩ := exists_of_first? hfirst
  rw [List.append_nil] at heq
  subst heq
  -- the first character tells that the rule is the one of numerals
  obtain ⟨c, others, rfl, hc⟩ := exists_leading hrule hword
  have hleading := hc.symm.trans (leading_of_begins member hmatches.begins)
  have hkind : rule.kind = .number := by
    split at hleading
    next hmultiply => cases hmultiply
    next =>
      split at hleading
      next => cases hleading
      next => exact hleading.symm
  have heach : ∀ rule ∈ standard, rule.kind = .number → rule = keep .number numeral := by
    simp [standard, keep, skip]
  rw [hfirst, heach rule member hkind]

theorem tokensFrom_numeral (h : IsNumeral w) :
    tokensFrom standard whole place w = .ok [⟨.number, String.ofList w, place⟩] := by
  have hrule := numeral_mem_standard
  have hne : w ≠ [] := ne_nil_of_matches hrule (matches_numeral_iff.mpr h)
  have hfirst : first? standard (w ++ []) = some (keep .number numeral, []) := by
    rw [List.append_nil]
    exact first?_numeral h
  have htokens : tokensFrom standard whole place (w ++ []) =
      .ok (((keep .number numeral).token? place w).toList ++ []) :=
    tokensFrom_of_taken hne hfirst tokensFrom_nil
  rw [List.append_nil, token?_standard hrule hne] at htokens
  exact htokens

theorem tokensFrom_minus (text : List Char) :
    tokensFrom standard whole place ('-' :: text) = do
      let tokens ← tokensFrom standard whole (place.advance ['-']) text
      return ⟨.minus, "-", place⟩ :: tokens := by
  have hfirst : first? standard (['-'] ++ text) = some (keep .minus (.char '-'), text) := rfl
  exact tokensFrom_taken (List.cons_ne_nil _ _) hfirst

end TokenRule

namespace Parser

variable {room inner : Room} {start next stop : Cursor} {token sign : Token} {e : Expr} {x : Float}

theorem take?_cons (previous : Option Token) (token : Token) (rest : List Token) (last : Token) :
    (Cursor.mk previous (token :: rest) last).take? = some (token, ⟨some token, rest, last⟩) :=
  rfl

theorem take?_of_end (h : stop.ahead = []) : stop.take? = none := by
  rw [Cursor.take?, h]

theorem current_of_end (h : stop.ahead = []) : stop.current = stop.last := by
  rw [Cursor.current, h, List.headD_nil]

/-- An operand behind which nothing stands is a whole statement. -/
theorem statement_of_unary {hleft : stop.left < start.left} (h : stop.ahead = [])
    (hunary : unary room start = .ok ⟨e, stop, hleft⟩) :
    statement room start = .ok ⟨e, stop, hleft⟩ := by
  have hnone := take?_of_end h
  have hproduct : product room start = .ok ⟨e, stop, hleft⟩ := by
    rw [product]
    simp only [hunary, ok_bind]
    rw [productRest_end (by rw [hnone]; simp)]
    rfl
  have hsum : sum room start = .ok ⟨e, stop, hleft⟩ := by
    rw [sum]
    simp only [hproduct, ok_bind]
    rw [sumRest_end (by rw [hnone]; simp)]
    rfl
  have hassign : stop.takeKind? .assign = none := by
    rw [Cursor.takeKind?, hnone]
  rw [statement]
  simp only [hsum, ok_bind]
  split
  next other hother => cases hassign.symm.trans hother
  next => rfl

/-- A statement that begins like one and has nothing behind it is a whole program. -/
theorem program_of_statement {force : Bool} {hleft : stop.left < start.left} (h : stop.ahead = [])
    (hlast : stop.last.kind = .eof) (htake : start.take? = some (token, next))
    (hkind : token.kind ≠ .semicolon ∧ token.kind ≠ .eof ∧ token.kind ≠ .rparen)
    (hstatement : statement room start = .ok ⟨e, stop, hleft⟩) :
    program room force start = .ok e := by
  have hcurrent : start.current = token := by
    rw [Cursor.current, (Cursor.take?_eq_some_iff.mp htake).1, List.headD_cons]
  have hnone : start.takeKind? .semicolon = none := by
    rw [Cursor.takeKind?, htake]
    exact if_neg hkind.1
  have hboundary : boundary force stop = .ok true := by
    rw [boundary, current_of_end h, hlast]
    rfl
  refine program_eq_ok_iff.mpr ⟨[e], ?_, .inl rfl⟩
  rw [statements_of_statement hnone (hcurrent ▸ hkind.2.1) (hcurrent ▸ hkind.2.2)]
  simp only [hstatement, hboundary, statements_end h hlast, ok_bind]
  rfl

section Number

variable (htake : start.take? = some (token, next)) (h : next.ahead = [])
  (hlast : next.last.kind = .eof) (hkind : token.kind = .number)
  (hread : Decimal.readNumeral false token.text.toList = some x)
include htake h hlast hkind hread

theorem unary_of_number :
    ∃ hleft, unary room start = .ok ⟨.number (.float x), next, hleft⟩ := by
  have hsign : ∀ other rest, start.take? = some (other, rest) →
      ¬ (other.kind = .minus ∨ other.kind = .plus) := by
    intro other rest hother
    cases htake.symm.trans hother
    rw [hkind]
    simp
  have hcheck : checkNumeral token next.current = .ok () := by
    rw [checkNumeral_eq_ok_iff, current_of_end h, hlast]
    simp
  have hprimary : primary room start =
      .ok ⟨.number (.float x), next, Cursor.left_lt_of_take? htake⟩ := by
    rw [primary_of_number htake hkind, hread, hcheck]
    rfl
  have hpower : next.takeKind? .power = none := by
    rw [Cursor.takeKind?, take?_of_end h]
  refine ⟨Cursor.left_lt_of_take? htake, ?_⟩
  rw [unary_of_unsigned hsign, power]
  simp only [hprimary, ok_bind]
  split
  next other hother => cases hpower.symm.trans hother
  next => rfl

theorem program_of_number (force : Bool) :
    program room force start = .ok (.number (.float x)) := by
  obtain ⟨hleft, hunary⟩ := unary_of_number htake h hlast hkind hread
  have hstarts : token.kind ≠ .semicolon ∧ token.kind ≠ .eof ∧ token.kind ≠ .rparen := by
    rw [hkind]
    decide
  exact program_of_statement h hlast htake hstarts (statement_of_unary h hunary)

/-- A sign at the beginning is applied to the numeral that is left. -/
theorem program_of_minus_number (force : Bool) {leading : Cursor}
    (hsign : leading.take? = some (sign, start)) (hprevious : leading.previous = none)
    (hminus : sign.kind = .minus) (hinner : room.enter? price.sign = some inner) :
    program room force leading = .ok (.operation .negate [.number (.float x)]) := by
  obtain ⟨hleft, hoperand⟩ := @unary_of_number inner _ _ _ _ htake h hlast hkind hread
  have hcheck : checkSign sign leading = .ok () := by
    rw [checkSign, hprevious]
  have hdescend : descend room price.sign leading = .ok inner := by
    rw [descend, hinner]
  have hunary : unary room leading = .ok ⟨.operation .negate [.number (.float x)], next,
      Nat.lt_trans hleft (Cursor.left_lt_of_take? hsign)⟩ := by
    rw [unary_of_sign hsign (.inl hminus)]
    simp only [hcheck, hdescend, hoperand, ok_bind, summand, hminus]
    rfl
  have hstarts : sign.kind ≠ .semicolon ∧ sign.kind ≠ .eof ∧ sign.kind ≠ .rparen := by
    rw [hminus]
    decide
  exact program_of_statement h hlast hsign hstarts (statement_of_unary h hunary)

end Number

end Parser

section Texts

variable {room inner : Room} {s : String} {w : List Char} {x : Float}

/-- A text that is a numeral is parsed to its float. -/
theorem parse_numeral (room : Room) (force : Bool) (hs : s.toList = w) (h : IsNumeral w)
    (hread : Decimal.readNumeral false w = some x) :
    parse room force (some s) = .ok (.number (.float x)) := by
  have htokens : TokenRule.tokensFrom TokenRule.standard s .start s.toList =
      .ok [⟨.number, String.ofList w, .start⟩] := by
    rw [hs]
    exact TokenRule.tokensFrom_numeral h
  have htake := Parser.take?_cons none ⟨.number, String.ofList w, .start⟩ [] (.atEnd s.toList)
  have hvalue : Decimal.readNumeral false (String.ofList w).toList = some x := by
    rw [String.toList_ofList]
    exact hread
  exact (parse_eq_ok_iff_of_lex htokens).mpr
    (Parser.program_of_number htake rfl rfl rfl hvalue force)

/-- A text that is a numeral behind a minus sign is parsed to the negation of its float. -/
theorem parse_minus_numeral (force : Bool) (hinner : room.enter? price.sign = some inner)
    (hs : s.toList = '-' :: w) (h : IsNumeral w)
    (hread : Decimal.readNumeral false w = some x) :
    parse room force (some s) = .ok (.operation .negate [.number (.float x)]) := by
  have htokens : TokenRule.tokensFrom TokenRule.standard s .start s.toList =
      .ok [⟨.minus, "-", .start⟩, ⟨.number, String.ofList w, Text.Place.start.advance ['-']⟩] := by
    rw [hs, TokenRule.tokensFrom_minus, TokenRule.tokensFrom_numeral h]
    rfl
  have htake := Parser.take?_cons (some ⟨.minus, "-", .start⟩)
    ⟨.number, String.ofList w, Text.Place.start.advance ['-']⟩ [] (.atEnd s.toList)
  have hvalue : Decimal.readNumeral false (String.ofList w).toList = some x := by
    rw [String.toList_ofList]
    exact hread
  exact (parse_eq_ok_iff_of_lex htokens).mpr
    (Parser.program_of_minus_number htake rfl rfl rfl hvalue force
      (Parser.take?_cons _ _ _ _) rfl rfl hinner)

end Texts

end Formula
