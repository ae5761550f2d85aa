import Formula.Number.Decimal
import Formula.Proofs.Effect
import Formula.Proofs.Pattern.Language
import Formula.Token.Lexer

namespace Formula

namespace TokenRule

variable {rules : List TokenRule} {tokens : List Token} {token : Token}

/-- Whether a token is what a rule makes of a word of its pattern. -/
def Makes (rule : TokenRule) (token : Token) : Prop :=
  token.kind = rule.kind ∧
    ∃ taken, rule.pattern.Matches taken ∧ rule.transform (String.ofList taken) = some token.text

theorem of_token? {rule : TokenRule} {place : Text.Place} {taken : List Char}
    (h : rule.token? place taken = some token) :
    token.kind = rule.kind ∧ token.place = place ∧
      rule.transform (String.ofList taken) = some token.text := by
  unfold token? at h
  split at h
  next text htext =>
    split at h
    next => cases h
    next =>
      cases h
      exact ⟨rfl, rfl, htext⟩
  next => cases h

theorem makes_of_token? {rule : TokenRule} {place : Text.Place} {taken : List Char}
    (htaken : rule.pattern.Matches taken) (h : rule.token? place taken = some token) :
    rule.Makes token := by
  obtain ⟨hkind, -, htext⟩ := of_token? h
  exact ⟨hkind, taken, htaken, htext⟩

theorem exists_of_first? {text rest : List Char} {rule : TokenRule}
    (h : first? rules text = some (rule, rest)) :
    rule ∈ rules ∧ ∃ taken, text = taken ++ rest ∧ rule.pattern.Matches taken := by
  obtain ⟨other, member, hmatch⟩ := List.exists_of_findSome?_eq_some h
  obtain ⟨after, hafter, heq⟩ := Option.map_eq_some_iff.mp hmatch
  cases heq
  exact ⟨member, Pattern.exists_of_rest? hafter⟩

theorem exists_makes_of_tokensFrom {whole : String} {place : Text.Place} {text : List Char}
    (h : tokensFrom rules whole place text = .ok tokens) (member : token ∈ tokens) :
    ∃ rule ∈ rules, rule.Makes token := by
  fun_induction tokensFrom rules whole place text generalizing tokens with
  | case1 place =>
    cases h
    simp at member
  | case2 => cases h
  | case3 => cases h
  | case4 place c text rule rest hfirst hlength taken others hothers first hfirstToken =>
    rename_i ih
    cases h
    obtain ⟨hrule, word, htext, hword⟩ := exists_of_first? hfirst
    rcases List.mem_cons.mp member with rfl | member
    · refine ⟨rule, hrule, makes_of_token? ?_ hfirstToken⟩
      have hlen : text.length + 1 - rest.length = word.length := by
        have := congrArg List.length htext
        simp only [List.length_cons, List.length_append] at this
        omega
      have htaken : taken = word := by
        show (c :: text).take (text.length + 1 - rest.length) = word
        rw [hlen, htext, List.take_left]
      rw [htaken]
      exact hword
    · exact ih hothers member
  | case5 place c text rule rest hfirst hlength taken others hothers hnone =>
    rename_i ih
    cases h
    exact ih hothers member
  | case6 => cases h

theorem exists_makes_of_lex {text : Option String} (h : lex rules text = .ok tokens)
    (member : token ∈ tokens) : ∃ rule ∈ rules, rule.Makes token := by
  cases text with
  | none => cases h
  | some text => exact exists_makes_of_tokensFrom h member

/-- The tokens of formulas are marks, words and numerals; the end of the input is none of them. -/
theorem kind_ne_eof_of_lex {text : Option String} (h : lex standard text = .ok tokens)
    (member : token ∈ tokens) : token.kind ≠ .eof := by
  obtain ⟨rule, hrule, hkind, -⟩ := exists_makes_of_lex h member
  have heach : ∀ rule ∈ standard, rule.kind ≠ .eof := by decide
  rw [hkind]
  exact heach rule hrule

/-- A token of a formula is written as a word of the rule that its kind belongs to. -/
theorem matches_of_lex {text : Option String} (h : lex standard text = .ok tokens)
    (member : token ∈ tokens) :
    ∃ rule ∈ standard, rule.kind = token.kind ∧ rule.pattern.Matches token.text.toList := by
  obtain ⟨rule, hrule, hkind, taken, htaken, htext⟩ := exists_makes_of_lex h member
  have heach : ∀ rule ∈ standard, rule.transform = (fun _ => none) ∨ rule.transform = some := by
    simp [standard, keep, skip]
  rcases heach rule hrule with hskip | hkeep
  · rw [hskip] at htext
    cases htext
  · rw [hkeep] at htext
    have hword : String.ofList taken = token.text := Option.some.inj htext
    refine ⟨rule, hrule, hkind.symm, ?_⟩
    rw [← hword, String.toList_ofList]
    exact htaken

theorem matches_numeral_of_lex {text : Option String} (h : lex standard text = .ok tokens)
    (member : token ∈ tokens) (hkind : token.kind = .number) :
    numeral.Matches token.text.toList := by
  obtain ⟨rule, hrule, hsame, hmatches⟩ := matches_of_lex h member
  have heach : ∀ rule ∈ standard, rule.kind = .number → rule.pattern = numeral := by decide
  rw [← heach rule hrule (hsame.trans hkind)]
  exact hmatches

theorem matches_word_of_lex {text : Option String} (h : lex standard text = .ok tokens)
    (member : token ∈ tokens) (hkind : token.kind = .identifier) :
    word.Matches token.text.toList := by
  obtain ⟨rule, hrule, hsame, hmatches⟩ := matches_of_lex h member
  have heach : ∀ rule ∈ standard, rule.kind = .identifier → rule.pattern = word := by decide
  rw [← heach rule hrule (hsame.trans hkind)]
  exact hmatches

end TokenRule

section Numerals

variable {v w : List Char}

/-- Whether a text does not begin with a digit. -/
def EndsDigits (text : List Char) : Prop :=
  ∀ c, text.head? = some c → Text.isDigit c = false

theorem span_digits {digits rest : List Char} (hdigits : ∀ c ∈ digits, Text.isDigit c = true)
    (hrest : EndsDigits rest) :
    (digits ++ rest).takeWhile Text.isDigit = digits ∧
      (digits ++ rest).dropWhile Text.isDigit = rest := by
  have hstop : rest.takeWhile Text.isDigit = [] ∧ rest.dropWhile Text.isDigit = rest := by
    cases rest with
    | nil => exact ⟨rfl, rfl⟩
    | cons c rest =>
      have hc : Text.isDigit c = false := hrest c rfl
      simp [hc]
  rw [List.takeWhile_append_of_pos hdigits, List.dropWhile_append_of_pos hdigits, hstop.1, hstop.2]
  simp

theorem matches_digit_class (c : Char) :
    ([CharTest.digit].any (·.accepts c) != false) = Text.isDigit c := by
  simp [CharTest.accepts]

/-- The optional exponent of a numeral can be read, and neither a digit nor a point begins it. -/
theorem readExponent_of_matches
    (h : Pattern.Matches (.optional (.all [.oneOf false [.range 'e' 'e', .range 'E' 'E'],
      .optional (.oneOf false [.range '+' '+', .range '-' '-']), .some .digit])) v) :
    (Decimal.readExponent v).isSome ∧ EndsDigits v ∧ v.head? ≠ some '.' := by
  simp only [Pattern.matches_seq, Pattern.matches_optional, Pattern.digit, Pattern.all, List.foldr,
    Pattern.matches_some_oneOf, Pattern.matches_oneOf, Pattern.matches_empty,
    matches_digit_class] at h
  rcases h with ⟨_, _, rfl, ⟨mark, rfl, hmark⟩, sign, _, rfl, hsign, digits, _, rfl, ⟨hne, hdigits⟩,
    rfl⟩ | rfl
  · have hmark : mark = 'e' ∨ mark = 'E' := by simpa [Pattern.accepts_range_self] using hmark
    have hsign : sign = [] ∨ sign = ['+'] ∨ sign = ['-'] := by
      rcases hsign with ⟨c, rfl, hc⟩ | rfl
      · right
        simpa [Pattern.accepts_range_self] using hc
      · exact .inl rfl
    have hall : digits.all Text.isDigit = true := List.all_eq_true.mpr hdigits
    have hread : (Decimal.readExponent (mark :: (sign ++ digits))).isSome := by
      have hfirst : (mark == 'e' || mark == 'E') = true := by simpa using hmark
      rcases hsign with rfl | rfl | rfl
      · -- without a sign the digits themselves decide which branch is read
        cases digits with
        | nil => exact absurd rfl hne
        | cons c digits =>
          have hc : Text.isDigit c = true := hdigits c (by simp)
          have hminus : c ≠ '-' := by
            rintro rfl
            exact absurd hc (by decide)
          have hplus : c ≠ '+' := by
            rintro rfl
            exact absurd hc (by decide)
          simpa [Decimal.readExponent, hfirst, hminus, hplus] using hall
      · simp [Decimal.readExponent, hfirst, hall, hne]
      · simp [Decimal.readExponent, hfirst, hall, hne]
    refine ⟨by simpa using hread, ?_, ?_⟩
    · rintro c ⟨⟩
      rcases hmark with rfl | rfl <;> decide
    · rcases hmark with rfl | rfl <;> simp
  · simp [Decimal.readExponent, EndsDigits]

/-- Every numeral denotes a float. -/
theorem readNumeral_of_matches (h : TokenRule.numeral.Matches w) :
    (Decimal.readNumeral false w).isSome := by
  obtain ⟨u, v, rfl, hu, hv⟩ := Pattern.matches_seq.mp h
  obtain ⟨hexponent, hends, hpoint⟩ := readExponent_of_matches hv
  simp only [Pattern.matches_seq, Pattern.matches_either, Pattern.matches_optional,
    Pattern.matches_char, Pattern.digit, Pattern.matches_some_oneOf, Pattern.matches_many_oneOf,
    matches_digit_class] at hu
  have hdot (rest : List Char) : EndsDigits ('.' :: rest) := by
    rintro c ⟨⟩
    decide
  rcases hu with ⟨whole, _, rfl, ⟨hne, hwhole⟩, ⟨_, fraction, rfl, rfl, hfraction⟩ | rfl⟩ |
    ⟨_, fraction, rfl, rfl, hne, hfraction⟩
  · obtain ⟨htake, hdrop⟩ := span_digits hwhole (hdot (fraction ++ v))
    obtain ⟨htake', hdrop'⟩ := span_digits hfraction hends
    simp [Decimal.readNumeral, htake, hdrop, Decimal.readFraction, htake', hdrop', hne, hexponent]
  · obtain ⟨htake, hdrop⟩ := span_digits hwhole hends
    have hfraction : Decimal.readFraction v = ([], v) := by
      unfold Decimal.readFraction
      split
      next => simp at hpoint
      next => rfl
    simp [Decimal.readNumeral, htake, hdrop, hfraction, hne, hexponent]
  · obtain ⟨htake, hdrop⟩ := @span_digits [] _ (by simp) (hdot (fraction ++ v))
    obtain ⟨htake', hdrop'⟩ := span_digits hfraction hends
    simp only [List.nil_append] at htake hdrop
    simp [Decimal.readNumeral, htake, hdrop, Decimal.readFraction, htake', hdrop', hne, hexponent]

end Numerals

end Formula
