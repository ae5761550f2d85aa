import Formula.Proofs.Pattern.Ways
import Formula.Proofs.Token.Cut
import Formula.Proofs.Token.Ends

namespace Formula

/-- The longest word of a language that a text begins with. -/
structure IsLongest (language : List Char → Prop) (text taken : List Char) : Prop where
  word : language taken
  start : taken <+: text
  longest : ∀ other, language other → other <+: text → other.length ≤ taken.length

section Numerals

def IsDigits (w : List Char) : Prop :=
  w ≠ [] ∧ ∀ c ∈ w, Text.isDigit c = true

/-- Digits with a point behind or among them or without one, or a point in front of digits. -/
def IsMantissa (w : List Char) : Prop :=
  (∃ whole, IsDigits whole ∧ (w = whole ∨
    ∃ fraction, w = whole ++ '.' :: fraction ∧ ∀ c ∈ fraction, Text.isDigit c = true)) ∨
  ∃ fraction, IsDigits fraction ∧ w = '.' :: fraction

def IsSign (w : List Char) : Prop :=
  w = [] ∨ w = ['+'] ∨ w = ['-']

/-- A mark, perhaps a sign, and in any case digits. -/
def IsExponent (w : List Char) : Prop :=
  ∃ mark sign digits, w = mark :: (sign ++ digits) ∧ (mark = 'e' ∨ mark = 'E') ∧ IsSign sign ∧
    IsDigits digits

def IsNumeral (w : List Char) : Prop :=
  ∃ mantissa exponent, w = mantissa ++ exponent ∧ IsMantissa mantissa ∧
    (exponent = [] ∨ IsExponent exponent)

/-- Whether digits stand behind every mark of an exponent and every sign. -/
structure IsComplete (w : List Char) : Prop where
  mark : ∀ front c back, w = front ++ c :: back → c = 'e' ∨ c = 'E' →
    ∃ sign digits, back = sign ++ digits ∧ IsSign sign ∧ IsDigits digits
  sign : ∀ front c back, w = front ++ c :: back → c = '+' ∨ c = '-' → IsDigits back

variable {w : List Char}

theorem matches_digits : Pattern.Matches (.some .digit) w ↔ IsDigits w := by
  simp only [Pattern.digit, Pattern.matches_some_oneOf, matches_digit_class, IsDigits]

theorem matches_more_digits :
    Pattern.Matches (.many .digit) w ↔ ∀ c ∈ w, Text.isDigit c = true := by
  simp only [Pattern.digit, Pattern.matches_many_oneOf, matches_digit_class]

theorem matches_sign :
    Pattern.Matches (.optional (.oneOf false [.range '+' '+', .range '-' '-'])) w ↔ IsSign w := by
  simp only [Pattern.matches_optional, Pattern.matches_oneOf, IsSign]
  constructor
  · rintro (⟨c, rfl, hc⟩ | rfl)
    · have hsign : c = '+' ∨ c = '-' := by simpa [Pattern.accepts_range_self] using hc
      rcases hsign with rfl | rfl
      · exact .inr (.inl rfl)
      · exact .inr (.inr rfl)
    · exact .inl rfl
  · rintro (rfl | rfl | rfl)
    · exact .inr rfl
    · exact .inl ⟨'+', rfl, by decide⟩
    · exact .inl ⟨'-', rfl, by decide⟩

theorem matches_mantissa :
    Pattern.Matches (.either
      (.seq (.some .digit) (.optional (.seq (.char '.') (.many .digit))))
      (.seq (.char '.') (.some .digit))) w ↔ IsMantissa w := by
  simp only [Pattern.matches_either, Pattern.matches_seq, matches_digits, Pattern.matches_optional,
    Pattern.matches_char, matches_more_digits, IsMantissa]
  constructor
  · rintro (⟨whole, _, rfl, hwhole, ⟨_, fraction, rfl, rfl, hfraction⟩ | rfl⟩ |
      ⟨_, fraction, rfl, rfl, hfraction⟩)
    · exact .inl ⟨whole, hwhole, .inr ⟨fraction, rfl, hfraction⟩⟩
    · exact .inl ⟨whole, hwhole, .inl (List.append_nil whole)⟩
    · exact .inr ⟨fraction, hfraction, rfl⟩
  · rintro (⟨whole, hwhole, hw | ⟨fraction, rfl, hfraction⟩⟩ | ⟨fraction, hfraction, rfl⟩)
    · exact .inl ⟨whole, [], by rw [hw, List.append_nil], hwhole, .inr rfl⟩
    · exact .inl ⟨whole, _, rfl, hwhole, .inl ⟨['.'], fraction, rfl, rfl, hfraction⟩⟩
    · exact .inr ⟨['.'], fraction, rfl, rfl, hfraction⟩

theorem matches_exponent :
    Pattern.Matches (.all [.oneOf false [.range 'e' 'e', .range 'E' 'E'],
      .optional (.oneOf false [.range '+' '+', .range '-' '-']), .some .digit]) w ↔
      IsExponent w := by
  simp only [Pattern.all, List.foldr, Pattern.matches_seq, matches_sign, matches_digits,
    Pattern.matches_oneOf, Pattern.matches_empty, IsExponent]
  constructor
  · rintro ⟨_, _, rfl, ⟨mark, rfl, hmark⟩, sign, _, rfl, hsign, digits, _, rfl, hdigits, rfl⟩
    refine ⟨mark, sign, digits, by simp, ?_, hsign, hdigits⟩
    simpa [Pattern.accepts_range_self] using hmark
  · rintro ⟨mark, sign, digits, rfl, hmark, hsign, hdigits⟩
    refine ⟨[mark], _, rfl, ⟨mark, rfl, ?_⟩, sign, _, rfl, hsign, digits, [], by simp, hdigits, rfl⟩
    simpa [Pattern.accepts_range_self] using hmark

theorem matches_numeral_iff : TokenRule.numeral.Matches w ↔ IsNumeral w := by
  simp only [TokenRule.numeral, Pattern.matches_seq, matches_mantissa, Pattern.matches_optional,
    matches_exponent, IsNumeral]
  constructor
  · rintro ⟨mantissa, exponent, rfl, hmantissa, hexponent⟩
    exact ⟨mantissa, exponent, rfl, hmantissa, hexponent.symm⟩
  · rintro ⟨mantissa, exponent, rfl, hmantissa, hexponent⟩
    exact ⟨mantissa, exponent, rfl, hmantissa, hexponent.symm⟩

theorem mem_mantissa {c : Char} (h : IsMantissa w) (member : c ∈ w) :
    Text.isDigit c = true ∨ c = '.' := by
  rcases h with ⟨whole, ⟨-, hwhole⟩, rfl | ⟨fraction, rfl, hfraction⟩⟩ |
    ⟨fraction, ⟨-, hfraction⟩, rfl⟩
  · exact .inl (hwhole c member)
  · rcases List.mem_append.mp member with member | member
    · exact .inl (hwhole c member)
    · rcases List.mem_cons.mp member with rfl | member
      · exact .inr rfl
      · exact .inl (hfraction c member)
  · rcases List.mem_cons.mp member with rfl | member
    · exact .inr rfl
    · exact .inl (hfraction c member)

/-- What is no digit and no point stands in the exponent, as its mark or as its sign. -/
theorem cases_of_numeral (h : IsNumeral w) {front back : List Char} {c : Char}
    (hw : w = front ++ c :: back) (hdigit : Text.isDigit c = false) (hpoint : c ≠ '.') :
    ((c = 'e' ∨ c = 'E') ∧ ∃ sign digits, back = sign ++ digits ∧ IsSign sign ∧ IsDigits digits) ∨
      (c = '+' ∨ c = '-') ∧ IsDigits back := by
  obtain ⟨mantissa, exponent, rfl, hmantissa, hexponent⟩ := h
  have hnot : c ∉ mantissa := by
    intro member
    rcases mem_mantissa hmantissa member with hc | hc
    · simp [hc] at hdigit
    · exact hpoint hc
  obtain ⟨between, rfl, hbetween⟩ : ∃ between, front = mantissa ++ between ∧
      exponent = between ++ c :: back := by
    rcases List.append_eq_append_iff.mp hw with ⟨between, hfront, hexponent⟩ | ⟨between, hm, hc⟩
    · exact ⟨between, hfront, hexponent⟩
    · cases between with
      | nil => exact ⟨[], by simpa using hm.symm, hc.symm⟩
      | cons d between =>
        obtain ⟨rfl, -⟩ := List.cons.inj hc
        exact absurd (by simp [hm]) hnot
  rcases hexponent with rfl | ⟨mark, sign, digits, rfl, hmark, hsign, hdigits⟩
  · simp at hbetween
  · cases between with
    | nil =>
      obtain ⟨rfl, rfl⟩ := List.cons.inj hbetween
      exact .inl ⟨hmark, sign, digits, rfl, hsign, hdigits⟩
    | cons d between =>
      obtain ⟨rfl, hrest⟩ := List.cons.inj hbetween
      have hlast : c ∉ digits := fun member => by simp [hdigits.2 c member] at hdigit
      rcases hsign with rfl | rfl | rfl
      · exact absurd (by simp [show digits = between ++ c :: back from hrest]) hlast
      all_goals
        cases between with
        | nil =>
          obtain ⟨rfl, rfl⟩ := List.cons.inj hrest
          exact .inr ⟨by simp, hdigits⟩
        | cons d between =>
          obtain ⟨rfl, hafter⟩ := List.cons.inj hrest
          exact absurd (by simp [show digits = between ++ c :: back from hafter]) hlast

theorem isComplete_of_numeral (h : IsNumeral w) : IsComplete w where
  mark front c back hw hc := by
    have hnot : Text.isDigit c = false ∧ c ≠ '.' := by rcases hc with rfl | rfl <;> decide
    rcases cases_of_numeral h hw hnot.1 hnot.2 with ⟨-, hback⟩ | ⟨hsign, -⟩
    · exact hback
    · rcases hc with rfl | rfl <;> simp at hsign
  sign front c back hw hc := by
    have hnot : Text.isDigit c = false ∧ c ≠ '.' := by rcases hc with rfl | rfl <;> decide
    rcases cases_of_numeral h hw hnot.1 hnot.2 with ⟨hmark, -⟩ | ⟨-, hback⟩
    · rcases hc with rfl | rfl <;> simp at hmark
    · exact hback

end Numerals

namespace TokenRule

open Text (isBlank)

variable {rules : List TokenRule} {rule other : TokenRule} {text rest after taken : List Char}
  {c : Char}

/-- Whether the match of one rule is never shorter than that of another one at the same place. -/
def Outranks (rule other : TokenRule) : Prop :=
  ∀ text rest after, rule.pattern.rest? text = some rest → other.pattern.rest? text = some after →
    rest.length ≤ after.length

theorem length_le_of_first? (hrules : rules.Pairwise Outranks)
    (hfirst : first? rules text = some (rule, rest)) (member : other ∈ rules)
    (hother : other.pattern.rest? text = some after) : rest.length ≤ after.length := by
  obtain ⟨before, found, behind, rfl, hfound, hbefore⟩ := List.findSome?_eq_some_iff.mp hfirst
  obtain ⟨rest', hrest, heq⟩ := Option.map_eq_some_iff.mp hfound
  cases heq
  rcases List.mem_append.mp member with member | member
  · have hnone := hbefore other member
    rw [hother] at hnone
    cases hnone
  · rcases List.mem_cons.mp member with rfl | member
    · rw [hrest] at hother
      cases hother
      exact Nat.le_refl _
    · have hbehind := (List.pairwise_append.mp hrules).2.1
      exact (List.pairwise_cons.mp hbehind).1 other member text rest after hrest hother

theorem greedy_numeral : numeral.Greedy := by
  have hfraction : (Pattern.seq (.char '.') (.many .digit)).Greedy :=
    Pattern.greedy_seq_oneOf Pattern.greedy_many_oneOf
  have hwhole :
      (Pattern.seq (.some .digit) (.optional (.seq (.char '.') (.many .digit)))).Greedy := by
    refine Pattern.greedy_seq_of_unused Pattern.greedy_some_oneOf
      (Pattern.greedy_optional hfraction) fun c hc => ?_
    obtain rfl : c = '.' := by
      simpa [Pattern.begins, Pattern.char, Pattern.nullable, Pattern.accepts_range_self] using hc
    decide
  have hpoint : (Pattern.seq (.char '.') (.some .digit)).Greedy :=
    Pattern.greedy_seq_oneOf Pattern.greedy_some_oneOf
  have hmantissa := Pattern.greedy_either hwhole hpoint rfl fun c hc => by
    by_contra hbegins
    obtain rfl : c = '.' := by
      simpa [Pattern.begins, Pattern.char, Pattern.nullable, Pattern.accepts_range_self]
        using hbegins
    revert hc
    decide
  have hdigits : (Pattern.seq (.some .digit) .empty).Greedy :=
    Pattern.greedy_seq_of_unused Pattern.greedy_some_oneOf Pattern.greedy_empty fun c hc =>
      absurd hc Bool.false_ne_true
  have hsigned : (Pattern.seq (.optional (.oneOf false [.range '+' '+', .range '-' '-']))
      (.seq (.some .digit) .empty)).Greedy := by
    refine Pattern.greedy_seq_of_unused (Pattern.greedy_optional Pattern.greedy_oneOf) hdigits
      fun c hc => ?_
    have hdigit : Text.isDigit c = true := by
      simpa [Pattern.begins, Pattern.digit, Pattern.nullable, CharTest.accepts] using hc
    have hplus : c ≠ '+' := by
      rintro rfl
      exact absurd hdigit (by decide)
    have hminus : c ≠ '-' := by
      rintro rfl
      exact absurd hdigit (by decide)
    simp [Pattern.uses, ← Bool.not_eq_true, Pattern.accepts_range_self, hplus, hminus]
  refine Pattern.greedy_seq_of_unused hmantissa
    (Pattern.greedy_optional (Pattern.greedy_seq_oneOf hsigned)) fun c hc => ?_
  have hmark : c = 'e' ∨ c = 'E' := by
    simpa [Pattern.all, Pattern.begins, Pattern.nullable, Pattern.accepts_range_self] using hc
  rcases hmark with rfl | rfl
  · decide
  · decide

theorem greedy_power : (Pattern.either (.seq (.char '*') (.char '*')) (.char '^')).Greedy := by
  refine Pattern.greedy_either (Pattern.greedy_seq_oneOf Pattern.greedy_oneOf)
    Pattern.greedy_oneOf rfl fun c hc => ?_
  obtain rfl : c = '*' := by
    simpa [Pattern.begins, Pattern.char, Pattern.nullable, Pattern.accepts_range_self] using hc
  decide

/-- Every rule of formulas takes the longest word that it can. -/
theorem greedy_of_mem (member : rule ∈ standard) : rule.pattern.Greedy := by
  have hword : word.Greedy := Pattern.greedy_seq_oneOf Pattern.greedy_many_oneOf
  have hblanks : (Pattern.some .blank).Greedy := Pattern.greedy_some_oneOf
  have hsign (c : Char) : (Pattern.char c).Greedy := Pattern.greedy_oneOf
  have hall : ∀ rule ∈ standard, rule.pattern.Greedy := by
    simp only [standard, skip, keep, List.forall_mem_cons, List.not_mem_nil, false_implies,
      implies_true, and_true]
    simp only [hblanks, greedy_numeral, greedy_power, hsign, hword, and_self]
  exact hall rule member

/-- What kind of match begins with a character. A star begins a power sign or a product sign. -/
def leading (c : Char) : TokenKind :=
  if isBlank c then .whitespace
  else if Text.isDigit c || c == '.' then .number
  else if c == '*' || c == '^' then .power
  else if c == '/' then .divide
  else if c == '%' then .modulo
  else if c == '+' then .plus
  else if c == '-' then .minus
  else if c == '=' then .assign
  else if c == ';' then .semicolon
  else if c == ',' then .comma
  else if c == '(' then .lparen
  else if c == ')' then .rparen
  else .identifier

theorem leading_of_isDigit (hc : Text.isDigit c = true) : leading c = .number := by
  have hblank : isBlank c = false := by
    by_contra hblank
    have hnone : Text.isDigit c = false := accepts_digit_of_isBlank (by simpa using hblank)
    rw [hc] at hnone
    cases hnone
  simp [leading, hblank, hc]

theorem leading_of_word (hc : word.begins c = true) : leading c = .identifier := by
  have hascii : ∀ n < 128, word.begins (Char.ofNat n) = true →
      leading (Char.ofNat n) = .identifier := by decide +kernel
  have hlast : c.toNat < 128 := by
    have hrange {first last : Char} (hle : last.toNat < 128) (hc : first ≤ c ∧ c ≤ last) :
        c.toNat < 128 := Nat.lt_of_le_of_lt (UInt32.le_iff_toNat_le.mp hc.2) hle
    have hclass : ('a' ≤ c ∧ c ≤ 'z' ∨ 'A' ≤ c ∧ c ≤ 'Z') ∨ '_' ≤ c ∧ c ≤ '_' := by
      simpa [word, Pattern.begins, Pattern.nullable, CharTest.accepts, or_assoc] using hc
    rcases hclass with (hc | hc) | hc
    · exact hrange (by decide) hc
    · exact hrange (by decide) hc
    · exact hrange (by decide) hc
  rw [← Char.ofNat_toNat c] at hc ⊢
  exact hascii c.toNat hlast hc

/-- The first character of a match tells its kind, but for the star. -/
theorem leading_of_begins (member : rule ∈ standard) (hc : rule.pattern.begins c = true) :
    leading c = if rule.kind = .multiply then .power else rule.kind := by
  have hsign (d : Char) (h : (Pattern.char d).begins c = true) : leading c = leading d := by
    obtain rfl : c = d := by
      simpa [Pattern.begins, Pattern.char, Pattern.accepts_range_self] using h
    rfl
  have hblanks (h : (Pattern.some .blank).begins c = true) : leading c = .whitespace := by
    have hblank : isBlank c = true := by
      simpa [Pattern.begins, Pattern.blank, CharTest.accepts] using h
    simp [leading, hblank]
  have hnumeral (h : numeral.begins c = true) : leading c = .number := by
    have hdigit : CharTest.digit.accepts c = Text.isDigit c := rfl
    have hfirst : Text.isDigit c = true ∨ c = '.' := by
      simpa [numeral, Pattern.begins, Pattern.nullable, Pattern.digit, Pattern.char,
        Pattern.accepts_range_self, hdigit] using h
    rcases hfirst with hdigit | rfl
    · exact leading_of_isDigit hdigit
    · decide
  have hpower (h : (Pattern.either (.seq (.char '*') (.char '*')) (.char '^')).begins c = true) :
      leading c = .power := by
    have hfirst : c = '*' ∨ c = '^' := by
      simpa [Pattern.begins, Pattern.nullable, Pattern.char, Pattern.accepts_range_self] using h
    rcases hfirst with rfl | rfl <;> decide
  have hall : ∀ rule ∈ standard, rule.pattern.begins c = true →
      leading c = if rule.kind = .multiply then .power else rule.kind := by
    simp only [standard, skip, keep, List.forall_mem_cons, List.not_mem_nil, false_implies,
      implies_true, and_true]
    exact ⟨hblanks, hnumeral, hpower, hsign '*', hsign '/', hsign '%', hsign '+', hsign '-',
      hsign '=', hsign ';', hsign ',', hsign '(', hsign ')', leading_of_word⟩
  exact hall rule member hc

theorem pattern_of_power (member : rule ∈ standard) (hkind : rule.kind = .power) :
    rule.pattern = .either (.seq (.char '*') (.char '*')) (.char '^') := by
  have hall : ∀ rule ∈ standard, rule.kind = .power →
      rule.pattern = .either (.seq (.char '*') (.char '*')) (.char '^') := by decide
  exact hall rule member hkind

theorem pattern_of_multiply (member : rule ∈ standard) (hkind : rule.kind = .multiply) :
    rule.pattern = .char '*' := by
  have hall : ∀ rule ∈ standard, rule.kind = .multiply → rule.pattern = .char '*' := by decide
  exact hall rule member hkind

theorem numeral_mem_standard : keep .number numeral ∈ standard := by
  simp [standard]

theorem ne_nil_of_matches (member : rule ∈ standard) (h : rule.pattern.Matches taken) :
    taken ≠ [] := by
  have hall : ∀ rule ∈ standard, rule.pattern.nullable = false := by decide
  intro hempty
  have hnullable := h.nullable hempty
  rw [hall rule member] at hnullable
  cases hnullable

theorem exists_leading {w : List Char} (member : rule ∈ standard)
    (h : rule.pattern.Matches w) :
    ∃ c rest, w = c :: rest ∧
      leading c = if rule.kind = .multiply then .power else rule.kind := by
  obtain ⟨c, rest, rfl⟩ := List.exists_cons_of_ne_nil (ne_nil_of_matches member h)
  exact ⟨c, rest, rfl, leading_of_begins member h.begins⟩

/-- Matches of two rules at the same place are a power sign and a product sign. -/
theorem kinds_of_matches (hrule : rule ∈ standard) (hother : other ∈ standard)
    (hne : rule.kind ≠ other.kind) (hrest : rule.pattern.rest? text = some rest)
    (hafter : other.pattern.rest? text = some after) :
    rule.kind = .power ∧ other.kind = .multiply ∨ rule.kind = .multiply ∧ other.kind = .power := by
  obtain ⟨v, htext, hv⟩ := Pattern.exists_of_rest? hrest
  obtain ⟨w, htext', hw⟩ := Pattern.exists_of_rest? hafter
  obtain ⟨c, v, rfl, hc⟩ := exists_leading hrule hv
  obtain ⟨d, w, rfl, hd⟩ := exists_leading hother hw
  have hsame : c :: (v ++ rest) = d :: (w ++ after) := htext.symm.trans htext'
  obtain ⟨rfl, -⟩ := List.cons.inj hsame
  have hleading := hc.symm.trans hd
  split at hleading
  next hmultiply =>
    split at hleading
    next hmultiply' => exact absurd (hmultiply.trans hmultiply'.symm) hne
    next => exact .inr ⟨hmultiply, hleading.symm⟩
  next =>
    split at hleading
    next hmultiply' => exact .inl ⟨hleading, hmultiply'⟩
    next => exact absurd hleading hne

theorem outranks_standard : standard.Pairwise Outranks := by
  have hkinds : standard.Pairwise fun rule other =>
      rule.kind ≠ other.kind ∧ ¬ (rule.kind = .multiply ∧ other.kind = .power) := by decide
  refine hkinds.imp_of_mem fun {rule other} hrule hother hkind text rest after hrest hafter => ?_
  rcases kinds_of_matches hrule hother hkind.1 hrest hafter with ⟨-, hmultiply⟩ | hwrong
  · -- the product sign takes one character, and no match is empty
    obtain ⟨v, htext, hv⟩ := Pattern.exists_of_rest? hrest
    obtain ⟨w, htext', hw⟩ := Pattern.exists_of_rest? hafter
    rw [pattern_of_multiply hother hmultiply, Pattern.matches_char] at hw
    have hpositive := List.length_pos_iff.mpr (ne_nil_of_matches hrule hv)
    have hlength := congrArg List.length (htext.symm.trans htext')
    rw [List.length_append, List.length_append, hw, List.length_singleton] at hlength
    omega
  · exact absurd hwrong hkind.2

/-- The match of the first rule is the longest match of its own pattern and of all rules. A numeral
takes as much as can be a numeral, but no part of an exponent without its digits, and two stars are
one power sign. -/
structure LongestMatch (text : List Char) (rule : TokenRule) (rest taken : List Char) : Prop where
  divides : text = taken ++ rest
  own : IsLongest rule.pattern.Matches text taken
  others : ∀ other ∈ standard, ∀ after, other.pattern.rest? text = some after →
    rest.length ≤ after.length
  words : ∀ other ∈ standard, ∀ w, other.pattern.Matches w → w <+: text → w.length ≤ taken.length
  numeral : rule.kind = .number → IsLongest IsNumeral text taken ∧ IsComplete taken
  stars : ['*', '*'] <+: text → rule.kind = .power ∧ taken = ['*', '*']

/-- A match that begins with a star and takes more than it is a power sign. -/
theorem power_of_stars (member : rule ∈ standard) (h : rule.pattern.Matches ('*' :: taken))
    (hlong : taken ≠ []) : rule.kind = .power ∧ taken = ['*'] := by
  have hkind : rule.kind ≠ .multiply := by
    intro hmultiply
    rw [pattern_of_multiply member hmultiply, Pattern.matches_char] at h
    exact hlong (List.cons.inj h).2
  have hleading := leading_of_begins member h.begins
  rw [if_neg hkind] at hleading
  have hpower : rule.kind = .power := hleading.symm
  rw [pattern_of_power member hpower, Pattern.matches_either, Pattern.matches_seq,
    Pattern.matches_char] at h
  rcases h with ⟨u, v, htaken, hu, hv⟩ | h
  · rw [Pattern.matches_char.mp hu, Pattern.matches_char.mp hv] at htaken
    exact ⟨hpower, (List.cons.inj htaken).2⟩
  · exact absurd (List.cons.inj h).2 hlong

/-- A word of a rule's language is no longer than the rule's match. -/
theorem length_le_of_matches (member : other ∈ standard) (hw : other.pattern.Matches taken)
    (rest : List Char) :
    ∃ after, other.pattern.rest? (taken ++ rest) = some after ∧ after.length ≤ rest.length := by
  have hway : rest ∈ other.pattern.ways (taken ++ rest) := Pattern.mem_ways_iff.mpr ⟨taken, rfl, hw⟩
  obtain ⟨after, others, hways⟩ := List.exists_cons_of_ne_nil (List.ne_nil_of_mem hway)
  have hhead : (other.pattern.ways (taken ++ rest)).head? = some after := by
    rw [hways, List.head?_cons]
  exact ⟨after, by rw [Pattern.rest?_eq_head?, hhead], greedy_of_mem member _ after hhead rest hway⟩

theorem longestMatch_of_first? (h : first? standard text = some (rule, rest)) :
    ∃ taken, LongestMatch text rule rest taken := by
  obtain ⟨hrule, taken, rfl, htaken⟩ := exists_of_first? h
  have hothers : ∀ other ∈ standard, ∀ after,
      other.pattern.rest? (taken ++ rest) = some after → rest.length ≤ after.length :=
    fun other member after hafter => length_le_of_first? outranks_standard h member hafter
  have hwords : ∀ other ∈ standard, ∀ w, other.pattern.Matches w → w <+: taken ++ rest →
      w.length ≤ taken.length := by
    rintro other member w hw ⟨more, hmore⟩
    obtain ⟨after, hafter, hle⟩ := length_le_of_matches member hw more
    rw [hmore] at hafter
    have hle' := hothers other member after hafter
    have hlength := congrArg List.length hmore
    rw [List.length_append, List.length_append] at hlength
    omega
  have hown : IsLongest rule.pattern.Matches (taken ++ rest) taken :=
    ⟨htaken, List.prefix_append taken rest, hwords rule hrule⟩
  refine ⟨taken, rfl, hown, hothers, hwords, fun hnumber => ?_, fun hstars => ?_⟩
  · have hpattern : ∀ rule ∈ standard, rule.kind = .number → rule.pattern = numeral := by decide
    obtain ⟨hword, hstart, hlongest⟩ := hpattern rule hrule hnumber ▸ hown
    have hnumeral := matches_numeral_iff.mp hword
    exact ⟨⟨hnumeral, hstart, fun w hw => hlongest w (matches_numeral_iff.mpr hw)⟩,
      isComplete_of_numeral hnumeral⟩
  · have hpower : standard[2].pattern.Matches ['*', '*'] :=
      .left (.seq (Pattern.matches_char.mpr rfl) (Pattern.matches_char.mpr rfl))
    have hlong := hwords standard[2] (List.getElem_mem _) ['*', '*'] hpower hstars
    obtain ⟨more, hmore⟩ := hstars
    cases taken with
    | nil => simp at hlong
    | cons c others =>
      obtain ⟨rfl, -⟩ := List.cons.inj hmore
      have hne : others ≠ [] := by
        rintro rfl
        simp at hlong
      obtain ⟨hkind, rfl⟩ := power_of_stars hrule htaken hne
      exact ⟨hkind, rfl⟩

end TokenRule

open TokenRule

/-- At every position of every text the first rule of formulas that matches there has the longest
match, and where no rule matches none has a word to take. So tokens that begin with two stars are
power signs. -/
theorem lex_longest (source : String) :
    (∀ position rule rest, first? standard (source.toList.drop position) = some (rule, rest) →
      ∃ taken, LongestMatch (source.toList.drop position) rule rest taken) ∧
    (∀ position, first? standard (source.toList.drop position) = none →
      ∀ rule ∈ standard, ∀ w, rule.pattern.Matches w → ¬ w <+: source.toList.drop position) ∧
    ∀ tokens, lex standard (some source) = .ok tokens → ∀ token ∈ tokens,
      ['*', '*'] <+: source.toList.drop token.position →
        token.kind = .power ∧ token.text = "**" := by
  refine ⟨fun position rule rest => longestMatch_of_first?, ?_, ?_⟩
  · rintro position hnone rule member w hw ⟨rest, hrest⟩
    have hfails := List.findSome?_eq_none_iff.mp hnone rule member
    exact Pattern.rest?_eq_none_iff.mp (Option.map_eq_none_iff.mp hfails) w rest hrest.symm hw
  · intro tokens lexed token member hstars
    obtain ⟨ms, hms, rfl⟩ := tokensFrom_eq_ok_iff.mp lexed
    obtain ⟨m, hm, htoken⟩ := List.mem_filterMap.mp member
    obtain ⟨front, rest, htext, hposition, hfirst⟩ := hms.first?_eq hm
    have hdrop : source.toList.drop token.position = m.taken ++ rest := by
      have hlength : token.position = front.length := by
        rw [Match.position_of_token? htoken, hposition]
        exact Nat.zero_add _
      rw [hlength, htext, List.drop_left]
    rw [hdrop] at hstars
    obtain ⟨taken, hmatch⟩ := longestMatch_of_first? hfirst
    obtain rfl : m.taken = taken := List.append_cancel_right hmatch.divides
    obtain ⟨hkind, htaken⟩ := hmatch.stars hstars
    have hsame : m.rule.token? m.place m.taken = some token := htoken
    have hspace : m.rule.kind ≠ .whitespace := by
      rw [hkind]
      decide
    rw [token?_standard (exists_of_first? hfirst).1 (by simp [htaken]), if_neg hspace] at hsame
    obtain rfl := Option.some.inj hsame
    exact ⟨hkind, by rw [htaken]⟩

/-- A numeral that gives back what looks like an exponent, a point by itself, and three stars. -/
theorem lex_longest_giving_back :
    (∃ taken, LongestMatch ("2.5e+x***y".toList.drop 0) (keep .number numeral)
      "e+x***y".toList taken) ∧
    (∀ rule ∈ standard, ∀ w, rule.pattern.Matches w → ¬ w <+: "x.y".toList.drop 1) ∧
    ∃ tokens, lex standard (some "2.5e+x***y") = .ok tokens ∧
      ∃ token ∈ tokens, token.position = 6 ∧ token.kind = .power ∧ token.text = "**" := by
  have hmiddle : lex standard (some "2.5e+x***y") = .ok [⟨.number, "2.5", ⟨0, 1, 1⟩⟩,
      ⟨.identifier, "e", ⟨3, 1, 4⟩⟩, ⟨.plus, "+", ⟨4, 1, 5⟩⟩, ⟨.identifier, "x", ⟨5, 1, 6⟩⟩,
      ⟨.power, "**", ⟨6, 1, 7⟩⟩, ⟨.multiply, "*", ⟨8, 1, 9⟩⟩, ⟨.identifier, "y", ⟨9, 1, 10⟩⟩] := by
    decide +kernel
  obtain ⟨hfound, -, htokens⟩ := lex_longest "2.5e+x***y"
  obtain ⟨-, hnone, -⟩ := lex_longest "x.y"
  refine ⟨hfound 0 _ _ rfl, hnone 1 rfl, _, hmiddle, ⟨.power, "**", ⟨6, 1, 7⟩⟩, by simp, rfl, ?_⟩
  exact htokens _ hmiddle _ (by simp) (by decide)

end Formula
