import Formula.Proofs.Text.Place
import Formula.Proofs.Token.Cut

namespace Formula

open Text (IsGap isBlank)

/-- What stands in a text from a position on before each token, and behind the last one. -/
def Text.uncovered (text : List Char) (start : Nat) : List Token → List (List Char)
  | [] => [text.drop start]
  | token :: tokens =>
    text.extract start token.position :: Text.uncovered text token.stop tokens

/-- Words with a gap in front of each, and what is left of the gaps behind them. -/
def Text.interleave : List (List Char) → List (List Char) → List Char
  | gap :: gaps, word :: words => gap ++ (word ++ interleave gaps words)
  | gaps, _ => gaps.flatten

/-- Whether a text is its tokens in order with gaps between and around them. -/
structure Covers (source : List Char) (tokens : List Token) : Prop where
  /-- A token has the text from its position to its end. -/
  text : ∀ token ∈ tokens, token.text.toList = source.extract token.position token.stop
  solid : ∀ token ∈ tokens, ∀ c ∈ token.text.toList, isBlank c = false
  /-- No token is empty, and each one begins where the one before has ended or later. -/
  advancing : ∀ token ∈ tokens, token.position < token.stop
  ordered : tokens.Pairwise fun token next => token.stop ≤ next.position
  gaps : ∀ gap ∈ Text.uncovered source 0 tokens, IsGap gap
  whole : Text.interleave (Text.uncovered source 0 tokens) (tokens.map (·.text.toList)) = source

namespace TokenRule

variable {whole : String} {place : Text.Place} {text before taken rest : List Char}
  {tokens : List Token} {token : Token} {rule : TokenRule}

/-- Words behind a gap, each at the place where its token says that it stands. -/
inductive Row : Nat → List Char → List Token → Prop where
  | gap {start : Nat} {gap : List Char} : IsGap gap → Row start gap []
  | word {start : Nat} {gap rest : List Char} {token : Token} {tokens : List Token} :
    IsGap gap → token.position = start + gap.length →
    (∀ c ∈ token.text.toList, isBlank c = false) → Row token.stop rest tokens →
    Row start (gap ++ (token.text.toList ++ rest)) (token :: tokens)

theorem Row.gap_append {start : Nat} {gap : List Char} (hgap : IsGap gap)
    (h : Row (start + gap.length) text tokens) : Row start (gap ++ text) tokens := by
  cases h with
  | gap hmore => exact .gap (List.forall_mem_append.mpr ⟨hgap, hmore⟩)
  | word hmore hposition hsolid hrest =>
    rw [← List.append_assoc]
    refine .word (List.forall_mem_append.mpr ⟨hgap, hmore⟩) ?_ hsolid hrest
    rw [hposition, List.length_append, Nat.add_assoc]

/-- No rule but that of blanks takes a blank. -/
theorem solid_of_first? (h : first? standard (taken ++ rest) = some (rule, rest))
    (hkind : rule.kind ≠ .whitespace) : ∀ c ∈ taken, isBlank c = false := by
  obtain ⟨hrule, word, htext, hword⟩ := exists_of_first? h
  obtain rfl : taken = word := List.append_cancel_right htext
  intro c member
  by_contra hblank
  have hunused := uses_of_isBlank (by simpa using hblank) rule hrule hkind
  exact hword.not_mem hunused member

theorem row_of_tokensFrom (h : tokensFrom standard whole place text = .ok tokens) :
    Row place.position text tokens := by
  induction h using tokensInduction with
  | nil place => exact .gap (by simp [IsGap])
  | taken place taken rest rule others hne hfirst hothers ih =>
    rw [Text.Place.position_advance] at ih
    rw [token?_standard (exists_of_first? hfirst).1 hne]
    by_cases hkind : rule.kind = .whitespace
    · rw [if_pos hkind]
      exact .gap_append (gap_of_first? hfirst hkind).1 ih
    · rw [if_neg hkind]
      have hsolid := solid_of_first? hfirst hkind
      have hword := @Row.word place.position [] rest ⟨rule.kind, String.ofList taken, place⟩ others
        (by simp [IsGap]) rfl (by simpa using hsolid)
        (by simpa [Token.stop, Token.position] using ih)
      simpa using hword

theorem extract_append (before middle rest : List Char) :
    (before ++ (middle ++ rest)).extract before.length (before.length + middle.length) =
      middle := by
  rw [List.extract_eq_take_drop, List.drop_left, Nat.add_sub_cancel_left, List.take_left]

namespace Row

variable {start : Nat}

theorem length_front {before gap : List Char}
    (hposition : token.position = before.length + gap.length) :
    (before ++ (gap ++ token.text.toList)).length = token.stop := by
  rw [List.length_append, List.length_append, String.length_toList, Token.stop, hposition,
    Nat.add_assoc]

theorem gaps (h : Row start text tokens) {before : List Char} (hlength : before.length = start) :
    (∀ gap ∈ Text.uncovered (before ++ text) start tokens, IsGap gap) ∧
      Text.interleave (Text.uncovered (before ++ text) start tokens)
        (tokens.map (·.text.toList)) = text := by
  induction h generalizing before with
  | gap hgap =>
    subst hlength
    simpa [Text.uncovered, Text.interleave] using hgap
  | @word start gap rest token tokens hgap hposition _ _ ih =>
    subst hlength
    obtain ⟨hgaps, hwhole⟩ := ih (length_front hposition)
    simp only [List.append_assoc] at hgaps hwhole
    rw [Text.uncovered, hposition, extract_append]
    refine ⟨List.forall_mem_cons.mpr ⟨hgap, hgaps⟩, ?_⟩
    rw [List.map_cons, Text.interleave, hwhole]

theorem text_eq (h : Row start text tokens) {before : List Char} (hlength : before.length = start)
    (member : token ∈ tokens) :
    token.text.toList = (before ++ text).extract token.position token.stop := by
  induction h generalizing before with
  | gap => simp at member
  | @word start gap rest first tokens hgap hposition _ _ ih =>
    subst hlength
    have hfront : before.length + gap.length = (before ++ gap).length := by simp
    rcases List.mem_cons.mp member with rfl | member
    · rw [Token.stop, hposition, ← List.append_assoc, hfront, String.length, extract_append]
    · have hrest := ih (length_front hposition) member
      rwa [List.append_assoc, List.append_assoc] at hrest

theorem solid (h : Row start text tokens) (member : token ∈ tokens) :
    ∀ c ∈ token.text.toList, isBlank c = false := by
  induction h with
  | gap => simp at member
  | word _ _ hsolid _ ih =>
    rcases List.mem_cons.mp member with rfl | member
    · exact hsolid
    · exact ih member

end Row

/-- The tokens of a text cover it. -/
theorem covers_of_tokensFrom (h : tokensFrom standard whole .start text = .ok tokens) :
    Covers text tokens := by
  have row := row_of_tokensFrom h
  have hnone : ([] : List Char).length = Text.Place.start.position := rfl
  obtain ⟨gaps, whole⟩ := row.gaps hnone
  exact {
    text := fun token member => row.text_eq hnone member
    solid := fun token member => row.solid member
    advancing := fun token member => position_lt_stop h member
    ordered := pairwise_of_tokensFrom h
    gaps := gaps
    whole := whole }

/-- Whether a text cannot be read on at some place: what stands before it has tokens, and no rule
matches there. -/
structure Stuck (source : List Char) (place : Text.Place) : Prop where
  position : place.position < source.length
  tokens : ∃ tokens, lex standard (some (String.ofList (source.take place.position))) = .ok tokens
  stops : ∀ rule ∈ standard, rule.pattern.rest? (source.drop place.position) = none
  line : place.line = (source.take place.position).count '\n' + 1
  column : place.column = (Text.lastLine (source.take place.position)).length + 1

/-- A text without tokens has a character that no rule takes, in front of which it has tokens. -/
theorem exists_split_of_error {error : LexError}
    (h : tokensFrom standard whole place text = .error error) :
    ∃ before c rest tokens, text = before ++ c :: rest ∧
      tokensFrom standard whole place before = .ok tokens ∧
      first? standard (c :: rest) = none ∧
      error = ⟨.unexpected c whole, place.advance before⟩ := by
  obtain ⟨before, c, rest, tokens, rfl, htokens, hplace, ⟨hnone, hfault⟩ | ⟨rule, -, hfault⟩⟩ :=
    exists_front_of_error h
  · refine ⟨before, c, rest, tokens, rfl, htokens, hnone, ?_⟩
    rw [← hplace, ← hfault]
  · obtain ⟨d, place', rfl⟩ := exists_unexpected h
    cases hfault

end TokenRule

/-- Reading a text loses nothing of it. If it has tokens, each is the part of the text from its
position to its end, without a blank and behind the one before, and all that stands before, between
and behind them is blank: so the text is that of the tokens with gaps between and around them. If it
has none, the complaint is about the character at its place, where no rule matches and in front of
which the text has tokens, and line and column are those of that place. -/
theorem lex_covers (source : String) :
    (∀ tokens, lex TokenRule.standard (some source) = .ok tokens →
      Covers source.toList tokens) ∧
    ∀ error, lex TokenRule.standard (some source) = .error error →
      TokenRule.Stuck source.toList error.place ∧
        ∃ c, source.toList[error.place.position]? = some c ∧
          error.fault = .unexpected c source := by
  refine ⟨fun tokens h => TokenRule.covers_of_tokensFrom h, fun error h => ?_⟩
  obtain ⟨before, c, rest, tokens, hsource, htokens, hnone, rfl⟩ :=
    TokenRule.exists_split_of_error h
  rw [Text.Place.advance_start, hsource]
  have htake : (before ++ c :: rest).take before.length = before := List.take_left
  have hdrop : (before ++ c :: rest).drop before.length = c :: rest := List.drop_left
  refine ⟨⟨?_, ⟨tokens, ?_⟩, fun rule member => ?_, ?_, ?_⟩, c, ?_, rfl⟩
  · simp
  · rw [lex, String.toList_ofList, htake]
    exact TokenRule.tokensFrom_whole _ htokens
  · rw [hdrop]
    simpa using List.findSome?_eq_none_iff.mp hnone rule member
  · rw [htake]
  · rw [htake]
  · simp

/-- A text with blanks of several kinds and numerals that take back what looks like an exponent, and
one that ends with a point by itself. -/
theorem lex_covers_spread :
    (∃ tokens, lex TokenRule.standard (some "\n1.e5 *\t* .5e+x\n ") = .ok tokens ∧
      Covers "\n1.e5 *\t* .5e+x\n ".toList tokens) ∧
    lex TokenRule.standard (some "x\n 2e+ .$") =
        .error ⟨.unexpected '.' "x\n 2e+ .$", ⟨7, 2, 6⟩⟩ ∧
      TokenRule.Stuck "x\n 2e+ .$".toList ⟨7, 2, 6⟩ := by
  obtain ⟨tokens, h, -⟩ := @exists_ok_of_any _ _
    (lex TokenRule.standard (some "\n1.e5 *\t* .5e+x\n ")) (fun _ => true) (by decide +kernel)
  have hstuck : lex TokenRule.standard (some "x\n 2e+ .$") =
      .error ⟨.unexpected '.' "x\n 2e+ .$", ⟨7, 2, 6⟩⟩ := by decide +kernel
  exact ⟨⟨tokens, h, (lex_covers _).1 tokens h⟩, hstuck, ((lex_covers _).2 _ hstuck).1⟩

end Formula
