import Formula.Proofs.Pattern.Border
import Formula.Proofs.Token.Lexer
import Mathlib.Data.List.Forall2

namespace Formula

/-- The same token in two texts whose starts are `n` and `n'` characters from a common place. -/
structure Token.Shifted (n n' : Nat) (token token' : Token) : Prop where
  kind : token.kind = token'.kind
  text : token.text = token'.text
  position : token.position + n' = token'.position + n

namespace TokenRule

variable {rules : List TokenRule} {whole : String} {place : Text.Place} {text : List Char}
  {tokens : List Token} {token : Token} {d : Char}

/-- Whether a character behind a text ends every match that begins within the text. -/
def Parts (rules : List TokenRule) (d : Char) (text : List Char) : Prop :=
  ∀ c rest, c :: rest <:+ text → ∀ rule ∈ rules, rule.pattern.StopsAt (c :: rest) d

theorem Parts.of_suffix {rest : List Char} (h : Parts rules d text) (hrest : rest <:+ text) :
    Parts rules d rest :=
  fun c after hafter => h c after (hafter.trans hrest)

theorem first?_append (h : ∀ rule ∈ rules, rule.pattern.StopsAt text d) (more : List Char) :
    first? rules (text ++ d :: more) =
      (first? rules text).map fun found => (found.1, found.2 ++ d :: more) := by
  induction rules with
  | nil => rfl
  | cons rule others ih =>
    obtain ⟨hrule, hothers⟩ := List.forall_mem_cons.mp h
    unfold first? at ih ⊢
    rw [List.findSome?_cons, List.findSome?_cons, hrule more]
    cases rule.pattern.rest? text with
    | none => exact ih hothers
    | some rest => rfl

/-- A rule matches nothing at the start of a text, or the empty word, or some of its characters. -/
theorem first?_cases (rules : List TokenRule) (c : Char) (text : List Char) :
    first? rules (c :: text) = none ∨
      (∃ rule, first? rules (c :: text) = some (rule, c :: text)) ∨
        ∃ rule taken rest, taken ≠ [] ∧ c :: text = taken ++ rest ∧
          first? rules (taken ++ rest) = some (rule, rest) := by
  cases hfirst : first? rules (c :: text) with
  | none => exact .inl rfl
  | some found =>
    obtain ⟨rule, rest⟩ := found
    obtain ⟨-, taken, htext, -⟩ := exists_of_first? hfirst
    right
    by_cases hne : taken = []
    · subst hne
      have hrest : rest = c :: text := htext.symm
      exact .inl ⟨rule, by rw [hrest]⟩
    · exact .inr ⟨rule, taken, rest, hne, htext, by rw [← htext, hfirst]⟩

@[elab_as_elim]
theorem matchInduction (rules : List TokenRule) {motive : List Char → Prop} (nil : motive [])
    (unexpected : ∀ c text, first? rules (c :: text) = none → motive (c :: text))
    (emptyMatch : ∀ c text rule, first? rules (c :: text) = some (rule, c :: text) →
      motive (c :: text))
    (taken : ∀ taken rest rule, taken ≠ [] → first? rules (taken ++ rest) = some (rule, rest) →
      motive rest → motive (taken ++ rest))
    (text : List Char) : motive text := by
  induction hlength : text.length using Nat.strongRecOn generalizing text with
  | _ length ih =>
    cases text with
    | nil => exact nil
    | cons c text =>
      rcases first?_cases rules c text with hnone | ⟨rule, hsame⟩ |
        ⟨rule, word, rest, hne, heq, hfirst⟩
      · exact unexpected c text hnone
      · exact emptyMatch c text rule hsame
      · have hpositive := List.length_pos_iff.mpr hne
        have hlt : rest.length < length := by
          rw [← hlength, heq, List.length_append]
          omega
        rw [heq]
        exact taken word rest rule hne hfirst (ih rest.length hlt rest rfl)

theorem tokensFrom_nil : tokensFrom rules whole place [] = pure [] := by
  rw [tokensFrom]
  rfl

theorem tokensFrom_unexpected {c : Char} (h : first? rules (c :: text) = none) :
    tokensFrom rules whole place (c :: text) = .error ⟨.unexpected c whole, place⟩ := by
  rw [tokensFrom, h]

theorem tokensFrom_emptyMatch {c : Char} {rule : TokenRule}
    (h : first? rules (c :: text) = some (rule, c :: text)) :
    tokensFrom rules whole place (c :: text) = .error ⟨.emptyMatch rule.kind.name, place⟩ := by
  rw [tokensFrom, h]
  simp

theorem tokensFrom_taken {taken rest : List Char} {rule : TokenRule} (hne : taken ≠ [])
    (h : first? rules (taken ++ rest) = some (rule, rest)) :
    tokensFrom rules whole place (taken ++ rest) = do
      let tokens ← tokensFrom rules whole (place.advance taken) rest
      return (rule.token? place taken).toList ++ tokens := by
  obtain ⟨c, others, rfl⟩ := List.exists_cons_of_ne_nil hne
  have hle : rest.length ≤ (others ++ rest).length := by simp
  have htake : (c :: (others ++ rest)).take ((others ++ rest).length + 1 - rest.length) =
      c :: others := by
    rw [List.length_append, show others.length + rest.length + 1 - rest.length =
      (c :: others).length by simp; omega]
    exact List.take_left
  rw [List.cons_append] at h
  rw [List.cons_append, tokensFrom, h]
  simp only [if_pos hle, htake]
  cases tokensFrom rules whole (place.advance (c :: others)) rest with
  | error error => rfl
  | ok tokens =>
    cases rule.token? place (c :: others) with
    | none => rfl
    | some token => rfl

theorem tokensFrom_of_taken {taken rest : List Char} {rule : TokenRule} (hne : taken ≠ [])
    (hfirst : first? rules (taken ++ rest) = some (rule, rest))
    (hothers : tokensFrom rules whole (place.advance taken) rest = .ok tokens) :
    tokensFrom rules whole place (taken ++ rest) =
      .ok ((rule.token? place taken).toList ++ tokens) := by
  rw [tokensFrom_taken hne hfirst, hothers]
  rfl

/-- A text that has tokens is a row of matches. -/
@[elab_as_elim]
theorem tokensInduction {motive : (place : Text.Place) → (text : List Char) →
      (tokens : List Token) → tokensFrom rules whole place text = .ok tokens → Prop}
    (nil : ∀ place, motive place [] [] tokensFrom_nil)
    (taken : ∀ place taken rest rule tokens (hne : taken ≠ [])
      (hfirst : first? rules (taken ++ rest) = some (rule, rest))
      (hothers : tokensFrom rules whole (place.advance taken) rest = .ok tokens),
      motive (place.advance taken) rest tokens hothers →
        motive place (taken ++ rest) ((rule.token? place taken).toList ++ tokens)
          (tokensFrom_of_taken hne hfirst hothers))
    (h : tokensFrom rules whole place text = .ok tokens) : motive place text tokens h := by
  induction text using matchInduction rules generalizing place tokens with
  | nil =>
    cases tokensFrom_nil.symm.trans h
    exact nil place
  | unexpected c text hnone => cases (tokensFrom_unexpected hnone).symm.trans h
  | emptyMatch c text rule hsame => cases (tokensFrom_emptyMatch hsame).symm.trans h
  | taken word rest rule hne hfirst ih =>
    have hok := h
    rw [tokensFrom_taken hne hfirst] at hok
    obtain ⟨others, hothers, hok⟩ := exists_of_bind_eq_ok hok
    cases hok
    exact taken place word rest rule others hne hfirst hothers (ih hothers)

theorem tokensFrom_append (h : Parts rules d text) (more : List Char) :
    tokensFrom rules whole place (text ++ d :: more) = do
      let first ← tokensFrom rules whole place text
      let second ← tokensFrom rules whole (place.advance text) (d :: more)
      return first ++ second := by
  induction text using matchInduction rules generalizing place with
  | nil => simp only [tokensFrom_nil, pure_bind, List.nil_append, bind_pure, Text.Place.advance_nil]
  | unexpected c text hnone =>
    have hfirst := first?_append (h c text List.suffix_rfl) more
    rw [hnone] at hfirst
    rw [tokensFrom_unexpected hnone]
    exact tokensFrom_unexpected hfirst
  | emptyMatch c text rule hsame =>
    have hfirst := first?_append (h c text List.suffix_rfl) more
    rw [hsame] at hfirst
    rw [tokensFrom_emptyMatch hsame]
    exact tokensFrom_emptyMatch hfirst
  | taken taken rest rule hne hrule ih =>
    obtain ⟨c, others, rfl⟩ := List.exists_cons_of_ne_nil hne
    have hfirst := first?_append (h c (others ++ rest) List.suffix_rfl) more
    rw [← List.cons_append, hrule, Option.map_some, List.append_assoc] at hfirst
    rw [tokensFrom_taken hne hrule, List.append_assoc, tokensFrom_taken hne hfirst,
      ih (h.of_suffix (List.suffix_append _ _)), Text.Place.advance_append]
    simp only [bind_assoc, pure_bind, List.append_assoc]

theorem shifted_token? {n n' : Nat} {place' : Text.Place}
    (hplace : place.position + n' = place'.position + n) (rule : TokenRule) (taken : List Char) :
    List.Forall₂ (Token.Shifted n n') (rule.token? place taken).toList
      (rule.token? place' taken).toList := by
  unfold token?
  split
  next text htext =>
    split
    next => exact .nil
    next => exact .cons ⟨rfl, rfl, hplace⟩ .nil
  next => exact .nil

theorem exists_shifted {n n' : Nat} {place' : Text.Place} (whole' : String)
    (hplace : place.position + n' = place'.position + n)
    (h : tokensFrom rules whole place text = .ok tokens) :
    ∃ tokens', tokensFrom rules whole' place' text = .ok tokens' ∧
      List.Forall₂ (Token.Shifted n n') tokens tokens' := by
  induction h using tokensInduction generalizing place' with
  | nil place => exact ⟨[], tokensFrom_nil, .nil⟩
  | taken place taken rest rule others hne hfirst hothers ih =>
    have hadvance : (place.advance taken).position + n' = (place'.advance taken).position + n := by
      rw [Text.Place.position_advance, Text.Place.position_advance]
      omega
    obtain ⟨others', hothers', hshifted⟩ := ih hadvance
    exact ⟨(rule.token? place' taken).toList ++ others', tokensFrom_of_taken hne hfirst hothers',
      List.rel_append (shifted_token? hplace rule taken) hshifted⟩

/-- Where no transform lengthens its text, tokens lie within the text that they come from. -/
theorem within_of_tokensFrom
    (hrules : ∀ rule ∈ rules, ∀ {taken kept}, rule.transform taken = some kept →
      kept.length ≤ taken.length)
    (h : tokensFrom rules whole place text = .ok tokens) (member : token ∈ tokens) :
    place.position ≤ token.position ∧ token.stop ≤ place.position + text.length := by
  induction h using tokensInduction with
  | nil place => simp at member
  | taken place taken rest rule others hne hfirst hothers ih =>
    rw [List.length_append]
    rcases List.mem_append.mp member with hfirstToken | hother
    · obtain ⟨-, rfl, htext⟩ := of_token? (Option.mem_toList.mp hfirstToken)
      obtain ⟨hrule, -⟩ := exists_of_first? hfirst
      have hlength := hrules rule hrule htext
      rw [String.length_ofList] at hlength
      unfold Token.stop Token.position
      omega
    · have hbounds := ih hother
      rw [Text.Place.position_advance] at hbounds
      omega

/-- The rules of formulas take at least one character, so a text has tokens unless there is a
character that begins none. -/
theorem exists_unexpected {error : LexError}
    (h : tokensFrom standard whole place text = .error error) :
    ∃ c place', error = ⟨.unexpected c whole, place'⟩ := by
  have hstandard : ∀ rule ∈ standard, rule.pattern.nullable = false := by decide
  induction text using matchInduction standard generalizing place with
  | nil =>
    rw [tokensFrom_nil] at h
    cases h
  | unexpected c text hnone =>
    rw [tokensFrom_unexpected hnone] at h
    cases h
    exact ⟨c, place, rfl⟩
  | emptyMatch c text rule hsame =>
    obtain ⟨hrule, taken, htext, htaken⟩ := exists_of_first? hsame
    have hnullable := htaken.nullable (List.self_eq_append_left.mp htext)
    rw [hstandard rule hrule] at hnullable
    cases hnullable
  | taken taken rest rule hne hfirst ih =>
    rw [tokensFrom_taken hne hfirst] at h
    rcases exists_of_bind_eq_error h with h | ⟨_, -, h⟩
    · exact ih h
    · cases h

theorem kind_ne_eof_of_tokensFrom (h : tokensFrom standard whole place text = .ok tokens)
    (member : token ∈ tokens) : token.kind ≠ .eof := by
  obtain ⟨rule, hrule, hkind, -⟩ := exists_makes_of_tokensFrom h member
  have heach : ∀ rule ∈ standard, rule.kind ≠ .eof := by decide
  rw [hkind]
  exact heach rule hrule

/-- A character that one rule takes alone, and no other rule takes, ends every match. -/
theorem parts_of_single (kind : TokenKind)
    (hunused : ∀ rule ∈ standard, rule.kind ≠ kind → rule.pattern.uses d = false)
    (hsingle : ∀ rule ∈ standard, rule.kind = kind → rule.pattern = .char d) (text : List Char) :
    Parts standard d text := by
  intro c rest _ rule member
  by_cases hkind : rule.kind = kind
  · rw [hsingle rule member hkind]
    exact Pattern.stopsAt_oneOf _ _ c rest
  · exact Pattern.stopsAt_of_unused (hunused rule member hkind) _

theorem parts_semicolon (text : List Char) : Parts standard ';' text :=
  parts_of_single .semicolon (by decide) (by decide) text

theorem parts_lparen (text : List Char) : Parts standard '(' text :=
  parts_of_single .lparen (by decide) (by decide) text

theorem parts_rparen (text : List Char) : Parts standard ')' text :=
  parts_of_single .rparen (by decide) (by decide) text

theorem tokensFrom_lparen (text : List Char) :
    tokensFrom standard whole place ('(' :: text) = do
      let tokens ← tokensFrom standard whole (place.advance ['(']) text
      return ⟨.lparen, "(", place⟩ :: tokens := by
  have hfirst : first? standard (['('] ++ text) = some (keep .lparen (.char '('), text) := rfl
  exact tokensFrom_taken (by simp) hfirst

theorem tokensFrom_rparen (text : List Char) :
    tokensFrom standard whole place (')' :: text) = do
      let tokens ← tokensFrom standard whole (place.advance [')']) text
      return ⟨.rparen, ")", place⟩ :: tokens := by
  have hfirst : first? standard ([')'] ++ text) = some (keep .rparen (.char ')'), text) := rfl
  exact tokensFrom_taken (by simp) hfirst

end TokenRule

end Formula
