import Formula.Proofs.Effect
import Formula.Proofs.Token.Seams

namespace Formula

/-- What a rule takes at a place of a text. -/
structure Match where
  rule : TokenRule
  place : Text.Place
  taken : List Char

namespace Match

def position (m : Match) : Nat :=
  m.place.position

/-- The position behind the text that is taken. -/
def stop (m : Match) : Nat :=
  m.position + m.taken.length

def token? (m : Match) : Option Token :=
  m.rule.token? m.place m.taken

/-- The number of characters that some matches take. -/
def coverage (ms : List Match) : Nat :=
  (ms.flatMap (·.taken)).length

/-- Whether one match gives the next token behind that of another one: what stands between them
gives none. -/
def IsNext (ms : List Match) (m : Match) (between : List Match) (m' : Match) : Prop :=
  (∃ before after, ms = before ++ m :: (between ++ m' :: after)) ∧ ∀ n ∈ between, n.token? = none

/-- Whether tokens end where their matches do. Then none of them reaches into the next one, and two
of them touch where their matches do. -/
structure EndsAlike (ms : List Match) : Prop where
  stop : ∀ m ∈ ms, ∀ token, m.token? = some token → token.stop = m.stop
  ordered : ∀ m between m' token token', IsNext ms m between m' → m.token? = some token →
    m'.token? = some token' → token.stop ≤ token'.position
  adjacent : ∀ m between m' token token', IsNext ms m between m' → m.token? = some token →
    m'.token? = some token' →
      (m.stop = m'.position ↔ token.stop = token'.position ∧ between = [])

/-- Whether the token of a match, if it gives one, is as long as what is taken. -/
def KeepsLength (m : Match) : Prop :=
  ∀ token, m.token? = some token → token.text.length = m.taken.length

theorem position_of_token? {m : Match} {token : Token} (h : m.token? = some token) :
    token.position = m.position := by
  obtain ⟨-, hplace, -⟩ := TokenRule.of_token? h
  rw [Token.position, hplace, position]

theorem stop_of_token? {m : Match} {token : Token} (h : m.token? = some token) :
    token.stop = m.position + token.text.length := by
  rw [Token.stop, position_of_token? h]

theorem stop_eq_iff {m : Match} {token : Token} (h : m.token? = some token) :
    token.stop = m.stop ↔ token.text.length = m.taken.length := by
  rw [stop_of_token? h, stop]
  omega

end Match

namespace TokenRule

open Match

/-- The matches of a text from a place on. Each takes something, by the first rule that matches. -/
inductive Matched (rules : List TokenRule) : Text.Place → List Char → List Match → Prop where
  | nil {place : Text.Place} : Matched rules place [] []
  | cons {place : Text.Place} {taken rest : List Char} {rule : TokenRule} {ms : List Match} :
    taken ≠ [] → first? rules (taken ++ rest) = some (rule, rest) →
    Matched rules (place.advance taken) rest ms →
    Matched rules place (taken ++ rest) (⟨rule, place, taken⟩ :: ms)

variable {rules : List TokenRule} {whole : String} {place : Text.Place} {text : List Char}
  {tokens : List Token} {before between after ms ms' : List Match} {m m' : Match}

/-- The tokens of a text are those of its matches. -/
theorem tokensFrom_eq_ok_iff :
    tokensFrom rules whole place text = .ok tokens ↔
      ∃ ms, Matched rules place text ms ∧ tokens = ms.filterMap Match.token? := by
  have hjoin : ∀ (rule : TokenRule) (place : Text.Place) (taken : List Char) (ms : List Match),
      (rule.token? place taken).toList ++ ms.filterMap Match.token? =
        (⟨rule, place, taken⟩ :: ms).filterMap Match.token? := by
    intro rule place taken ms
    have hsame : Match.token? ⟨rule, place, taken⟩ = rule.token? place taken := rfl
    rw [List.filterMap_cons, hsame]
    cases rule.token? place taken with
    | none => rfl
    | some token => rfl
  constructor
  · intro h
    induction h using tokensInduction with
    | nil place => exact ⟨[], .nil, rfl⟩
    | taken place taken rest rule others hne hfirst hothers ih =>
      obtain ⟨ms, hms, rfl⟩ := ih
      exact ⟨_, .cons hne hfirst hms, hjoin rule place taken ms⟩
  · rintro ⟨ms, hms, rfl⟩
    induction hms with
    | nil => exact tokensFrom_nil
    | cons hne hfirst _ ih => rw [tokensFrom_of_taken hne hfirst ih, hjoin]

namespace Matched

theorem taken_ne_nil (h : Matched rules place text ms) : ∀ m ∈ ms, m.taken ≠ [] := by
  induction h with
  | nil => simp
  | cons hne _ _ ih => exact List.forall_mem_cons.mpr ⟨hne, ih⟩

/-- Some matches stand between a place and what is left of the text behind them. -/
theorem exists_rest (h : Matched rules place text (ms ++ ms')) :
    ∃ front rest, text = front ++ rest ∧ front.length = coverage ms ∧
      Matched rules (place.advance front) rest ms' := by
  induction ms generalizing place text with
  | nil => exact ⟨[], text, rfl, rfl, h⟩
  | cons m ms ih =>
    cases h with
    | cons hne hfirst hrest =>
      obtain ⟨front, rest, rfl, hlength, hms'⟩ := ih hrest
      refine ⟨_ ++ front, rest, (List.append_assoc ..).symm, ?_, ?_⟩
      · simp [coverage, hlength]
      · rwa [Text.Place.advance_append]

theorem position_eq (h : Matched rules place text (ms ++ m :: ms')) :
    m.position = place.position + coverage ms := by
  obtain ⟨front, rest, -, hlength, hrest⟩ := exists_rest h
  cases hrest with
  | cons _ _ _ =>
    change (place.advance front).position = _
    rw [Text.Place.position_advance, hlength]

/-- A match takes a part of the text, by the first rule that matches there. -/
theorem first?_eq (h : Matched rules place text ms) (member : m ∈ ms) :
    ∃ front rest, text = front ++ (m.taken ++ rest) ∧
      m.position = place.position + front.length ∧
      first? rules (m.taken ++ rest) = some (m.rule, rest) := by
  obtain ⟨before, after, rfl⟩ := List.append_of_mem member
  obtain ⟨front, rest, rfl, hlength, hrest⟩ := exists_rest h
  have hposition := position_eq h
  cases hrest with
  | cons _ hfirst _ => exact ⟨front, _, rfl, by rw [hposition, hlength], hfirst⟩

theorem coverage_eq_zero_iff (h : Matched rules place text ms) (hsub : between ⊆ ms) :
    coverage between = 0 ↔ between = [] := by
  constructor
  · intro hzero
    cases between with
    | nil => rfl
    | cons n rest =>
      have hpositive := List.length_pos_iff.mpr (h.taken_ne_nil n (hsub List.mem_cons_self))
      rw [coverage, List.flatMap_cons, List.length_append] at hzero
      omega
  · rintro rfl
    rfl

/-- What stands between two matches is what the matches between them take. -/
theorem position_of_isNext (h : Matched rules place text ms) (hnext : IsNext ms m between m') :
    m'.position = m.stop + coverage between ∧ (coverage between = 0 ↔ between = []) := by
  obtain ⟨⟨before, after, rfl⟩, -⟩ := hnext
  refine ⟨?_, h.coverage_eq_zero_iff fun n member => by simp [member]⟩
  have hfirst := position_eq h
  have hjoined : before ++ m :: (between ++ m' :: after) =
      (before ++ m :: between) ++ m' :: after := by simp
  have hsecond := position_eq (hjoined ▸ h)
  simp only [coverage, List.flatMap_append, List.flatMap_cons, List.length_append]
    at hfirst hsecond ⊢
  rw [Match.stop]
  omega

/-- The ends of tokens are those of the matches where every transform keeps the length of what it is
given. -/
theorem endsAlike_iff (h : Matched rules place text ms) :
    EndsAlike ms ↔ ∀ m ∈ ms, m.KeepsLength := by
  constructor
  · intro hends m member token htoken
    exact (stop_eq_iff htoken).mp (hends.stop m member token htoken)
  · intro hkeeps
    have hstop : ∀ m ∈ ms, ∀ token, m.token? = some token → token.stop = m.stop :=
      fun m member token htoken => (stop_eq_iff htoken).mpr (hkeeps m member token htoken)
    have hleft : ∀ m between m', IsNext ms m between m' → m ∈ ms := by
      rintro m between m' ⟨⟨before, after, rfl⟩, -⟩
      simp
    refine ⟨hstop, ?_, ?_⟩
    · intro m between m' token token' hnext htoken htoken'
      obtain ⟨hbehind, -⟩ := h.position_of_isNext hnext
      rw [hstop m (hleft m between m' hnext) token htoken, position_of_token? htoken']
      omega
    · intro m between m' token token' hnext htoken htoken'
      obtain ⟨hbehind, hempty⟩ := h.position_of_isNext hnext
      rw [hstop m (hleft m between m' hnext) token htoken, position_of_token? htoken', ← hempty]
      omega

end Matched

end TokenRule

open TokenRule Match

/-- Any rules divide the text that they can read into matches without gaps, and the tokens are those
of the matches. Matches end in front of the next one, and touch it where no match without a token
stands between. A token ends where its match does exactly if it is as long as what was taken; so all
ends are those of matches exactly if every transform keeps the length, while others let a token end
before or within what follows it. -/
theorem endsAlike_of_lex {rules : List TokenRule} {source : String} {tokens : List Token}
    (lexed : lex rules (some source) = .ok tokens) :
    ∃ ms, Matched rules .start source.toList ms ∧ tokens = ms.filterMap Match.token? ∧
      (∀ m ∈ ms, ∃ front rest, source.toList = front ++ (m.taken ++ rest) ∧
        m.position = front.length ∧ first? rules (m.taken ++ rest) = some (m.rule, rest)) ∧
      (EndsAlike ms ↔ ∀ m ∈ ms, m.KeepsLength) ∧
      (∀ m ∈ ms, ∀ token, m.token? = some token →
        (token.stop = m.stop ↔ token.text.length = m.taken.length)) ∧
      ∀ m between m' token token', IsNext ms m between m' → m.token? = some token →
        m'.token? = some token' →
          m.stop ≤ token'.position ∧ (m.stop = token'.position ↔ between = []) ∧
          (token.stop ≤ token'.position ↔
            token.text.length ≤ m.taken.length + coverage between) ∧
          (token.stop = token'.position ↔
            token.text.length = m.taken.length + coverage between) := by
  obtain ⟨ms, hms, htokens⟩ := tokensFrom_eq_ok_iff.mp lexed
  refine ⟨ms, hms, htokens, ?_, hms.endsAlike_iff, fun m _ token => stop_eq_iff, ?_⟩
  · intro m member
    obtain ⟨front, rest, htext, hposition, hfirst⟩ := hms.first?_eq member
    exact ⟨front, rest, htext, by rw [hposition]; exact Nat.zero_add _, hfirst⟩
  · intro m between m' token token' hnext htoken htoken'
    obtain ⟨hbehind, hempty⟩ := hms.position_of_isNext hnext
    rw [stop_of_token? htoken, position_of_token? htoken', ← hempty]
    rw [Match.stop] at hbehind ⊢
    omega

/-- Rules that drop the zeros before a number, write every word twice and pass over blanks. -/
def reshapingRules : List TokenRule :=
  [⟨.number, .some .digit, fun text => some (String.ofList (text.toList.dropWhile (· == '0')))⟩,
   ⟨.identifier, .some (.oneOf false [.range 'a' 'z']), fun text => some (text ++ text)⟩,
   skip .whitespace (.some .blank)]

theorem endsAlike_of_lex_reshaping :
    ∃ tokens ms, lex reshapingRules (some "12 007ab9") = .ok tokens ∧
      Matched reshapingRules .start "12 007ab9".toList ms ∧ tokens = ms.filterMap Match.token? ∧
      (EndsAlike ms ↔ ∀ m ∈ ms, m.KeepsLength) := by
  obtain ⟨tokens, lexed, -⟩ := @exists_ok_of_any _ _
    (lex reshapingRules (some "12 007ab9")) (fun _ => true) (by decide +kernel)
  obtain ⟨ms, hms, htokens, -, hends, -⟩ := endsAlike_of_lex lexed
  exact ⟨tokens, ms, lexed, hms, htokens, hends⟩

/-- A number without its zeros ends too early, and a word that is written twice reaches into what
stands behind it. -/
theorem reshaping_not_endsAlike :
    ¬ ∀ (rules : List TokenRule) (source : String) (tokens : List Token) (ms : List Match),
      lex rules (some source) = .ok tokens → Matched rules .start source.toList ms →
        tokens = ms.filterMap Match.token? → EndsAlike ms := by
  intro h
  have hms : Matched reshapingRules .start (['0', '0', '7'] ++ (['a', 'b'] ++ (['9'] ++ [])))
      [⟨reshapingRules[0], .start, ['0', '0', '7']⟩, ⟨reshapingRules[1], ⟨3, 1, 4⟩, ['a', 'b']⟩,
        ⟨reshapingRules[0], ⟨5, 1, 6⟩, ['9']⟩] :=
    .cons (by decide) rfl (.cons (by decide) rfl (.cons (by decide) rfl .nil))
  have hends := h reshapingRules "007ab9" _ _ (tokensFrom_eq_ok_iff.mpr ⟨_, hms, rfl⟩) hms rfl
  have hnumber : Match.token? ⟨reshapingRules[0], .start, ['0', '0', '7']⟩ =
      some ⟨.number, "7", .start⟩ := by decide +kernel
  have hstop : (1 : Nat) = 3 := hends.stop _ (by simp) _ hnumber
  omega

end Formula
