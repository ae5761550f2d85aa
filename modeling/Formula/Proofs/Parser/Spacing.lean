import Formula.Proofs.Parser.Alongside
import Formula.Proofs.Token.Words

namespace Formula

open Grammar (Touches)
open Text (words)
open TokenRule (standard tokensFrom)

variable {whole whole' : String} {place place' : Text.Place} {text text' : List Char}

/-- A token of a word ends before the blank behind that word, and the next one begins after it. -/
theorem not_touches {gap word rest : List Char} {first second : List Token}
    (hrest : Text.StartsBlank rest)
    (hfirst : tokensFrom standard whole (place.advance gap) word = .ok first)
    (hsecond : tokensFrom standard whole (place.advance (gap ++ word)) rest = .ok second) :
    ∀ token ∈ first, ∀ next ∈ second, ¬ Touches token next := by
  intro token htoken next hnext
  have hbounds := TokenRule.within_standard hfirst htoken
  have hlater := TokenRule.lt_position_of_startsBlank hrest hsecond hnext
  rw [Text.Place.advance_append, Text.Place.position_advance] at hlater
  unfold Touches
  omega

/-- The tokens of two texts with the same words are the same but for their positions, and the same
of them touch: within a word they are shifted all alike, and behind a word none touches the next. -/
theorem carries_tokensFrom (h : words text = words text') :
    Carries (Along []) (tokensFrom standard whole place text)
      (tokensFrom standard whole' place' text') := by
  generalize hwords : words text = ws at h
  induction ws generalizing text text' place place' with
  | nil =>
    rw [TokenRule.tokensFrom_of_isGap (Text.isGap_of_words hwords),
      TokenRule.tokensFrom_of_isGap (Text.isGap_of_words h.symm)]
    exact .pure .done
  | cons word others ih =>
    obtain ⟨gap, rest, rfl, hgap, hne, hsolid, hrest, hothers⟩ := Text.exists_of_words hwords
    obtain ⟨gap', rest', rfl, hgap', -, -, hrest', hothers'⟩ := Text.exists_of_words h.symm
    rw [TokenRule.tokensFrom_word hgap hne hsolid hrest,
      TokenRule.tokensFrom_word hgap' hne hsolid hrest']
    intro tokens htokens
    obtain ⟨first, hfirst, htokens⟩ := exists_of_bind_eq_ok htokens
    obtain ⟨second, hsecond, htokens⟩ := exists_of_bind_eq_ok htokens
    cases htokens
    obtain ⟨first', hfirst', hshifted⟩ := TokenRule.exists_shifted whole'
      (Nat.add_comm (place.advance gap).position (place'.advance gap').position) hfirst
    obtain ⟨second', hsecond', halong⟩ := ih hothers hothers'.symm second hsecond
    refine ⟨first' ++ second', ?_, ?_⟩
    · rw [hfirst', Parser.ok_bind, hsecond']
      rfl
    · have hwithin : Along [] first (first' ++ []) :=
        .of_shifted hshifted fun token => TokenRule.kind_ne_eof_of_tokensFrom hfirst
      rw [List.append_nil] at hwithin
      exact hwithin.append halong (not_touches hrest hfirst hsecond)
        (not_touches hrest' hfirst' hsecond')

section Parses

variable {room : Room} {force : Bool} {s s' : String}

/-- Only the presence of space matters. Where two texts have the same words, so that they differ in
the gaps between and around these alone, they have the same tree, or both have a character that
begins no token, or both are no formula. -/
theorem parse_of_words_eq (room : Room) (force : Bool) (h : words s.toList = words s'.toList) :
    (∃ e, parse room force (some s) = .ok e ∧ parse room force (some s') = .ok e) ∨
      (∃ error error', parse room force (some s) = .error (.lexical error) ∧
        parse room force (some s') = .error (.lexical error')) ∨
      ∃ error error', parse room force (some s) = .error (.grammatical error) ∧
        parse room force (some s') = .error (.grammatical error') := by
  cases htokens : tokensFrom standard s .start s.toList with
  | error error =>
    cases htokens' : tokensFrom standard s' .start s'.toList with
    | error error' =>
      exact .inr (.inl ⟨error, error', parse_of_lex_error htokens,
        parse_of_lex_error htokens'⟩)
    | ok tokens' =>
      obtain ⟨tokens, hsame, -⟩ := carries_tokensFrom h.symm tokens' htokens'
      cases htokens.symm.trans hsame
  | ok tokens =>
    obtain ⟨tokens', htokens', halong⟩ := carries_tokensFrom h tokens htokens
    rw [parse_of_lex htokens, parse_of_lex htokens']
    cases hprogram : Parser.program room force (.ofTokens s tokens) with
    | ok e =>
      rw [Parser.program_alongside halong.ofTokens hprogram]
      exact .inl ⟨e, rfl, rfl⟩
    | error error =>
      cases hprogram' : Parser.program room force (.ofTokens s' tokens') with
      | ok e =>
        have hback : Alongside [] (.ofTokens s' tokens') (.ofTokens s tokens) :=
          halong.symm.ofTokens
        cases hprogram.symm.trans (Parser.program_alongside hback hprogram')
      | error error' => exact .inr (.inr ⟨error, error', rfl, rfl⟩)

end Parses

def narrowSource : String := "rate = 2 *-x max(1,rate)"

/-- The same words with other gaps: line ends, a tab, and a space of another script. -/
def wideSource : String := "\n rate\t=  2 \u2003*-x\r\nmax(1,rate) "

theorem parse_of_words_eq_stretched :
    words narrowSource.toList = words wideSource.toList ∧
      ∃ e, parse .standard false (some narrowSource) = .ok e ∧
        parse .standard false (some wideSource) = .ok e := by
  have hwords : words narrowSource.toList = words wideSource.toList := by decide +kernel
  have hparsed : (parse .standard false (some narrowSource)).toBool = true := by decide +kernel
  refine ⟨hwords, ?_⟩
  rcases parse_of_words_eq .standard false hwords with hsame | ⟨_, _, herror, -⟩ | ⟨_, _, herror, -⟩
  · exact hsame
  · rw [herror] at hparsed
    cases hparsed
  · rw [herror] at hparsed
    cases hparsed

end Formula
