import Formula.Proofs.Text.Words
import Formula.Proofs.Token.Seams

namespace Formula.TokenRule

open Text (IsGap StartsBlank StartsSolid isBlank)

variable {whole : String} {place : Text.Place} {text gap word rest : List Char}
  {tokens : List Token} {token : Token} {c d : Char}

theorem exists_of_isBlank (hd : isBlank d = true) :
    ∃ range ∈ Text.blanks, range.1 ≤ d.toNat ∧ d.toNat ≤ range.2 := by
  unfold isBlank Text.inRanges at hd
  obtain ⟨range, member, hrange⟩ := List.any_eq_true.mp hd
  exact ⟨range, member, by simpa using hrange⟩

theorem accepts_range_of_isBlank {first last : Char} (hd : isBlank d = true)
    (hapart : ∀ range ∈ Text.blanks, range.2 < first.toNat ∨ last.toNat < range.1) :
    (CharTest.range first last).accepts d = false := by
  obtain ⟨range, member, hfrom, hto⟩ := exists_of_isBlank hd
  rw [CharTest.accepts, Bool.and_eq_false_iff, decide_eq_false_iff_not, decide_eq_false_iff_not,
    Char.le_def, Char.le_def, UInt32.le_iff_toNat_le, UInt32.le_iff_toNat_le]
  change ¬ first.toNat ≤ d.toNat ∨ ¬ d.toNat ≤ last.toNat
  have hout := hapart range member
  omega

theorem accepts_digit_of_isBlank (hd : isBlank d = true) : CharTest.digit.accepts d = false := by
  obtain ⟨range, member, hfrom, hto⟩ := exists_of_isBlank hd
  have hapart : ∀ start ∈ Text.zeros, ∀ range ∈ Text.blanks,
      range.2 < start ∨ start + 10 ≤ range.1 := by decide
  have hnone : Text.digitValue? d = none := by
    refine Option.map_eq_none_iff.mpr (List.find?_eq_none.mpr fun start hstart => ?_)
    have hout := hapart start hstart range member
    simp only [Bool.and_eq_true, decide_eq_true_eq]
    omega
  rw [CharTest.accepts, Text.isDigit, hnone]
  rfl

theorem uses_of_isBlank (hd : isBlank d = true) :
    ∀ rule ∈ standard, rule.kind ≠ .whitespace → rule.pattern.uses d = false := by
  simp (disch := decide) [standard, skip, keep, numeral, word, Pattern.all, Pattern.char,
    Pattern.digit, Pattern.uses, accepts_range_of_isBlank hd, accepts_digit_of_isBlank hd]

/-- A blank ends every match within a word. -/
theorem parts_blank (hd : isBlank d = true) (hword : ∀ c ∈ word, isBlank c = false) :
    Parts standard d word := by
  intro c rest hsuffix rule member
  have hc : isBlank c = false := hword c (hsuffix.subset (by simp))
  have hblanks : ∀ rule ∈ standard, rule.kind = .whitespace → rule.pattern = .some .blank := by
    decide
  by_cases hkind : rule.kind = .whitespace
  · rw [hblanks rule member hkind]
    exact Pattern.stopsAt_some_oneOf (by simpa [CharTest.accepts] using hc) rest
  · exact Pattern.stopsAt_of_unused (uses_of_isBlank hd rule member hkind) _

theorem tokensFrom_gap (hgap : IsGap gap) (htext : StartsSolid text) :
    tokensFrom standard whole place (gap ++ text) =
      tokensFrom standard whole (place.advance gap) text := by
  cases gap with
  | nil => rfl
  | cons c gap =>
    obtain ⟨hc, hrest⟩ := List.forall_mem_cons.mp hgap
    have hdrop : (gap ++ text).dropWhile
        (fun c => [CharTest.blank].any (·.accepts c) != false) = text := by
      have hall : ∀ d ∈ gap, ([CharTest.blank].any (·.accepts d) != false) = true := by
        intro d member
        simpa [CharTest.accepts] using hrest d member
      rw [List.dropWhile_append_of_pos hall]
      cases text with
      | nil => rfl
      | cons d text =>
        have hd : isBlank d = false := htext d rfl
        simp [CharTest.accepts, hd]
    have hfirst : first? standard (c :: gap ++ text) =
        some (skip .whitespace (.some .blank), text) := by
      have hmatch : (Pattern.some .blank).rest? (c :: (gap ++ text)) = some text := by
        rw [Pattern.blank, Pattern.rest?_some_oneOf (by simpa [CharTest.accepts] using hc), hdrop]
      simp only [first?, standard, List.findSome?_cons, skip, List.cons_append, hmatch,
        Option.map_some]
    rw [tokensFrom_taken (List.cons_ne_nil c gap) hfirst]
    simp [token?, skip]

theorem tokensFrom_of_isGap (hgap : IsGap gap) :
    tokensFrom standard whole place gap = .ok [] := by
  have htext : StartsSolid [] := by
    intro c hc
    cases hc
  rw [← List.append_nil gap, tokensFrom_gap hgap htext]
  exact tokensFrom_nil

theorem tokensFrom_word (hgap : IsGap gap) (hne : word ≠ [])
    (hword : ∀ c ∈ word, isBlank c = false) (hrest : StartsBlank rest) :
    tokensFrom standard whole place (gap ++ (word ++ rest)) = do
      let first ← tokensFrom standard whole (place.advance gap) word
      let second ← tokensFrom standard whole (place.advance (gap ++ word)) rest
      return first ++ second := by
  have hsolid : StartsSolid (word ++ rest) := by
    intro c hc
    obtain ⟨first, others, rfl⟩ := List.exists_cons_of_ne_nil hne
    cases hc
    exact hword c (by simp)
  rw [tokensFrom_gap hgap hsolid, Text.Place.advance_append]
  cases rest with
  | nil => simp only [List.append_nil, tokensFrom_nil, pure_bind, bind_pure]
  | cons d more => exact tokensFrom_append (parts_blank (hrest d rfl) hword) more

/-- A gap in front of a text only moves its tokens. -/
theorem tokensFrom_gap_append (hgap : IsGap gap) (text : List Char) :
    tokensFrom standard whole place (gap ++ text) =
      tokensFrom standard whole (place.advance gap) text := by
  obtain ⟨start, rest, rfl, hstart, hrest⟩ := Text.exists_gap text
  have hboth : IsGap (gap ++ start) := List.forall_mem_append.mpr ⟨hgap, hstart⟩
  rw [← List.append_assoc, tokensFrom_gap hboth hrest, tokensFrom_gap hstart hrest,
    Text.Place.advance_append]

/-- A text can be cut in front of a blank, even within a gap. -/
theorem tokensFrom_append_blank (hd : isBlank d = true) (text more : List Char) :
    tokensFrom standard whole place (text ++ d :: more) = do
      let first ← tokensFrom standard whole place text
      let second ← tokensFrom standard whole (place.advance text) (d :: more)
      return first ++ second := by
  generalize hwords : Text.words text = ws
  induction ws generalizing text place with
  | nil =>
    have hgap := Text.isGap_of_words hwords
    rw [tokensFrom_gap_append hgap, tokensFrom_of_isGap hgap]
    exact (bind_pure _).symm
  | cons word others ih =>
    obtain ⟨gap, rest, rfl, hgap, hne, hsolid, hrest, hothers⟩ := Text.exists_of_words hwords
    have hcut : StartsBlank (rest ++ d :: more) := by
      intro c hc
      cases rest with
      | nil =>
        cases hc
        exact hd
      | cons head tail => exact hrest c hc
    have hmore : gap ++ (word ++ rest) ++ d :: more = gap ++ (word ++ (rest ++ d :: more)) := by
      simp
    rw [hmore, tokensFrom_word hgap hne hsolid hcut, tokensFrom_word hgap hne hsolid hrest,
      ih rest hothers, ← List.append_assoc gap, Text.Place.advance_append _ (gap ++ word)]
    simp only [bind_assoc, pure_bind, List.append_assoc]

theorem within_standard (h : tokensFrom standard whole place text = .ok tokens)
    (member : token ∈ tokens) :
    place.position ≤ token.position ∧ token.stop ≤ place.position + text.length := by
  have hkeep : ∀ rule ∈ standard, ∀ {taken kept}, rule.transform taken = some kept →
      kept.length ≤ taken.length := by
    simp [standard, keep, skip]
  exact within_of_tokensFrom hkeep h member

theorem lt_position_of_startsBlank (htext : StartsBlank text)
    (h : tokensFrom standard whole place text = .ok tokens) (member : token ∈ tokens) :
    place.position < token.position := by
  obtain ⟨gap, rest, rfl, hgap, hrest⟩ := Text.exists_gap text
  rw [tokensFrom_gap hgap hrest] at h
  have hbounds := within_standard h member
  rw [Text.Place.position_advance] at hbounds
  cases gap with
  | cons c gap =>
    rw [List.length_cons] at hbounds
    omega
  | nil =>
    cases rest with
    | nil =>
      rw [tokensFrom_nil] at h
      cases h
      simp at member
    | cons c rest =>
      have hsolid : isBlank c = false := hrest c rfl
      have hblank : isBlank c = true := htext c rfl
      rw [hsolid] at hblank
      cases hblank

end Formula.TokenRule
