import Formula.Proofs.Token.Words

namespace Formula.TokenRule

open Text (IsGap StartsBlank StartsSolid isBlank)

variable {rules : List TokenRule} {whole : String} {place : Text.Place}
  {text tail taken rest first second : List Char} {tokens p q : List Token} {token : Token}
  {rule : TokenRule}

/-- The rule that matches at the start of a text is the first one also where the text is cut behind
the match. -/
theorem first?_of_append (h : first? rules (text ++ tail) = some (rule, rest ++ tail)) :
    first? rules text = some (rule, rest) := by
  induction rules with
  | nil => cases h
  | cons other rules ih =>
    unfold first? at h ih ⊢
    have hcuts := other.pattern.cuts_rest? text tail
    rw [List.findSome?_cons] at h ⊢
    cases hfull : other.pattern.rest? (text ++ tail) with
    | none =>
      rw [hfull] at h
      rw [hcuts.fails hfull]
      exact ih h
    | some after =>
      rw [hfull] at h
      cases h
      rw [hcuts.leaves rest hfull]
      rfl

/-- Only errors name the whole text. -/
theorem tokensFrom_whole (whole' : String) (h : tokensFrom rules whole place text = .ok tokens) :
    tokensFrom rules whole' place text = .ok tokens := by
  induction h using tokensInduction with
  | nil place => exact tokensFrom_nil
  | taken place taken rest rule others hne hfirst hothers ih =>
    exact tokensFrom_of_taken hne hfirst ih

/-- Every match but that of blanks is a token, with the text of the match. -/
theorem token?_standard (hrule : rule ∈ standard) (hne : taken ≠ []) :
    rule.token? place taken =
      if rule.kind = .whitespace then none else some ⟨rule.kind, String.ofList taken, place⟩ := by
  have hempty : (String.ofList taken).isEmpty = false := by
    simpa [String.isEmpty_iff] using hne
  have heach : ∀ rule ∈ standard, rule = skip .whitespace rule.pattern ∨
      rule.kind ≠ .whitespace ∧ rule = keep rule.kind rule.pattern := by
    simp [standard, keep, skip]
  rcases heach rule hrule with h | ⟨hkind, h⟩
  · rw [h]
    rfl
  · rw [if_neg hkind, h]
    simp [token?, keep, hempty]

/-- Every token has some text, so it ends behind its beginning. -/
theorem position_lt_stop (h : tokensFrom standard whole place text = .ok tokens)
    (member : token ∈ tokens) : token.position < token.stop := by
  induction h using tokensInduction with
  | nil place => simp at member
  | taken place taken rest rule others hne hfirst hothers ih =>
    rcases List.mem_append.mp member with hhead | hother
    · rw [token?_standard (exists_of_first? hfirst).1 hne] at hhead
      split at hhead
      next => simp at hhead
      next =>
        have hpositive := List.length_pos_iff.mpr hne
        obtain rfl : token = _ := by simpa using hhead
        simpa [Token.stop] using hpositive
    · exact ih hother

/-- A token knows the place to which the text before it leads. -/
theorem exists_place (h : tokensFrom rules whole place text = .ok tokens)
    (member : token ∈ tokens) :
    ∃ before behind, text = before ++ behind ∧ behind ≠ [] ∧
      token.place = place.advance before := by
  induction h using tokensInduction with
  | nil place => simp at member
  | taken place taken rest rule others hne hfirst hothers ih =>
    rcases List.mem_append.mp member with hhead | hother
    · exact ⟨[], taken ++ rest, rfl, List.append_ne_nil_of_left_ne_nil hne rest,
        (of_token? (Option.mem_toList.mp hhead)).2.1⟩
    · obtain ⟨before, behind, rfl, hbehind, hplace⟩ := ih hother
      refine ⟨taken ++ before, behind, (List.append_assoc ..).symm, hbehind, ?_⟩
      rw [hplace, Text.Place.advance_append]

/-- A text without tokens has them up to the place of the complaint. There no rule matches, or one
does without taking anything. -/
theorem exists_front_of_error {error : LexError}
    (h : tokensFrom rules whole place text = .error error) :
    ∃ front c rest tokens, text = front ++ c :: rest ∧
      tokensFrom rules whole place front = .ok tokens ∧ error.place = place.advance front ∧
      (first? rules (c :: rest) = none ∧ error.fault = .unexpected c whole ∨
        ∃ rule, first? rules (c :: rest) = some (rule, c :: rest) ∧
          error.fault = .emptyMatch rule.kind.name) := by
  induction text using matchInduction rules generalizing place with
  | nil => cases tokensFrom_nil.symm.trans h
  | unexpected c text hnone =>
    cases (tokensFrom_unexpected hnone).symm.trans h
    exact ⟨[], c, text, [], rfl, tokensFrom_nil, rfl, .inl ⟨hnone, rfl⟩⟩
  | emptyMatch c text rule hsame =>
    cases (tokensFrom_emptyMatch hsame).symm.trans h
    exact ⟨[], c, text, [], rfl, tokensFrom_nil, rfl, .inr ⟨rule, hsame, rfl⟩⟩
  | taken taken rest rule hne hfirst ih =>
    rw [tokensFrom_taken hne hfirst] at h
    rcases exists_of_bind_eq_error h with h | ⟨_, -, h⟩
    · obtain ⟨front, c, behind, tokens, rfl, htokens, hplace, hcause⟩ := ih h
      rw [← List.append_assoc] at hfirst
      have hcut : first? rules (taken ++ front) = some (rule, front) := first?_of_append hfirst
      exact ⟨taken ++ front, c, behind, _, (List.append_assoc ..).symm,
        tokensFrom_of_taken hne hcut htokens, by rw [hplace, Text.Place.advance_append], hcause⟩
    · cases h

/-- The tokens of a text follow one another. -/
theorem pairwise_of_tokensFrom (h : tokensFrom standard whole place text = .ok tokens) :
    tokens.Pairwise fun token next => token.stop ≤ next.position := by
  induction h using tokensInduction with
  | nil place => exact .nil
  | taken place taken rest rule others hne hfirst hothers ih =>
    rw [token?_standard (exists_of_first? hfirst).1 hne]
    split
    next => exact ih
    next =>
      refine List.pairwise_cons.mpr ⟨fun token member => ?_, ih⟩
      have hstart := (within_standard hothers member).1
      rw [Text.Place.position_advance] at hstart
      simpa [Token.stop, Token.position] using hstart

/-- What the rule of blanks takes is a gap, and what it leaves begins with no blank. -/
theorem gap_of_first? (h : first? standard (taken ++ rest) = some (rule, rest))
    (hkind : rule.kind = .whitespace) : IsGap taken ∧ StartsSolid rest := by
  have hblanks : ∀ rule ∈ standard, rule.kind = .whitespace → rule.pattern = .some .blank := by
    decide
  obtain ⟨_, hrule, hmatch⟩ := List.exists_of_findSome?_eq_some h
  obtain ⟨after, hrest, heq⟩ := Option.map_eq_some_iff.mp hmatch
  cases heq
  rw [hblanks rule hrule hkind, Pattern.blank] at hrest
  obtain ⟨word, htext, hword⟩ := Pattern.exists_of_rest? hrest
  obtain rfl : taken = word := List.append_cancel_right htext
  obtain ⟨hne, haccepts⟩ := Pattern.matches_some_oneOf.mp hword
  have hgap : IsGap taken := fun c member => by
    simpa [CharTest.accepts] using haccepts c member
  refine ⟨hgap, fun c hc => ?_⟩
  obtain ⟨d, others, rfl⟩ := List.exists_cons_of_ne_nil hne
  rw [List.cons_append, Pattern.rest?_some_oneOf (haccepts d List.mem_cons_self)] at hrest
  have hhead := List.head?_dropWhile_not
    (fun c => [CharTest.blank].any (·.accepts c) != false) (others ++ rest)
  rw [Option.some.inj hrest, hc] at hhead
  simpa [CharTest.accepts] using hhead

/-- In a text without a cut the tokens before it end there, and those behind it begin there. -/
theorem eq_nil_of_within {w : List Token} (h : tokensFrom standard whole place text = .ok tokens)
    (hsub : w ⊆ tokens) (hw : ∀ token ∈ w, token.stop ≤ place.position) : w = [] := by
  rw [List.eq_nil_iff_forall_not_mem]
  intro token member
  have hstop := hw token member
  have hstart := (within_standard h (hsub member)).1
  have hlt := position_lt_stop h (hsub member)
  omega

/-- A match begins on one side of a cut, and ends there unless the cut goes through it. -/
theorem exists_side (hne : taken ≠ []) (h : first ++ second = taken ++ rest) :
    (∃ behind, first = taken ++ behind ∧ rest = behind ++ second) ∨
      ∃ behind, taken = first ++ behind ∧ second = behind ++ rest ∧
        first.length < taken.length := by
  rcases List.append_eq_append_iff.mp h with ⟨behind, rfl, rfl⟩ | ⟨behind, rfl, rfl⟩
  · cases behind with
    | nil => exact .inl ⟨[], by simp, rfl⟩
    | cons c behind => exact .inr ⟨c :: behind, rfl, rfl, by simp⟩
  · exact .inl ⟨behind, rfl, rfl⟩

/-- What a match before the cut gives is before the cut. -/
theorem exists_of_append_eq {bound : Nat} {found others : List Token}
    (h : found ++ others = p ++ q) (hfound : ∀ token ∈ found, token.position < bound)
    (hq : ∀ token ∈ q, bound ≤ token.position) :
    ∃ later, p = found ++ later ∧ others = later ++ q := by
  rcases List.append_eq_append_iff.mp h with ⟨later, hp, hothers⟩ | ⟨later, rfl, rfl⟩
  · exact ⟨later, hp, hothers⟩
  · cases later with
    | nil => exact ⟨[], by simp, rfl⟩
    | cons token later =>
      have hbefore := hfound token (by simp)
      have hbehind := hq token (by simp)
      omega

/-- Only a match of blanks, which gives no token, may go on behind the cut. -/
theorem kind_of_divided {bound : Nat} {others : List Token} (hrule : rule ∈ standard)
    (hstart : place.position < bound) (hend : bound < place.position + taken.length)
    (h : (rule.token? place taken).toList ++ others = p ++ q)
    (hp : ∀ token ∈ p, token.stop ≤ bound) (hq : ∀ token ∈ q, bound ≤ token.position) :
    rule.kind = .whitespace := by
  by_contra hkind
  have hne : taken ≠ [] := by
    rintro rfl
    simp only [List.length_nil] at hend
    omega
  rw [token?_standard hrule hne, if_neg hkind] at h
  have member : ⟨rule.kind, String.ofList taken, place⟩ ∈ p ++ q := h ▸ List.mem_cons_self
  rcases List.mem_append.mp member with member | member
  · have hstop := hp _ member
    simp only [Token.stop, Token.position, String.length_ofList] at hstop
    omega
  · have hposition : bound ≤ place.position := hq _ member
    omega

/-- A text is cut where no token begins before the cut and ends behind it. -/
theorem tokensFrom_cut (h : tokensFrom standard whole place (first ++ second) = .ok (p ++ q))
    (hp : ∀ token ∈ p, token.stop ≤ place.position + first.length)
    (hq : ∀ token ∈ q, place.position + first.length ≤ token.position) :
    tokensFrom standard whole place first = .ok p ∧
      tokensFrom standard whole (place.advance first) second = .ok q := by
  generalize htext : first ++ second = text at h
  induction text using matchInduction standard generalizing place first p with
  | nil =>
    rw [tokensFrom_nil] at h
    obtain ⟨rfl, rfl⟩ := List.append_eq_nil_iff.mp htext
    obtain ⟨rfl, rfl⟩ := List.append_eq_nil_iff.mp (Except.ok.inj h).symm
    exact ⟨tokensFrom_nil, tokensFrom_nil⟩
  | unexpected c text hnone =>
    rw [tokensFrom_unexpected hnone] at h
    cases h
  | emptyMatch c text rule hsame =>
    rw [tokensFrom_emptyMatch hsame] at h
    cases h
  | taken taken rest rule hne hfirst ih =>
    have hpositive := List.length_pos_iff.mpr hne
    have hrule := (exists_of_first? hfirst).1
    have hfound : ∀ token ∈ (rule.token? place taken).toList, token.place = place :=
      fun token member => (of_token? (Option.mem_toList.mp member)).2.1
    have hok := h
    rw [tokensFrom_taken hne hfirst] at hok
    obtain ⟨others, hothers, hjoined⟩ := exists_of_bind_eq_ok hok
    have heq : (rule.token? place taken).toList ++ others = p ++ q := Except.ok.inj hjoined
    clear hok hjoined
    rcases exists_side hne htext with ⟨behind, rfl, rfl⟩ | ⟨behind, rfl, rfl, hlength⟩
    · have hlt : place.position < place.position + (taken ++ behind).length := by
        rw [List.length_append]
        omega
      obtain ⟨later, rfl, rfl⟩ := exists_of_append_eq heq
        (fun token member => by rw [Token.position, hfound token member]; exact hlt) hq
      have hadvance : (place.advance taken).position + behind.length =
          place.position + (taken ++ behind).length := by
        rw [Text.Place.position_advance, List.length_append]
        omega
      obtain ⟨hbefore, hbehind⟩ := ih
        (fun token member => hadvance ▸ hp token (List.mem_append_right _ member))
        (by rwa [hadvance]) rfl hothers
      rw [← List.append_assoc] at hfirst
      rw [tokensFrom_taken hne (first?_of_append hfirst), Text.Place.advance_append, hbefore]
      exact ⟨rfl, hbehind⟩
    · cases first with
      | nil =>
        obtain rfl : p = [] := eq_nil_of_within h (List.subset_append_left _ _) hp
        exact ⟨tokensFrom_nil, h⟩
      | cons c first =>
        have hkind := kind_of_divided hrule (by simp) (Nat.add_lt_add_left hlength _) heq hp hq
        obtain ⟨hgap, hsolid⟩ := gap_of_first? hfirst hkind
        obtain ⟨hfirstGap, hbehindGap⟩ := List.forall_mem_append.mp hgap
        rw [token?_standard hrule hne, if_pos hkind] at heq
        obtain rfl : others = p ++ q := heq
        obtain rfl : p = [] := eq_nil_of_within hothers (List.subset_append_left _ _)
          fun token member => by
            have hstop := hp token member
            rw [Text.Place.position_advance]
            omega
        refine ⟨tokensFrom_of_isGap hfirstGap, ?_⟩
        rwa [tokensFrom_gap hbehindGap hsolid, ← Text.Place.advance_append]

end Formula.TokenRule
