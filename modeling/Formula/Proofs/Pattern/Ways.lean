import Formula.Proofs.Pattern.Border

namespace Formula.Pattern

variable {α : Type}

/-- What a step leaves when it is repeated as often as possible. -/
def rounds (step : List Char → List (List Char)) : Nat → List Char → List (List Char)
  | 0, text => [text]
  | bound + 1, text =>
    ((step text).flatMap fun rest =>
      if rest.length < text.length then rounds step bound rest else [rest]) ++ [text]

/-- What a step leaves when it is repeated as seldom as possible. -/
def roundsLate (step : List Char → List (List Char)) : Nat → List Char → List (List Char)
  | 0, text => [text]
  | bound + 1, text =>
    text :: (step text).flatMap fun rest =>
      if rest.length < text.length then roundsLate step bound rest else []

/-- What a pattern can leave of a text. -/
def ways : Pattern → List Char → List (List Char)
  | .empty, text => [text]
  | .oneOf _ _, [] => []
  | .oneOf negated tests, c :: rest => if tests.any (·.accepts c) != negated then [rest] else []
  | .seq first second, text => (first.ways text).flatMap second.ways
  | .either first second, text => first.ways text ++ second.ways text
  | .many body, text => rounds body.ways text.length text
  | .some body, text => (body.ways text).flatMap fun rest => rounds body.ways rest.length rest
  | .optional body, text => body.ways text ++ [text]
  | .fewest body, text => roundsLate body.ways text.length text

section Runs

variable {step : List Char → (List Char → Option α) → Option α}
  {steps : List Char → List (List Char)}

theorem findSome?_orElse (texts : List (List Char)) (text : List Char)
    (next : List Char → Option α) :
    (texts.findSome? next <|> next text) = (texts ++ [text]).findSome? next := by
  rw [List.findSome?_append, List.findSome?_singleton]
  cases texts.findSome? next <;> rfl

theorem findSome?_flatMap (texts : List (List Char)) (next : List Char → Option α) :
    (texts.flatMap steps).findSome? next =
      texts.findSome? fun rest => (steps rest).findSome? next := by
  induction texts with
  | nil => rfl
  | cons rest others ih =>
    rw [List.flatMap_cons, List.findSome?_append, ih, List.findSome?_cons]
    cases (steps rest).findSome? next <;> rfl

theorem findSome?_ite {condition : Prop} [Decidable condition] (texts texts' : List (List Char))
    (next : List Char → Option α) :
    (if condition then texts.findSome? next else texts'.findSome? next) =
      (if condition then texts else texts').findSome? next := by
  split <;> rfl

theorem repeated_eq_findSome?
    (hstep : ∀ text next, step text next = (steps text).findSome? next) (bound : Nat)
    (text : List Char) (next : List Char → Option α) :
    repeated step bound text next = (rounds steps bound text).findSome? next := by
  induction bound generalizing text with
  | zero => rw [repeated, rounds, List.findSome?_singleton]
  | succ bound ih =>
    rw [repeated, rounds, hstep, ← findSome?_orElse, findSome?_flatMap]
    congr 2
    funext rest
    rw [ih, ← @List.findSome?_singleton _ _ next, findSome?_ite]

theorem repeatedLate_eq_findSome?
    (hstep : ∀ text next, step text next = (steps text).findSome? next) (bound : Nat)
    (text : List Char) (next : List Char → Option α) :
    repeatedLate step bound text next = (roundsLate steps bound text).findSome? next := by
  induction bound generalizing text with
  | zero => rw [repeatedLate, roundsLate, List.findSome?_singleton]
  | succ bound ih =>
    have hround : (fun rest => if rest.length < text.length then
        repeatedLate step bound rest next else Option.none) = fun rest =>
        (if rest.length < text.length then roundsLate steps bound rest else []).findSome? next := by
      funext rest
      rw [ih, ← findSome?_ite, List.findSome?_nil]
    rw [repeatedLate, roundsLate, hstep, hround, List.findSome?_cons, findSome?_flatMap]
    cases next text <;> rfl

/-- A run is the first way for which the continuation has a result. -/
theorem run_eq_findSome? (pattern : Pattern) (text : List Char) (next : List Char → Option α) :
    pattern.run text next = (pattern.ways text).findSome? next := by
  induction pattern generalizing text next with
  | empty => rw [run, ways, List.findSome?_singleton]
  | oneOf negated tests =>
    cases text with
    | nil => rfl
    | cons c rest =>
      rw [run, ways, ← findSome?_ite, List.findSome?_singleton, List.findSome?_nil]
  | seq first second ihFirst ihSecond =>
    rw [run, ways, ihFirst, findSome?_flatMap]
    congr 1
    funext rest
    exact ihSecond rest next
  | either first second ihFirst ihSecond =>
    rw [run, ways, ihFirst, ihSecond, List.findSome?_append]
    cases (first.ways text).findSome? next <;> rfl
  | many body ih => exact repeated_eq_findSome? ih text.length text next
  | some body ih =>
    rw [run, ways, ih, findSome?_flatMap]
    congr 1
    funext rest
    exact repeated_eq_findSome? ih rest.length rest next
  | optional body ih => rw [run, ways, ih, findSome?_orElse]
  | fewest body ih => exact repeatedLate_eq_findSome? ih text.length text next

end Runs

theorem rest?_eq_head? (pattern : Pattern) (text : List Char) :
    pattern.rest? text = (pattern.ways text).head? := by
  rw [rest?, run_eq_findSome?]
  cases pattern.ways text with
  | nil => rfl
  | cons rest others => rfl

section Words

variable {pattern first second body : Pattern} {text rest taken : List Char}

theorem mem_rounds
    (hbody : ∀ {taken rest}, body.Matches taken → rest ∈ body.ways (taken ++ rest))
    (h : Matches (.many body) taken) {bound : Nat} (hbound : (taken ++ rest).length ≤ bound) :
    rest ∈ rounds body.ways bound (taken ++ rest) ∧
      rest ∈ roundsLate body.ways bound (taken ++ rest) := by
  generalize hp : Pattern.many body = pattern at h
  induction h generalizing bound with
  | none => cases bound <;> simp [rounds, roundsLate]
  | @more body' v w hv hw _ ih =>
    cases hp
    rw [List.append_assoc] at hbound ⊢
    -- a round that takes nothing may be left out
    by_cases hempty : v = []
    · subst hempty
      exact ih hbound rfl
    · have hpositive := List.length_pos_iff.mpr hempty
      have hlt : (w ++ rest).length < (v ++ (w ++ rest)).length := by
        simpa using hpositive
      cases bound with
      | zero => omega
      | succ bound =>
        have hle : (w ++ rest).length ≤ bound := by omega
        obtain ⟨hmore, hlate⟩ := ih hle rfl
        constructor
        · refine List.mem_append_left _ (List.mem_flatMap.mpr ⟨w ++ rest, hbody hv, ?_⟩)
          rwa [if_pos hlt]
        · refine List.mem_cons_of_mem _ (List.mem_flatMap.mpr ⟨w ++ rest, hbody hv, ?_⟩)
          rwa [if_pos hlt]
  | _ => cases hp

theorem mem_ways_of_matches (h : pattern.Matches taken) :
    rest ∈ pattern.ways (taken ++ rest) := by
  induction pattern generalizing taken rest with
  | empty =>
    rw [matches_empty.mp h]
    exact List.mem_singleton_self _
  | oneOf negated tests =>
    obtain ⟨c, rfl, hc⟩ := matches_oneOf.mp h
    rw [List.singleton_append, ways, if_pos hc]
    exact List.mem_singleton_self _
  | seq first second ihFirst ihSecond =>
    obtain ⟨u, v, rfl, hu, hv⟩ := matches_seq.mp h
    rw [List.append_assoc]
    exact List.mem_flatMap.mpr ⟨v ++ rest, ihFirst hu, ihSecond hv⟩
  | either first second ihFirst ihSecond =>
    rcases matches_either.mp h with h | h
    · exact List.mem_append_left _ (ihFirst h)
    · exact List.mem_append_right _ (ihSecond h)
  | many body ih => exact (mem_rounds ih h (Nat.le_refl _)).1
  | some body ih =>
    cases h with
    | @some _ v w hv hw =>
      rw [List.append_assoc]
      exact List.mem_flatMap.mpr ⟨w ++ rest, ih hv, (mem_rounds ih hw (Nat.le_refl _)).1⟩
  | optional body ih =>
    rcases matches_optional.mp h with h | rfl
    · exact List.mem_append_left _ (ih h)
    · exact List.mem_append_right _ (List.mem_singleton_self _)
  | fewest body ih =>
    cases h with
    | fewest h => exact (mem_rounds ih h (Nat.le_refl _)).2

/-- The ways leave the text behind each word that the text begins with. -/
theorem mem_ways_iff :
    rest ∈ pattern.ways text ↔ ∃ taken, text = taken ++ rest ∧ pattern.Matches taken := by
  constructor
  · intro member
    -- a continuation that only takes this rest makes the run choose it
    let next (after : List Char) : Option Unit := if after = rest then .some () else .none
    have hrun : (pattern.run text next).isSome := by
      rw [run_eq_findSome?, List.findSome?_isSome_iff]
      exact ⟨rest, member, by simp [next]⟩
    obtain ⟨result, hresult⟩ := Option.isSome_iff_exists.mp hrun
    obtain ⟨taken, after, htext, htaken, hafter⟩ := splits_of_run hresult
    have hsame : after = rest := by
      by_contra hne
      simp [next, hne] at hafter
    exact ⟨taken, by rw [htext, hsame], htaken⟩
  · rintro ⟨taken, rfl, h⟩
    exact mem_ways_of_matches h

theorem rest?_eq_none_iff :
    pattern.rest? text = .none ↔ ∀ taken rest, text = taken ++ rest → ¬ pattern.Matches taken := by
  rw [rest?_eq_head?, List.head?_eq_none_iff, List.eq_nil_iff_forall_not_mem]
  constructor
  · intro h taken rest htext hmatches
    exact h rest (mem_ways_iff.mpr ⟨taken, htext, hmatches⟩)
  · intro h rest member
    obtain ⟨taken, htext, hmatches⟩ := mem_ways_iff.mp member
    exact h taken rest htext hmatches

end Words

/-- Whether a word of a pattern may have a character in front. -/
def begins (c : Char) : Pattern → Bool
  | .empty => false
  | .oneOf negated tests => tests.any (·.accepts c) != negated
  | .seq first second => first.begins c || first.nullable && second.begins c
  | .either first second => first.begins c || second.begins c
  | .many body | .some body | .optional body | .fewest body => body.begins c

theorem Matches.begins {pattern : Pattern} {c : Char} {w : List Char}
    (h : pattern.Matches (c :: w)) : pattern.begins c = true := by
  generalize htaken : c :: w = taken at h
  induction h generalizing w with
  | empty | none | skipped => cases htaken
  | oneOf haccepts =>
    cases htaken
    exact haccepts
  | @seq first second u v hu _ ihFirst ihSecond =>
    rw [Pattern.begins, Bool.or_eq_true, Bool.and_eq_true]
    cases u with
    | nil => exact .inr ⟨hu.nullable rfl, ihSecond htaken⟩
    | cons d u =>
      cases htaken
      exact .inl (ihFirst rfl)
  | left _ ih => rw [Pattern.begins, ih htaken, Bool.true_or]
  | right _ ih => rw [Pattern.begins, ih htaken, Bool.or_true]
  | @more body u v _ _ ihFirst ihRest | @some body u v _ _ ihFirst ihRest =>
    cases u with
    | nil => exact ihRest htaken
    | cons d u =>
      cases htaken
      exact ihFirst rfl
  | taken _ ih | fewest _ ih => exact ih htaken

/-- Whether a pattern tries the longest word first, whatever the text. -/
def Greedy (pattern : Pattern) : Prop :=
  ∀ text longest, (pattern.ways text).head? = Option.some longest →
    ∀ rest ∈ pattern.ways text, longest.length ≤ rest.length

section Greedy

variable {first second body : Pattern} {negated : Bool} {tests : List CharTest}

theorem length_le_of_mem_ways {pattern : Pattern} {text rest : List Char}
    (member : rest ∈ pattern.ways text) : rest.length ≤ text.length := by
  obtain ⟨taken, rfl, -⟩ := mem_ways_iff.mp member
  rw [List.length_append]
  omega

theorem greedy_empty : Greedy .empty := by
  intro text longest hlongest rest member
  cases hlongest
  exact Nat.le_of_eq (congrArg List.length (List.mem_singleton.mp member)).symm

theorem greedy_oneOf : Greedy (.oneOf negated tests) := by
  intro text longest hlongest rest member
  obtain ⟨taken, htext, htaken⟩ := mem_ways_iff.mp member
  obtain ⟨taken', htext', htaken'⟩ := mem_ways_iff.mp (List.mem_of_head? hlongest)
  obtain ⟨c, rfl, -⟩ := matches_oneOf.mp htaken
  obtain ⟨c', rfl, -⟩ := matches_oneOf.mp htaken'
  have hboth : [c] ++ rest = [c'] ++ longest := htext.symm.trans htext'
  have hlength := congrArg List.length hboth
  simp only [List.length_append, List.length_singleton] at hlength
  omega

theorem greedy_optional (h : body.Greedy) : Greedy (.optional body) := by
  intro text longest hlongest rest member
  have hle : longest.length ≤ text.length := length_le_of_mem_ways (List.mem_of_head? hlongest)
  rcases List.mem_append.mp member with member | member
  · refine h text longest ?_ rest member
    obtain ⟨head, others, hways⟩ := List.exists_cons_of_ne_nil (List.ne_nil_of_mem member)
    simpa [ways, hways] using hlongest
  · rwa [List.mem_singleton.mp member]

/-- One of two patterns tries the longest word first where no text suits both. -/
theorem greedy_either (hfirst : first.Greedy) (hsecond : second.Greedy)
    (hnullable : first.nullable = false)
    (hapart : ∀ c, first.begins c = true → second.begins c = false) :
    Greedy (.either first second) := by
  intro text longest hlongest rest member
  cases hways : first.ways text with
  | nil =>
    have hsame : (Pattern.either first second).ways text = second.ways text := by
      simp [ways, hways]
    rw [hsame] at hlongest member
    exact hsecond text longest hlongest rest member
  | cons head others =>
    have hhead : (first.ways text).head? = Option.some longest := by
      simpa [ways, hways] using hlongest
    rcases List.mem_append.mp member with member | member
    · exact hfirst text longest hhead rest member
    · obtain ⟨word, htext, hword⟩ := mem_ways_iff.mp (List.mem_of_head? hhead)
      obtain ⟨word', htext', hword'⟩ := mem_ways_iff.mp member
      cases word with
      | nil => exact absurd (hword.nullable rfl) (by simp [hnullable])
      | cons c word =>
        cases word' with
        | nil =>
          have hrest : text = rest := htext'
          rw [← hrest]
          exact length_le_of_mem_ways (List.mem_of_head? hhead)
        | cons c' word' =>
          -- both words would begin with the first character of the text
          have hsame : c :: (word ++ longest) = c' :: (word' ++ rest) := htext.symm.trans htext'
          obtain ⟨rfl, -⟩ := List.cons.inj hsame
          exact absurd hword'.begins (by simp [hapart c hword.begins])

/-- The second of two patterns cannot take up a character that the first one gives back. -/
theorem greedy_seq (hfirst : first.Greedy) (hsecond : second.Greedy)
    (hfollow : ∀ u c v, first.Matches u → first.Matches (u ++ c :: v) → second.begins c = false) :
    Greedy (.seq first second) := by
  intro text longest hlongest rest member
  obtain ⟨middle, hmiddle, hrest⟩ := List.mem_flatMap.mp member
  obtain ⟨shortest, others, hways⟩ := List.exists_cons_of_ne_nil (List.ne_nil_of_mem hmiddle)
  have hshortest : (first.ways text).head? = Option.some shortest := by rw [hways, List.head?_cons]
  obtain ⟨u, htext, hu⟩ := mem_ways_iff.mp hmiddle
  obtain ⟨u', htext', hu'⟩ := mem_ways_iff.mp (List.mem_of_head? hshortest)
  have hle : shortest.length ≤ middle.length := hfirst text shortest hshortest middle hmiddle
  -- what the second pattern does behind the longest word of the first decides
  have hahead {after : List Char} (hafter : after ∈ second.ways shortest) :
      longest.length ≤ after.length := by
    refine hsecond shortest longest ?_ after hafter
    obtain ⟨head, tail, hhead⟩ := List.exists_cons_of_ne_nil (List.ne_nil_of_mem hafter)
    rw [ways, hways, List.flatMap_cons, hhead, List.cons_append, List.head?_cons] at hlongest
    rw [hhead, List.head?_cons, hlongest]
  obtain ⟨between, hbetween⟩ : ∃ between, middle = between ++ shortest :=
    List.suffix_of_suffix_length_le ⟨u', htext'.symm⟩ ⟨u, htext.symm⟩ hle |>.imp
      fun _ h => h.symm
  cases between with
  | nil =>
    rw [List.nil_append] at hbetween
    exact hahead (hbetween ▸ hrest)
  | cons c between =>
    have hlonger : u' = u ++ c :: between := by
      rw [hbetween, ← List.append_assoc, htext'] at htext
      exact List.append_cancel_right htext
    have hunused := hfollow u c between hu (hlonger ▸ hu')
    obtain ⟨w, hmiddle', hw⟩ := mem_ways_iff.mp hrest
    cases w with
    | nil =>
      have hrest' : middle = rest := hmiddle'
      have hskip := hahead (mem_ways_iff.mpr ⟨[], rfl, hw⟩)
      rw [← hrest']
      exact Nat.le_trans hskip hle
    | cons d w =>
      have hsame : c :: (between ++ shortest) = d :: (w ++ rest) := hbetween.symm.trans hmiddle'
      obtain ⟨rfl, -⟩ := List.cons.inj hsame
      exact absurd hw.begins (by simp [hunused])

/-- The second of two patterns begins with nothing that the first one has a use for. -/
theorem greedy_seq_of_unused (hfirst : first.Greedy) (hsecond : second.Greedy)
    (hunused : ∀ c, second.begins c = true → first.uses c = false) :
    Greedy (.seq first second) := by
  refine greedy_seq hfirst hsecond fun u c v _ hlonger => ?_
  by_contra hbegins
  exact hlonger.not_mem (hunused c (by simpa using hbegins)) (by simp)

theorem greedy_seq_oneOf (hsecond : second.Greedy) :
    Greedy (.seq (.oneOf negated tests) second) := by
  refine greedy_seq greedy_oneOf hsecond fun u c v hu hlonger => ?_
  obtain ⟨d, rfl, -⟩ := matches_oneOf.mp hu
  obtain ⟨d', hd', -⟩ := matches_oneOf.mp hlonger
  simp at hd'

theorem greedy_many_oneOf : Greedy (.many (.oneOf negated tests)) := by
  intro text longest hlongest rest member
  rw [← rest?_eq_head?, rest?, run, repeated_oneOf (Nat.le_refl _)] at hlongest
  obtain ⟨taken, rfl, htaken⟩ := mem_ways_iff.mp member
  rw [List.dropWhile_append_of_pos (matches_many_oneOf.mp htaken)] at hlongest
  cases hlongest
  exact (List.dropWhile_suffix _).length_le

theorem greedy_some_oneOf : Greedy (.some (.oneOf negated tests)) := by
  have hsame : (Pattern.some (.oneOf negated tests)).ways =
      (Pattern.seq (.oneOf negated tests) (.many (.oneOf negated tests))).ways := rfl
  rw [Greedy, hsame]
  exact greedy_seq_oneOf greedy_many_oneOf

end Greedy

end Formula.Pattern
