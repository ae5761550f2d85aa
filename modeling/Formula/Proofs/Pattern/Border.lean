import Formula.Proofs.Pattern.Language
import Mathlib.Data.Option.Basic

namespace Formula.Pattern

variable {α : Type} {d : Char} {tail : List Char}

/-- Whether some class of a pattern accepts a character. -/
def uses (c : Char) : Pattern → Bool
  | .empty => false
  | .oneOf negated tests => tests.any (·.accepts c) != negated
  | .seq first second | .either first second => first.uses c || second.uses c
  | .many body | .some body | .optional body | .fewest body => body.uses c

/-- Nothing can be taken from an empty text, so a pattern fails there or continues at once. -/
theorem run_nil (pattern : Pattern) (next : List Char → Option α) :
    pattern.run [] next = Option.none ∨ pattern.run [] next = next [] := by
  induction pattern generalizing next with
  | empty => exact .inr rfl
  | oneOf => exact .inl rfl
  | seq first second ihFirst ihSecond =>
    rw [run]
    rcases ihFirst fun rest => second.run rest next with h | h
    · exact .inl h
    · rw [h]
      exact ihSecond next
  | either first second ihFirst ihSecond =>
    rw [run]
    rcases ihFirst next with h | h <;> rcases ihSecond next with h' | h' <;> simp [h, h']
  | many => exact .inr rfl
  | some body ih =>
    rw [run]
    exact ih fun rest => repeated body.run rest.length rest next
  | optional body ih =>
    rw [run]
    right
    rcases ih next with h | h <;> simp [h]
  | fewest => exact .inr rfl

theorem orElse_nil (pattern : Pattern) (next : List Char → Option α) :
    (pattern.run [] next <|> next []) = next [] := by
  rcases run_nil pattern next with h | h <;> simp [h]

/-- How a result for a text with `tail` at its end bears on that for the text without it: both fail,
and what leaves the tail alone leaves the same without it. -/
structure Cuts (tail : List Char) (full part : Option (List Char)) : Prop where
  fails : full = .none → part = .none
  leaves : ∀ rest, full = .some (rest ++ tail) → part = .some rest

theorem Cuts.none : Cuts tail .none .none where
  fails _ := rfl
  leaves _ h := by cases h

/-- What reaches into the tail says nothing about the text without it. -/
theorem Cuts.of_short {full : Option (List Char)}
    (h : ∀ rest, full = .some rest → rest.length < tail.length) : Cuts tail full .none := by
  refine ⟨fun _ => rfl, fun rest hfull => ?_⟩
  have hlt := h _ hfull
  rw [List.length_append] at hlt
  omega

theorem Cuts.orElse {full full' part part' : Option (List Char)} (h : Cuts tail full part)
    (h' : Cuts tail full' part') : Cuts tail (full <|> full') (part <|> part') := by
  cases hfull : full with
  | none =>
    rw [h.fails hfull]
    exact h'
  | some rest =>
    refine ⟨fun hnone => (nomatch hnone), fun rest' hrest => ?_⟩
    rw [h.leaves rest' (hfull.trans hrest)]
    rfl

/-- A continuation that leaves a part of what it is given, with one for the text without tail. -/
structure Continues (tail : List Char) (next next' : List Char → Option (List Char)) : Prop where
  shrinks : ∀ text rest, next text = .some rest → rest.length ≤ text.length
  cuts : ∀ text, Cuts tail (next (text ++ tail)) (next' text)

theorem length_le_of_splits {language : List Char → Prop} {text rest : List Char}
    {next : List Char → Option (List Char)}
    (hnext : ∀ text rest, next text = .some rest → rest.length ≤ text.length)
    (h : Splits language text next rest) : rest.length ≤ text.length := by
  obtain ⟨taken, between, rfl, -, hbetween⟩ := h
  have hle := hnext _ _ hbetween
  rw [List.length_append]
  omega

namespace Continues

variable {next next' round round' : List Char → Option (List Char)}

/-- A round goes on only where something was taken, which is so with the tail or without. -/
theorem guard {text : List Char}
    (hround : ∀ text rest, round text = .some rest → rest.length ≤ text.length)
    (hcuts : ∀ rest, rest.length < text.length → Cuts tail (round (rest ++ tail)) (round' rest))
    (h : Continues tail next next') :
    Continues tail
      (fun rest => if rest.length < (text ++ tail).length then round rest else next rest)
      fun rest => if rest.length < text.length then round' rest else next' rest where
  shrinks rest after hafter := by
    split at hafter
    next => exact hround _ _ hafter
    next => exact h.shrinks _ _ hafter
  cuts rest := by
    by_cases hlt : rest.length < text.length
    · have hlt' : (rest ++ tail).length < (text ++ tail).length := by simpa using hlt
      simp only [if_pos hlt, if_pos hlt']
      exact hcuts rest hlt
    · have hlt' : ¬ (rest ++ tail).length < (text ++ tail).length := by simpa using hlt
      simp only [if_neg hlt, if_neg hlt']
      exact h.cuts rest

/-- Where the text is used up no round takes any of it. -/
theorem guard_nil (hround : ∀ text rest, round text = .some rest → rest.length ≤ text.length)
    (h : Continues tail next next') :
    Continues tail
      (fun rest => if rest.length < ([] ++ tail).length then round rest else next rest) next' := by
  have hguard : Continues tail
      (fun rest => if rest.length < ([] ++ tail).length then round rest else next rest)
      fun rest => if rest.length < [].length then next' rest else next' rest :=
    h.guard hround fun rest hlt => by simp at hlt
  simpa using hguard

end Continues

section Repetition

variable {body : Pattern} {next next' : List Char → Option (List Char)}
  (hbody : ∀ text {next next'}, Continues tail next next' →
    Cuts tail (body.run (text ++ tail) next) (body.run text next'))

theorem length_le_of_repeated (body : Pattern)
    (hnext : ∀ text rest, next text = .some rest → rest.length ≤ text.length) (rounds : Nat)
    (text rest : List Char) (h : repeated body.run rounds text next = .some rest) :
    rest.length ≤ text.length :=
  length_le_of_splits hnext (splits_of_repeated (fun _ _ _ => splits_of_run) h)

theorem length_le_of_repeatedLate (body : Pattern)
    (hnext : ∀ text rest, next text = .some rest → rest.length ≤ text.length) (rounds : Nat)
    (text rest : List Char) (h : repeatedLate body.run rounds text next = .some rest) :
    rest.length ≤ text.length :=
  length_le_of_splits hnext (splits_of_repeatedLate (fun _ _ _ => splits_of_run) h)

include hbody

theorem cuts_repeated (h : Continues tail next next') {text : List Char} {rounds rounds' : Nat}
    (hrounds : (text ++ tail).length ≤ rounds) (hrounds' : text.length ≤ rounds') :
    Cuts tail (repeated body.run rounds (text ++ tail) next)
      (repeated body.run rounds' text next') := by
  induction rounds generalizing text rounds' with
  | zero =>
    obtain rfl : text = [] := by
      rw [List.length_append] at hrounds
      exact List.length_eq_zero_iff.mp (by omega)
    have hpart : repeated body.run rounds' [] next' = next' [] := by
      cases rounds' with
      | zero => rfl
      | succ rounds' => simp [repeated, orElse_nil]
    rw [hpart]
    exact h.cuts []
  | succ rounds ih =>
    rw [repeated]
    cases rounds' with
    | zero =>
      -- the tail allows a round where the text is used up, but it takes nothing of the text
      obtain rfl : text = [] := List.length_eq_zero_iff.mp (by omega)
      have hround := hbody [] (h.guard_nil (length_le_of_repeated body h.shrinks rounds))
      have hboth := hround.orElse (h.cuts [])
      rwa [orElse_nil] at hboth
    | succ rounds' =>
      rw [repeated]
      refine (hbody text (.guard (length_le_of_repeated body h.shrinks rounds) (fun rest hlt => ?_)
        h)).orElse (h.cuts text)
      refine ih ?_ (by omega)
      rw [List.length_append] at hrounds ⊢
      omega

theorem cuts_repeatedLate (h : Continues tail next next') {text : List Char} {rounds rounds' : Nat}
    (hrounds : (text ++ tail).length ≤ rounds) (hrounds' : text.length ≤ rounds') :
    Cuts tail (repeatedLate body.run rounds (text ++ tail) next)
      (repeatedLate body.run rounds' text next') := by
  have hfail : Continues tail (fun _ => .none) fun _ => .none :=
    ⟨fun _ _ h => (nomatch h), fun _ => Cuts.none⟩
  have hnone : body.run [] (fun _ => (.none : Option (List Char))) = .none :=
    (run_nil body _).elim id id
  induction rounds generalizing text rounds' with
  | zero =>
    obtain rfl : text = [] := by
      rw [List.length_append] at hrounds
      exact List.length_eq_zero_iff.mp (by omega)
    have hpart : repeatedLate body.run rounds' [] next' = next' [] := by
      cases rounds' with
      | zero => rfl
      | succ rounds' => simp [repeatedLate, hnone]
    rw [hpart]
    exact h.cuts []
  | succ rounds ih =>
    rw [repeatedLate]
    cases rounds' with
    | zero =>
      obtain rfl : text = [] := List.length_eq_zero_iff.mp (by omega)
      have hround := hbody []
        (hfail.guard_nil (length_le_of_repeatedLate body h.shrinks rounds))
      rw [hnone] at hround
      have hboth := (h.cuts []).orElse hround
      have hpart : (next' [] <|> (.none : Option (List Char))) = next' [] := by simp
      rwa [hpart] at hboth
    | succ rounds' =>
      rw [repeatedLate]
      refine (h.cuts text).orElse (hbody text
        (hfail.guard (length_le_of_repeatedLate body h.shrinks rounds) fun rest hlt =>
          ih ?_ (by omega)))
      rw [List.length_append] at hrounds ⊢
      omega

end Repetition

theorem Continues.run {pattern : Pattern} {next next' : List Char → Option (List Char)}
    (h : Continues tail next next')
    (hcuts : ∀ text, Cuts tail (pattern.run (text ++ tail) next) (pattern.run text next')) :
    Continues tail (pattern.run · next) (pattern.run · next') :=
  ⟨fun _ _ hrest => length_le_of_splits h.shrinks (splits_of_run hrest), hcuts⟩

/-- What a pattern leaves of a text bears on what it leaves of the text without its tail. -/
theorem run_cuts (pattern : Pattern) {next next' : List Char → Option (List Char)}
    (h : Continues tail next next') (text : List Char) :
    Cuts tail (pattern.run (text ++ tail) next) (pattern.run text next') := by
  induction pattern generalizing text next next' with
  | empty => exact h.cuts text
  | oneOf negated tests =>
    cases text with
    | nil =>
      rw [List.nil_append]
      cases tail with
      | nil => exact .none
      | cons c more =>
        rw [run, run]
        split
        next => exact .of_short fun rest hrest => Nat.lt_succ_of_le (h.shrinks _ _ hrest)
        next => exact .none
    | cons c rest =>
      rw [List.cons_append, run, run]
      split
      next => exact h.cuts rest
      next => exact .none
  | seq first second ihFirst ihSecond => exact ihFirst (h.run (ihSecond h)) text
  | either first second ihFirst ihSecond => exact (ihFirst h text).orElse (ihSecond h text)
  | many body ih =>
    exact cuts_repeated (fun text _ _ h => ih h text) h (Nat.le_refl _) (Nat.le_refl _)
  | some body ih =>
    refine ih ⟨fun text => length_le_of_repeated body h.shrinks text.length text, fun text => ?_⟩
      text
    exact cuts_repeated (fun text _ _ h => ih h text) h (Nat.le_refl _) (Nat.le_refl _)
  | optional body ih => exact (ih h text).orElse (h.cuts text)
  | fewest body ih =>
    exact cuts_repeatedLate (fun text _ _ h => ih h text) h (Nat.le_refl _) (Nat.le_refl _)

/-- A text is matched the same where it is cut behind the match. -/
theorem cuts_rest? (pattern : Pattern) (text tail : List Char) :
    Cuts tail (pattern.rest? (text ++ tail)) (pattern.rest? text) := by
  refine run_cuts pattern ⟨fun text rest h => ?_, fun text => ?_⟩ text
  · cases h
    exact Nat.le_refl _
  · exact ⟨fun h => (nomatch h), fun rest h => by rw [List.append_cancel_right (Option.some.inj h)]⟩

/-- The words of a pattern have no character that it has no use for. -/
theorem Matches.not_mem {pattern : Pattern} {w : List Char} (h : pattern.Matches w)
    (hunused : pattern.uses d = false) : d ∉ w := by
  induction h with
  | empty | none | skipped => exact List.not_mem_nil
  | oneOf haccepts =>
    rw [List.mem_singleton]
    rintro rfl
    rw [uses, haccepts] at hunused
    cases hunused
  | seq _ _ ihFirst ihSecond =>
    obtain ⟨hfirst, hsecond⟩ := Bool.or_eq_false_iff.mp hunused
    exact List.not_mem_append (ihFirst hfirst) (ihSecond hsecond)
  | left _ ih => exact ih (Bool.or_eq_false_iff.mp hunused).1
  | right _ ih => exact ih (Bool.or_eq_false_iff.mp hunused).2
  | more _ _ ihFirst ihRest | some _ _ ihFirst ihRest =>
    exact List.not_mem_append (ihFirst hunused) (ihRest hunused)
  | taken _ ih | fewest _ ih => exact ih hunused

/-- Whether a character ends a match at the start of a text, so that nothing behind it matters. -/
def StopsAt (pattern : Pattern) (text : List Char) (d : Char) : Prop :=
  ∀ more, pattern.rest? (text ++ d :: more) = (pattern.rest? text).map (· ++ d :: more)

/-- In front of a character that a pattern has no use for, a match is that of the text alone. -/
theorem stopsAt_of_unused {pattern : Pattern} (hunused : pattern.uses d = false)
    (text : List Char) : pattern.StopsAt text d := by
  intro more
  have hcuts := pattern.cuts_rest? text (d :: more)
  cases hfull : pattern.rest? (text ++ d :: more) with
  | none => rw [hcuts.fails hfull, Option.map_none]
  | some rest =>
    obtain ⟨taken, htext, htaken⟩ := exists_of_rest? hfull
    obtain ⟨after, rfl⟩ : ∃ after, rest = after ++ d :: more := by
      rcases List.append_eq_append_iff.mp htext with ⟨after, rfl, hrest⟩ | ⟨after, -, hrest⟩
      · cases after with
        | nil => exact ⟨[], hrest.symm⟩
        | cons c after =>
          rw [List.cons_append, List.cons.injEq] at hrest
          exact absurd (by simp [hrest.1]) (htaken.not_mem hunused)
      · exact ⟨after, hrest⟩
    rw [hcuts.leaves after hfull, Option.map_some]

theorem stopsAt_oneOf (negated : Bool) (tests : List CharTest) (c : Char) (text : List Char) :
    (oneOf negated tests).StopsAt (c :: text) d := by
  intro more
  rw [List.cons_append, rest?, rest?, run, run]
  split <;> rfl

theorem stopsAt_some_oneOf {negated : Bool} {tests : List CharTest} {c : Char}
    (hc : (tests.any (·.accepts c) != negated) = false) (text : List Char) :
    (some (.oneOf negated tests)).StopsAt (c :: text) d := by
  intro more
  simp [rest?, run, hc]

section Classes

variable {negated : Bool} {tests : List CharTest}

theorem repeated_oneOf {text : List Char} {rounds : Nat} (hrounds : text.length ≤ rounds) :
    repeated (oneOf negated tests).run rounds text Option.some =
      Option.some (text.dropWhile fun c => tests.any (·.accepts c) != negated) := by
  induction rounds generalizing text with
  | zero =>
    obtain rfl : text = [] := List.length_eq_zero_iff.mp (by omega)
    rfl
  | succ rounds ih =>
    cases text with
    | nil => rfl
    | cons c rest =>
      rw [repeated, run]
      by_cases hc : (tests.any (·.accepts c) != negated) = true
      · have hlt : rest.length < (c :: rest).length := by simp
        rw [if_pos hc, if_pos hlt, ih (by simpa using hrounds), List.dropWhile_cons, if_pos hc]
        rfl
      · rw [if_neg hc, List.dropWhile_cons, if_neg hc]
        rfl

theorem rest?_some_oneOf {c : Char} (hc : (tests.any (·.accepts c) != negated) = true)
    (text : List Char) :
    (some (.oneOf negated tests)).rest? (c :: text) =
      Option.some (text.dropWhile fun c => tests.any (·.accepts c) != negated) := by
  rw [rest?, run, run, if_pos hc]
  exact repeated_oneOf (Nat.le_refl _)

end Classes

end Formula.Pattern
