import Formula.Pattern
import Mathlib.Data.Option.Basic

namespace Formula.Pattern

variable {α : Type}

inductive Matches : Pattern → List Char → Prop where
  | empty : Matches .empty []
  | oneOf {negated : Bool} {tests : List CharTest} {c : Char} :
    (tests.any (·.accepts c) != negated) = true → Matches (.oneOf negated tests) [c]
  | seq {first second : Pattern} {v w : List Char} :
    Matches first v → Matches second w → Matches (.seq first second) (v ++ w)
  | left {first second : Pattern} {w : List Char} :
    Matches first w → Matches (.either first second) w
  | right {first second : Pattern} {w : List Char} :
    Matches second w → Matches (.either first second) w
  | none {body : Pattern} : Matches (.many body) []
  | more {body : Pattern} {v w : List Char} :
    Matches body v → Matches (.many body) w → Matches (.many body) (v ++ w)
  | some {body : Pattern} {v w : List Char} :
    Matches body v → Matches (.many body) w → Matches (.some body) (v ++ w)
  | taken {body : Pattern} {w : List Char} : Matches body w → Matches (.optional body) w
  | skipped {body : Pattern} : Matches (.optional body) []
  | fewest {body : Pattern} {w : List Char} :
    Matches (.many body) w → Matches (.fewest body) w

/-- A way to take a word of a language from a text and to continue behind it. -/
def Splits (language : List Char → Prop) (text : List Char) (next : List Char → Option α)
    (result : α) : Prop :=
  ∃ taken rest, text = taken ++ rest ∧ language taken ∧ next rest = .some result

section Repetition

variable {step : List Char → (List Char → Option α) → Option α} {body : Pattern}
  (hstep : ∀ text next result, step text next = .some result →
    Splits body.Matches text next result)
include hstep

theorem splits_of_repeated {rounds : Nat} {text : List Char} {next : List Char → Option α}
    {result : α} (h : repeated step rounds text next = .some result) :
    Splits (Matches (.many body)) text next result := by
  induction rounds generalizing text with
  | zero => exact ⟨[], text, rfl, .none, h⟩
  | succ rounds ih =>
    rw [repeated, Option.orElse_eq_some] at h
    rcases h with h | ⟨-, h⟩
    · obtain ⟨v, rest, rfl, hv, hrest⟩ := hstep _ _ _ h
      dsimp only at hrest
      split at hrest
      next =>
        obtain ⟨w, after, rfl, hw, hafter⟩ := ih hrest
        exact ⟨v ++ w, after, by simp, .more hv hw, hafter⟩
      next => exact ⟨v ++ [], rest, by simp, .more hv .none, hrest⟩
    · exact ⟨[], text, rfl, .none, h⟩

theorem splits_of_repeatedLate {rounds : Nat} {text : List Char}
    {next : List Char → Option α} {result : α}
    (h : repeatedLate step rounds text next = .some result) :
    Splits (Matches (.many body)) text next result := by
  induction rounds generalizing text with
  | zero => exact ⟨[], text, rfl, .none, h⟩
  | succ rounds ih =>
    rw [repeatedLate, Option.orElse_eq_some] at h
    rcases h with h | ⟨-, h⟩
    · exact ⟨[], text, rfl, .none, h⟩
    · obtain ⟨v, rest, rfl, hv, hrest⟩ := hstep _ _ _ h
      dsimp only at hrest
      split at hrest
      next =>
        obtain ⟨w, after, rfl, hw, hafter⟩ := ih hrest
        exact ⟨v ++ w, after, by simp, .more hv hw, hafter⟩
      next => simp at hrest

end Repetition

theorem splits_of_run {pattern : Pattern} {text : List Char} {next : List Char → Option α}
    {result : α} (h : pattern.run text next = .some result) :
    Splits pattern.Matches text next result := by
  induction pattern generalizing text next result with
  | empty => exact ⟨[], text, rfl, .empty, h⟩
  | oneOf negated tests =>
    cases text with
    | nil => simp [run] at h
    | cons c rest =>
      rw [run] at h
      split at h
      next haccepts => exact ⟨[c], rest, rfl, .oneOf haccepts, h⟩
      next => simp at h
  | seq first second ihFirst ihSecond =>
    obtain ⟨v, middle, rfl, hv, hmiddle⟩ := ihFirst h
    obtain ⟨w, rest, rfl, hw, hrest⟩ := ihSecond hmiddle
    exact ⟨v ++ w, rest, by simp, .seq hv hw, hrest⟩
  | either first second ihFirst ihSecond =>
    rw [run, Option.orElse_eq_some] at h
    rcases h with h | ⟨-, h⟩
    · obtain ⟨w, rest, htext, hw, hrest⟩ := ihFirst h
      exact ⟨w, rest, htext, .left hw, hrest⟩
    · obtain ⟨w, rest, htext, hw, hrest⟩ := ihSecond h
      exact ⟨w, rest, htext, .right hw, hrest⟩
  | many body ih => exact splits_of_repeated (fun _ _ _ => ih) h
  | some body ih =>
    obtain ⟨v, middle, rfl, hv, hmiddle⟩ := ih h
    obtain ⟨w, rest, rfl, hw, hrest⟩ := splits_of_repeated (fun _ _ _ => ih) hmiddle
    exact ⟨v ++ w, rest, by simp, .some hv hw, hrest⟩
  | optional body ih =>
    rw [run, Option.orElse_eq_some] at h
    rcases h with h | ⟨-, h⟩
    · obtain ⟨w, rest, htext, hw, hrest⟩ := ih h
      exact ⟨w, rest, htext, .taken hw, hrest⟩
    · exact ⟨[], text, rfl, .skipped, h⟩
  | fewest body ih =>
    obtain ⟨w, rest, htext, hw, hrest⟩ := splits_of_repeatedLate (fun _ _ _ => ih) h
    exact ⟨w, rest, htext, .fewest hw, hrest⟩

/-- A match divides a text into a word of the pattern and the rest. -/
theorem exists_of_rest? {pattern : Pattern} {text rest : List Char}
    (h : pattern.rest? text = .some rest) :
    ∃ taken, text = taken ++ rest ∧ pattern.Matches taken := by
  obtain ⟨taken, after, htext, htaken, hafter⟩ := splits_of_run h
  cases hafter
  exact ⟨taken, htext, htaken⟩

/-- Whether the empty word may be a word of a pattern. -/
def nullable : Pattern → Bool
  | .empty | .many _ | .optional _ | .fewest _ => true
  | .oneOf _ _ => false
  | .seq first second => first.nullable && second.nullable
  | .either first second => first.nullable || second.nullable
  | .some body => body.nullable

theorem Matches.nullable {pattern : Pattern} {w : List Char} (h : pattern.Matches w)
    (hw : w = []) : pattern.nullable = true := by
  induction h with
  | empty | none | more _ _ _ _ | taken _ _ | skipped | fewest _ _ => rfl
  | oneOf _ => cases hw
  | seq _ _ ihFirst ihSecond =>
    obtain ⟨hv, hw⟩ := List.append_eq_nil_iff.mp hw
    rw [Pattern.nullable, ihFirst hv, ihSecond hw]
    rfl
  | left _ ih => rw [Pattern.nullable, ih hw, Bool.true_or]
  | right _ ih => rw [Pattern.nullable, ih hw, Bool.or_true]
  | some _ _ ih _ => exact ih (List.append_eq_nil_iff.mp hw).1

section Words

variable {first second body : Pattern} {w : List Char}

theorem matches_empty : Matches .empty w ↔ w = [] := by
  constructor
  · rintro ⟨⟩
    rfl
  · rintro rfl
    exact .empty

theorem matches_oneOf {negated : Bool} {tests : List CharTest} :
    Matches (.oneOf negated tests) w ↔
      ∃ c, w = [c] ∧ (tests.any (·.accepts c) != negated) = true := by
  constructor
  · rintro ⟨⟩
    exact ⟨_, rfl, ‹_›⟩
  · rintro ⟨c, rfl, h⟩
    exact .oneOf h

theorem matches_seq :
    Matches (.seq first second) w ↔ ∃ u v, w = u ++ v ∧ first.Matches u ∧ second.Matches v := by
  constructor
  · rintro ⟨⟩
    exact ⟨_, _, rfl, ‹_›, ‹_›⟩
  · rintro ⟨u, v, rfl, hu, hv⟩
    exact .seq hu hv

theorem matches_either :
    Matches (.either first second) w ↔ first.Matches w ∨ second.Matches w := by
  constructor
  · rintro (⟨⟩ | ⟨⟩)
    · exact .inl ‹_›
    · exact .inr ‹_›
  · rintro (h | h)
    · exact .left h
    · exact .right h

theorem matches_optional : Matches (.optional body) w ↔ body.Matches w ∨ w = [] := by
  constructor
  · rintro (⟨⟩ | ⟨⟩)
    · exact .inl ‹_›
    · exact .inr rfl
  · rintro (h | rfl)
    · exact .taken h
    · exact .skipped

theorem accepts_range_self {c d : Char} : (CharTest.range c c).accepts d = true ↔ d = c := by
  constructor
  · intro h
    have hrange : c ≤ d ∧ d ≤ c := by simpa [CharTest.accepts] using h
    exact Char.le_antisymm hrange.2 hrange.1
  · rintro rfl
    simp [CharTest.accepts]

theorem matches_char {c : Char} : Matches (char c) w ↔ w = [c] := by
  simp [char, matches_oneOf, accepts_range_self]

/-- A repeated class takes any characters of the class. -/
theorem matches_many_oneOf {negated : Bool} {tests : List CharTest} :
    Matches (.many (.oneOf negated tests)) w ↔
      ∀ c ∈ w, (tests.any (·.accepts c) != negated) = true := by
  constructor
  · intro h
    generalize hp : Pattern.many (.oneOf negated tests) = pattern at h
    induction h with
    | none => simp
    | @more body v w hv hw _ ih =>
      cases hp
      obtain ⟨c, rfl, hc⟩ := matches_oneOf.mp hv
      exact List.forall_mem_cons.mpr ⟨hc, ih rfl⟩
    | _ => cases hp
  · intro h
    induction w with
    | nil => exact .none
    | cons c w ih =>
      rw [List.forall_mem_cons] at h
      exact .more (.oneOf h.1) (ih h.2)

theorem matches_some_oneOf {negated : Bool} {tests : List CharTest} :
    Matches (.some (.oneOf negated tests)) w ↔
      w ≠ [] ∧ ∀ c ∈ w, (tests.any (·.accepts c) != negated) = true := by
  constructor
  · rintro ⟨⟩
    rename_i v w hv hw
    obtain ⟨c, rfl, hc⟩ := matches_oneOf.mp hv
    exact ⟨by simp, List.forall_mem_cons.mpr ⟨hc, matches_many_oneOf.mp hw⟩⟩
  · rintro ⟨hne, h⟩
    cases w with
    | nil => exact absurd rfl hne
    | cons c w =>
      rw [List.forall_mem_cons] at h
      exact .some (.oneOf h.1) (matches_many_oneOf.mpr h.2)

end Words

end Formula.Pattern
