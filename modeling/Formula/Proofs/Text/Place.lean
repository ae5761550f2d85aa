import Formula.Text.Place
import Mathlib.Data.List.Induction

namespace Formula.Text

/-- The characters of a text behind its last line feed. -/
def lastLine (text : List Char) : List Char :=
  (text.reverse.takeWhile (· ≠ '\n')).reverse

namespace Place

variable (place : Place) (text : List Char)

theorem line_advance : (place.advance text).line = place.line + text.count '\n' := by
  induction text generalizing place with
  | nil => rfl
  | cons c rest ih =>
    rw [advance, List.foldl_cons, ← advance, ih, step, List.count_cons]
    by_cases hc : c = '\n'
    · simp only [hc, ↓reduceIte, BEq.rfl]
      omega
    · simp [hc]

theorem column_advance_start : (start.advance text).column = (lastLine text).length + 1 := by
  induction text using List.reverseRecOn with
  | nil => rfl
  | append_singleton rest c ih =>
    rw [advance_append, lastLine, List.reverse_append, List.reverse_singleton,
      List.singleton_append, List.takeWhile_cons]
    change (step (start.advance rest) c).column = _
    by_cases hc : c = '\n'
    · simp [step, hc]
    · simp [step, hc, ih, lastLine]

/-- The place behind a text in terms of its characters. -/
theorem advance_start :
    start.advance text = ⟨text.length, text.count '\n' + 1, (lastLine text).length + 1⟩ := by
  have hposition := position_advance start text
  have hline := line_advance start text
  have hcolumn := column_advance_start text
  rcases hplace : start.advance text with ⟨position, line, column⟩
  rw [hplace] at hposition hline hcolumn
  simp only [start] at hposition hline hcolumn
  subst hposition hline hcolumn
  simp [Nat.add_comm]

end Place

end Formula.Text
