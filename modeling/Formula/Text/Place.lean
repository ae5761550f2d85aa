namespace Formula.Text

/-- How many characters come before, and the line and column, both counted from one. -/
structure Place where
  position : Nat
  line : Nat
  column : Nat
  deriving DecidableEq, Repr

namespace Place

def start : Place := ⟨0, 1, 1⟩

/-- The place behind one more character. A line feed begins the next line. -/
def step (place : Place) (c : Char) : Place :=
  if c = '\n' then ⟨place.position + 1, place.line + 1, 1⟩
  else ⟨place.position + 1, place.line, place.column + 1⟩

/-- The place behind further characters. -/
def advance (place : Place) (text : List Char) : Place :=
  text.foldl step place

@[simp] theorem advance_nil (place : Place) : place.advance [] = place := rfl

theorem advance_append (place : Place) (first second : List Char) :
    place.advance (first ++ second) = (place.advance first).advance second :=
  List.foldl_append

theorem position_advance (place : Place) (text : List Char) :
    (place.advance text).position = place.position + text.length := by
  induction text generalizing place with
  | nil => rfl
  | cons c rest ih =>
    have := ih (place.step c)
    have hc : (place.step c).position = place.position + 1 := by
      unfold step
      split <;> rfl
    simp only [advance, List.foldl_cons, List.length_cons] at this ⊢
    omega

end Place

end Formula.Text
