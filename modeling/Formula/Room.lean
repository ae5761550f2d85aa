namespace Formula

/-- How much deeper a pass may go. -/
inductive Room where
  | unlimited
  | frames (left : Nat)
  deriving DecidableEq, Repr

namespace Room

/-- The room of a fresh pass. -/
def standard : Room := .frames 985

/-- What is left after going one level down, at the given price. -/
def enter? : Room → Nat → Option Room
  | .unlimited, _ => some .unlimited
  | .frames left, cost => if cost ≤ left then some (.frames (left - cost)) else none

/-- Whether a number of levels fits at one frame each. -/
def holds : Room → Nat → Bool
  | .unlimited, _ => true
  | .frames left, levels => levels ≤ left

@[simp] theorem enter?_unlimited (cost : Nat) : unlimited.enter? cost = some unlimited := rfl

@[simp] theorem holds_unlimited (levels : Nat) : unlimited.holds levels = true := rfl

end Room

/-- The frames that each pass takes for one level of nesting. -/
structure Price where
  parenthesis : Nat
  argument : Nat
  sign : Nat
  exponent : Nat
  evaluation : Nat
  folding : Nat
  printing : Nat
  loading : Nat

def price : Price := ⟨5, 6, 1, 2, 3, 2, 3, 2⟩

end Formula
