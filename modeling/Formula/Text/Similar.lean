namespace Formula.Text

/-- The length of the common start of two texts. -/
def commonStart : List Char → List Char → Nat
  | a :: first, b :: second => if a == b then commonStart first second + 1 else 0
  | _, _ => 0

/-- The longest common block of two texts: its place in each and its length. Of several the first
in the first text, and of these the first in the second, is taken. -/
def longestBlock (first second : List Char) : Nat × Nat × Nat :=
  let starts := (List.range first.length).flatMap fun i =>
    (List.range second.length).map fun j => (i, j)
  starts.foldl
    (fun best (i, j) =>
      let length := commonStart (first.drop i) (second.drop j)
      if best.2.2 < length then (i, j, length) else best)
    (0, 0, 0)

/-- The number of characters in common blocks. Each round deals with a shorter first text, so its
length bounds the rounds. -/
def commonCharacters : Nat → List Char → List Char → Nat
  | 0, _, _ => 0
  | rounds + 1, first, second =>
    let (i, j, length) := longestBlock first second
    if length = 0 then 0
    else
      length + commonCharacters rounds (first.take i) (second.take j)
        + commonCharacters rounds (first.drop (i + length)) (second.drop (j + length))

/-- The characters in common blocks of two words, counted twice, and all their characters. -/
def similarity (first second : String) : Nat × Nat :=
  let a := first.toList
  let b := second.toList
  (2 * commonCharacters (a.length + 1) a b, a.length + b.length)

/-- Up to three of the candidates that are similar enough to a word, the most similar first. -/
def closeMatches (word : String) (candidates : List String) : List String :=
  let rated := candidates.map fun candidate => (similarity candidate word, candidate)
  let close := rated.filter fun ((common, all), _) => 6 * all ≤ 10 * common
  let before (a b : (Nat × Nat) × String) : Bool :=
    let left := a.1.1 * b.1.2
    let right := b.1.1 * a.1.2
    right < left || (right == left && !(a.2 < b.2))
  ((close.mergeSort before).map (·.2)).take 3

end Formula.Text
