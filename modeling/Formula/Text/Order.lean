namespace Formula.Text

/-- Names in ascending order, each once. -/
def sortedNames (names : List String) : List String :=
  (names.mergeSort fun a b => !(b < a)).foldr
    (fun name rest => if rest.head? == some name then rest else name :: rest) []

end Formula.Text
