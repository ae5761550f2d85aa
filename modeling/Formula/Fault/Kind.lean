namespace Formula

/-- A fault of evaluation is one that the language of formulas knows about, one of a document is one
of the loader; the others come from the values, functions and data of the caller. -/
inductive FaultKind where
  | evaluation
  | value
  | type
  | overflow
  | zeroDivision
  | index
  | key
  | attribute
  | recursion
  | document
  deriving DecidableEq, Repr

end Formula
