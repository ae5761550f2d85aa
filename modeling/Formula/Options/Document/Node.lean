import Formula.Options.Document.Scalar

namespace Formula.Document

/-- What a document says before the scalars without quotes are given a meaning. -/
inductive Node where
  /-- A scalar without quotes. -/
  | plain (text : List Char)
  /-- A scalar in quotes, by its codes. -/
  | quoted (codes : List Nat)
  | list (items : List Node)
  | mapping (entries : List (Node × Node))

namespace Node

/-- A place where nothing stands. -/
def nothing : Node := .plain []

mutual

/-- How many nodes of a node lie one within the other at most. -/
def levels : Node → Nat
  | plain _ | quoted _ => 1
  | list items => levelsOfItems items + 1
  | mapping entries => levelsOfEntries entries + 1

def levelsOfItems : List Node → Nat
  | [] => 0
  | first :: rest => max (levels first) (levelsOfItems rest)

def levelsOfEntries : List (Node × Node) → Nat
  | [] => 0
  | (key, value) :: rest => max (max (levels key) (levels value)) (levelsOfEntries rest)

end

mutual

/-- The datum that a node stands for. The keys of a mapping must be scalars. -/
def datum : Node → Except DocumentFault Datum
  | plain text => resolve text
  | quoted codes => .ok (.ofCodes codes)
  | list items => (data items).map .list
  | mapping entries => (dataOfEntries entries).map .ofEntries

def data : List Node → Except DocumentFault (List Datum)
  | [] => .ok []
  | first :: rest => do
    let head ← datum first
    let tail ← data rest
    return head :: tail

def dataOfEntries : List (Node × Node) → Except DocumentFault (List (Datum × Datum))
  | [] => .ok []
  | (key, value) :: rest => do
    let key ← datum key
    if !key.isKey then throw .malformed
    let value ← datum value
    let tail ← dataOfEntries rest
    return (key, value) :: tail

end

end Node

end Formula.Document
