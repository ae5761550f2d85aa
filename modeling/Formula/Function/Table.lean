import Formula.Function.Registry
import Formula.Text.Order

namespace Formula

variable {σ : Type}

/-- The functions that one calculator sees: its own over those of the registry. -/
structure FunctionTable (σ : Type) where
  own : List (String × Callee σ)

namespace FunctionTable

def empty : FunctionTable σ := ⟨[]⟩

def owns (table : FunctionTable σ) (name : String) : Bool :=
  (table.own.lookup name).isSome

/-- Enters a function of its own. The latest one of a name counts. -/
def register (table : FunctionTable σ) (name : String) (callee : Callee σ) : FunctionTable σ :=
  ⟨(name, callee) :: table.own.filter (·.1 != name)⟩

/-- The function of a name, over the registry as it is now. -/
def resolve (table : FunctionTable σ) (registry : Registry σ) (name : String) :
    Option (Callee σ) :=
  (table.own.lookup name).or (registry.callee? name)

/-- The function of a name if it may be called ahead of time: a registered one that is not
hidden. -/
def foldable (table : FunctionTable σ) (registry : Registry σ) (name : String) :
    Option (Callee σ) :=
  if table.owns name then none else registry.callee? name

/-- The names of all functions, in order. -/
def names (table : FunctionTable σ) (registry : Registry σ) : List String :=
  Text.sortedNames (table.own.map (·.1) ++ registry.names)

/-- The names of the functions that may be called ahead of time, in order. -/
def foldableNames (table : FunctionTable σ) (registry : Registry σ) : List String :=
  Text.sortedNames (registry.names.filter (!table.owns ·))

end FunctionTable

end Formula
