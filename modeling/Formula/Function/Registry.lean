import Formula.Effect
import Formula.Function.Builtin

namespace Formula

variable {σ : Type}

/-- A function with what a listing says about it. -/
structure Definition (σ : Type) where
  name : String
  description : String
  category : FunctionCategory
  parameters : List String
  callee : Callee σ
  examples : List String

/-- The functions that all formulas share, in the order of first registration. -/
structure Registry (σ : Type) where
  definitions : List (Definition σ)

namespace Registry

def empty : Registry σ := ⟨[]⟩

def place (definition : Definition σ) : List (Definition σ) → List (Definition σ)
  | [] => [definition]
  | other :: rest =>
    if other.name == definition.name then definition :: rest
    else other :: place definition rest

def register (registry : Registry σ) (definition : Definition σ) : Registry σ :=
  ⟨place definition registry.definitions⟩

def find? (registry : Registry σ) (name : String) : Option (Definition σ) :=
  registry.definitions.find? (·.name == name)

def contains (registry : Registry σ) (name : String) : Bool :=
  (registry.find? name).isSome

def callee? (registry : Registry σ) (name : String) : Option (Callee σ) :=
  (registry.find? name).map (·.callee)

def names (registry : Registry σ) : List String :=
  registry.definitions.map (·.name)

def inCategory (registry : Registry σ) (category : FunctionCategory) : List (Definition σ) :=
  registry.definitions.filter (·.category == category)

/-- The categories that have functions, in the order in which they first occur. -/
def categories (registry : Registry σ) : List FunctionCategory :=
  registry.definitions.foldl
    (fun found definition =>
      if found.contains definition.category then found else found ++ [definition.category]) []

end Registry

def Builtin.definition (function : Builtin) : Definition σ where
  name := function.name
  description := function.description
  category := function.category
  parameters := function.parameters
  callee := .pureFunction function.run
  examples := function.examples

namespace Registry

/-- Registers all built-in functions. -/
def withBuiltins (registry : Registry σ) : Registry σ :=
  Builtin.all.foldl (fun registry function => registry.register function.definition) registry

/-- The registry at the start. -/
def standard : Registry σ :=
  empty.withBuiltins

end Registry

end Formula
