import Formula.Value

namespace Formula

/-- Variables with their values, in the order in which they were first written. -/
structure Store where
  entries : List (String × Value)
  deriving DecidableEq

namespace Store

instance : EmptyCollection Store := ⟨⟨[]⟩⟩

def get? (store : Store) (name : String) : Option Value :=
  store.entries.lookup name

def writeEntry (name : String) (value : Value) : List (String × Value) → List (String × Value)
  | [] => [(name, value)]
  | entry :: rest =>
    if entry.1 == name then (name, value) :: rest else entry :: writeEntry name value rest

/-- Writes a variable. One that is there already keeps its place. -/
def set (store : Store) (name : String) (value : Value) : Store :=
  ⟨writeEntry name value store.entries⟩

def erase (store : Store) (name : String) : Store :=
  ⟨store.entries.filter (·.1 != name)⟩

def size (store : Store) : Nat :=
  store.entries.length

def ofList (entries : List (String × Value)) : Store :=
  entries.foldl (fun store entry => store.set entry.1 entry.2) ∅

@[simp] theorem get?_empty (name : String) : (∅ : Store).get? name = none := rfl

theorem lookup_writeEntry (name other : String) (value : Value) (entries : List (String × Value)) :
    (writeEntry name value entries).lookup other =
      if other == name then some value else entries.lookup other := by
  induction entries with
  | nil => simp only [writeEntry, List.lookup_cons]; cases other == name <;> rfl
  | cons entry rest ih =>
    obtain ⟨key, old⟩ := entry
    by_cases hkey : key = name
    · subst hkey
      simp only [writeEntry, beq_self_eq_true, ↓reduceIte, List.lookup_cons]
      cases other == key <;> rfl
    · simp only [writeEntry, beq_iff_eq, hkey, ↓reduceIte, List.lookup_cons, ih]
      by_cases hother : other = key
      · subst hother
        simp [hkey]
      · simp [beq_eq_false_iff_ne.mpr hother]

/-- A written variable has the new value, and every other one is as before. -/
theorem get?_set (store : Store) (name other : String) (value : Value) :
    (store.set name value).get? other =
      if other == name then some value else store.get? other :=
  lookup_writeEntry name other value store.entries

end Store

end Formula
