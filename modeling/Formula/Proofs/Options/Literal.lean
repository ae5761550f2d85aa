import Formula.Options.Datum

namespace Formula.Datum

mutual

/-- A datum and the data inside it, in the order in which they are written, each with its level. -/
def parts (level : Nat) : Datum → List (Nat × Datum)
  | .list items => (level, .list items) :: partsOfItems (level + 1) items
  | .mapping entries => (level, .mapping entries) :: partsOfEntries (level + 1) entries
  | datum => [(level, datum)]

def partsOfItems (level : Nat) : List Datum → List (Nat × Datum)
  | [] => []
  | first :: rest => parts level first ++ partsOfItems level rest

def partsOfEntries (level : Nat) : List (Datum × Datum) → List (Nat × Datum)
  | [] => []
  | (key, value) :: rest => parts level key ++ (parts level value ++ partsOfEntries level rest)

end

/-- What keeps the first of some parts that cannot be written from being written. -/
def firstObstacle? (room : Room) (parts : List (Nat × Datum)) : Option LiteralFault :=
  parts.findSome? fun part => part.2.obstacle? room part.1

/-- Whether a result is the first fault of some parts, or no fault where they have none. -/
inductive Finds {α : Type} (room : Room) (parts : List (Nat × Datum)) :
    Except LiteralFault α → Prop where
  | error {fault : LiteralFault} : firstObstacle? room parts = some fault →
    Finds room parts (.error fault)
  | ok {a : α} : firstObstacle? room parts = none → Finds room parts (.ok a)

variable {α β : Type} {room : Room} {level : Nat} {found others : List (Nat × Datum)}
  {result : Except LiteralFault α} {datum : Datum}

theorem firstObstacle?_append (found others : List (Nat × Datum)) :
    firstObstacle? room (found ++ others) =
      (firstObstacle? room found).or (firstObstacle? room others) :=
  List.findSome?_append

theorem Finds.eq_error_iff {fault : LiteralFault} (h : Finds room found result) :
    result = .error fault ↔ firstObstacle? room found = some fault := by
  cases h with
  | error hfault => simp [hfault]
  | ok hnone => simp [hnone]

theorem Finds.append {next : Except LiteralFault β} (h : Finds room others next)
    (hnone : firstObstacle? room found = none) : Finds room (found ++ others) next := by
  have hsame : firstObstacle? room (found ++ others) = firstObstacle? room others := by
    rw [firstObstacle?_append, hnone, Option.none_or]
  cases h with
  | error hfault => exact .error (hsame.trans hfault)
  | ok hnone => exact .ok (hsame.trans hnone)

theorem Finds.bind {next : α → Except LiteralFault β} (h : Finds room found result)
    (hnext : ∀ a, Finds room others (next a)) : Finds room (found ++ others) (result >>= next) := by
  cases h with
  | error hfault =>
    refine .error ?_
    rw [firstObstacle?_append, hfault, Option.some_or]
  | @ok a hnone => exact (hnext a).append hnone

theorem Finds.map {f : α → β} (h : Finds room found result) :
    Finds room found (result >>= fun a => .ok (f a)) := by
  cases h with
  | error hfault => exact .error hfault
  | ok hnone => exact .ok hnone

theorem parts_eq_cons (level : Nat) (datum : Datum) :
    ∃ inner, datum.parts level = (level, datum) :: inner := by
  cases datum <;> exact ⟨_, rfl⟩

-- By induction on the datum. Levels only grow, and the room stays that of the whole datum.
mutual

theorem finds_literal (room : Room) (level : Nat) (datum : Datum) :
    Finds room (datum.parts level) (datum.literal room level) := by
  rw [literal.eq_def]
  split
  next fault hobstacle =>
    obtain ⟨inner, hparts⟩ := parts_eq_cons level datum
    exact .error (by rw [hparts, firstObstacle?, List.findSome?_cons, hobstacle])
  next hobstacle =>
    have hself : firstObstacle? room [(level, datum)] = none := by
      rw [firstObstacle?, List.findSome?_cons, hobstacle, List.findSome?_nil]
    cases datum with
    | list items => exact (finds_literals room (level + 1) items).map.append hself
    | mapping entries => exact (finds_entryLiterals room (level + 1) entries).map.append hself
    | _ => exact .ok hself

theorem finds_literals (room : Room) (level : Nat) :
    ∀ items, Finds room (partsOfItems level items) (literals room level items)
  | [] => .ok rfl
  | first :: rest => by
    rw [partsOfItems, literals]
    exact (finds_literal room level first).bind fun _ => (finds_literals room level rest).map

theorem finds_entryLiterals (room : Room) (level : Nat) :
    ∀ entries, Finds room (partsOfEntries level entries) (entryLiterals room level entries)
  | [] => .ok rfl
  | (key, value) :: rest => by
    rw [partsOfEntries, entryLiterals]
    exact (finds_literal room level key).bind fun _ =>
      (finds_literal room level value).bind fun _ => (finds_entryLiterals room level rest).map

end

/-- A datum is not written because of its first part that cannot be. -/
theorem literal_eq_error_iff {fault : LiteralFault} :
    datum.literal room level = .error fault ↔
      firstObstacle? room (datum.parts level) = some fault :=
  (finds_literal room level datum).eq_error_iff

theorem obstacle?_eq_some_tooDeep_iff :
    datum.obstacle? room level = some .tooDeep ↔
      room.holds (level + datum.innerLevels) = false := by
  unfold obstacle?
  cases room.holds (level + datum.innerLevels) <;> cases datum.isLong <;> simp

/-- Data without long integers cannot be written if one of them lies too deep. -/
theorem firstObstacle?_eq_tooDeep_iff (short : ∀ part ∈ found, part.2.isLong = false) :
    firstObstacle? room found = some .tooDeep ↔
      ∃ part ∈ found, room.holds (part.1 + part.2.innerLevels) = false := by
  constructor
  · intro h
    obtain ⟨part, member, hpart⟩ := List.exists_of_findSome?_eq_some h
    exact ⟨part, member, obstacle?_eq_some_tooDeep_iff.mp hpart⟩
  · rintro ⟨part, member, hdeep⟩
    cases h : firstObstacle? room found with
    | none =>
      have hpart := List.findSome?_eq_none_iff.mp h part member
      cases hpart.symm.trans (obstacle?_eq_some_tooDeep_iff.mpr hdeep)
    | some fault =>
      obtain ⟨other, hother, hfault⟩ := List.exists_of_findSome?_eq_some h
      unfold obstacle? at hfault
      rw [short other hother] at hfault
      split at hfault
      next => exact hfault.symm
      next => cases hfault

/-- A list inside so many others. -/
def nestedList : Nat → Datum
  | 0 => .list []
  | n + 1 => .list [nestedList n]

theorem parts_nestedList_succ (level n : Nat) :
    (nestedList (n + 1)).parts level =
      (level, nestedList (n + 1)) :: (nestedList n).parts (level + 1) := by
  rw [nestedList, parts, partsOfItems, partsOfItems, List.append_nil]

theorem mem_parts_nestedList {n : Nat} {part : Nat × Datum}
    (h : part ∈ (nestedList n).parts level) :
    part.2.isLong = false ∧ part.2.innerLevels = 0 ∧ part.1 ≤ level + n := by
  induction n generalizing level with
  | zero =>
    obtain rfl := List.mem_singleton.mp h
    exact ⟨rfl, rfl, Nat.le_refl _⟩
  | succ n ih =>
    rw [parts_nestedList_succ] at h
    rcases List.mem_cons.mp h with rfl | h
    · exact ⟨rfl, rfl, Nat.le_add_right _ _⟩
    · obtain ⟨hlong, hinner, hle⟩ := ih h
      exact ⟨hlong, hinner, by omega⟩

theorem innermost_mem_parts_nestedList (level n : Nat) :
    (level + n, nestedList 0) ∈ (nestedList n).parts level := by
  induction n generalizing level with
  | zero => exact List.mem_singleton_self _
  | succ n ih =>
    have hlevel : level + (n + 1) = level + 1 + n := by omega
    rw [parts_nestedList_succ, hlevel]
    exact List.mem_cons_of_mem _ (ih (level + 1))

/-- Each list around a list takes a frame. -/
theorem nestedList_tooDeep_iff {left n : Nat} :
    firstObstacle? (.frames left) ((nestedList n).parts 1) = some .tooDeep ↔ left ≤ n := by
  rw [firstObstacle?_eq_tooDeep_iff fun part member => (mem_parts_nestedList member).1]
  constructor
  · rintro ⟨part, member, hdeep⟩
    obtain ⟨-, hinner, hle⟩ := mem_parts_nestedList member
    simp only [Room.holds, hinner, Nat.add_zero, decide_eq_false_iff_not] at hdeep
    omega
  · intro hle
    have hlevel : ¬ 1 + n ≤ left := by omega
    exact ⟨_, innermost_mem_parts_nestedList 1 n, decide_eq_false hlevel⟩

end Formula.Datum
