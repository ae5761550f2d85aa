import Formula.Proofs.Text.Place
import Mathlib.Algebra.GroupWithZero.Nat
import Mathlib.Data.Prod.Lex

namespace Formula.Text

/-- The lines of a text without their line feeds. A text without line feeds is one line. -/
def linesOf (text : List Char) : List (List Char) :=
  text.splitOn '\n'

/-- The number of characters above a line, with the line feeds. Lines are counted from one. -/
def lengthAbove (lines : List (List Char)) (line : Nat) : Nat :=
  ((lines.take (line - 1)).map fun row => row.length + 1).sum

/-- Whether a line and a column there, both counted from one, lead to a position. The column may be
the one behind the last character of its line. -/
structure Locates (lines : List (List Char)) (position line column : Nat) : Prop where
  line_pos : 1 ≤ line
  line_le : line ≤ lines.length
  column_pos : 1 ≤ column
  column_le : ∃ row, lines[line - 1]? = some row ∧ column ≤ row.length + 1
  position_eq : lengthAbove lines line + (column - 1) = position

/-- The position of the last line feed in front of a position, and -1 if there is none. -/
def lastFeed (text : List Char) : Nat → Int
  | 0 => -1
  | position + 1 => if text[position]? = some '\n' then position else lastFeed text position

/-- The place at a position of a text: the line by the number of line feeds in front of it, the
column by where the last of them stands. -/
def placeAt (text : List Char) (position : Nat) : Place where
  position := position
  line := (text.take position).count '\n' + 1
  column := (position - (lastFeed text position + 1) + 1).toNat

/-- The place behind the characters in front of a position. -/
def reached (text : List Char) (position : Nat) : Place :=
  Place.start.advance (text.take position)

variable {lines : List (List Char)} {row text : List Char} {c : Char}
  {p q position line column line' column' : Nat}

theorem linesOf_feed : linesOf ('\n' :: text) = [] :: linesOf text := by
  rw [linesOf, List.splitOn_cons_eq_if_modifyHead, if_pos BEq.rfl, linesOf]

theorem linesOf_cons (hc : c ≠ '\n') (h : linesOf text = row :: lines) :
    linesOf (c :: text) = (c :: row) :: lines := by
  unfold linesOf at h ⊢
  rw [List.splitOn_cons_eq_if_modifyHead, if_neg (by simpa using hc), h, List.modifyHead_cons]

theorem exists_linesOf (text : List Char) : ∃ row lines, linesOf text = row :: lines :=
  List.exists_cons_of_ne_nil (List.splitOn_ne_nil '\n' text)

@[simp] theorem lengthAbove_one : lengthAbove lines 1 = 0 := by
  simp [lengthAbove]

theorem lengthAbove_succ (h : 1 ≤ line) :
    lengthAbove (row :: lines) (line + 1) = row.length + 1 + lengthAbove lines line := by
  obtain ⟨line, rfl⟩ := Nat.exists_eq_add_of_le' h
  simp [lengthAbove]

namespace Place

/-- The column behind a text is counted from the last line feed in it, if there is one. -/
theorem column_advance (place : Place) (text : List Char) :
    (place.advance text).column =
      if '\n' ∈ text then (start.advance text).column else place.column + text.length := by
  induction text using List.reverseRecOn with
  | nil => simp
  | append_singleton rest c ih =>
    rw [advance_append, advance_append]
    by_cases hc : c = '\n'
    · simp [hc, advance, step]
    · have hfeed : '\n' ∈ rest ++ [c] ↔ '\n' ∈ rest := by simp [Ne.symm hc]
      simp only [advance, List.foldl_cons, List.foldl_nil, step, hc, if_false, hfeed] at ih ⊢
      rw [ih]
      split
      · rfl
      · rw [List.length_append, List.length_singleton]
        omega

end Place

theorem reached_zero : reached text 0 = Place.start := by
  rw [reached, List.take_zero, Place.advance_nil]

/-- A line feed in front of a text moves a place one line down. -/
theorem reached_feed :
    (reached ('\n' :: text) (p + 1)).line = (reached text p).line + 1 ∧
      (reached ('\n' :: text) (p + 1)).column = (reached text p).column := by
  have hstep : reached ('\n' :: text) (p + 1) = Place.advance ⟨1, 2, 1⟩ (text.take p) := rfl
  rw [hstep, reached, Place.line_advance, Place.line_advance, Place.column_advance,
    Place.column_advance .start]
  refine ⟨?_, ?_⟩
  · change 2 + _ = 1 + _ + 1
    omega
  · split <;> rfl

/-- Another character in front of a text moves the places of its first line one column on. -/
theorem reached_cons (hc : c ≠ '\n') :
    (reached (c :: text) (p + 1)).line = (reached text p).line ∧
      (reached (c :: text) (p + 1)).column =
        if (reached text p).line = 1 then (reached text p).column + 1
        else (reached text p).column := by
  have hstep : reached (c :: text) (p + 1) = Place.advance ⟨1, 1, 2⟩ (text.take p) := by
    rw [reached, List.take_succ_cons, Place.advance, List.foldl_cons, Place.step, if_neg hc]
    rfl
  have hline : (reached text p).line = 1 ↔ ¬ '\n' ∈ text.take p := by
    rw [reached, Place.line_advance, ← List.count_pos_iff]
    change 1 + _ = 1 ↔ _
    omega
  rw [hstep, Place.line_advance, Place.column_advance]
  refine ⟨by rw [reached, Place.line_advance]; rfl, ?_⟩
  by_cases hfeed : '\n' ∈ text.take p
  · rw [if_pos hfeed, if_neg (by simpa [hline] using hfeed), reached]
  · rw [if_neg hfeed, if_pos (hline.mpr hfeed), reached, Place.column_advance, if_neg hfeed]
    change 2 + _ = 1 + _ + 1
    omega

theorem lastFeed_bounds (text : List Char) (position : Nat) :
    -1 ≤ lastFeed text position ∧ lastFeed text position < position := by
  induction position with
  | zero => exact ⟨le_rfl, by simp [lastFeed]⟩
  | succ position ih =>
    rw [lastFeed]
    split <;> omega

/-- Counting and searching for line feeds gives the place that is reached. -/
theorem placeAt_eq_reached (h : p ≤ text.length) : placeAt text p = reached text p := by
  induction p with
  | zero => rfl
  | succ p ih =>
    have htake : text.take (p + 1) = text.take p ++ [text[p]] := by simp
    have hreached : reached text (p + 1) = (reached text p).step text[p] := by
      rw [reached, htake, Place.advance_append]
      rfl
    rw [hreached, ← ih (by omega), placeAt, htake, List.count_append, lastFeed,
      List.getElem?_eq_getElem h, Place.step]
    have hbounds := lastFeed_bounds text p
    by_cases hc : text[p] = '\n'
    · rw [if_pos hc, if_pos (congrArg some hc), hc, List.count_singleton_self]
      simp [placeAt]
    · rw [if_neg hc, if_neg (by simpa using hc), List.count_singleton, if_neg (by simpa using hc)]
      simp only [placeAt, Place.mk.injEq, true_and]
      omega

namespace Locates

theorem start (row : List Char) (lines : List (List Char)) : Locates (row :: lines) 0 1 1 where
  line_pos := le_rfl
  line_le := by simp
  column_pos := le_rfl
  column_le := ⟨row, rfl, by omega⟩
  position_eq := by simp

theorem feed (h : Locates lines p line column) :
    Locates ([] :: lines) (p + 1) (line + 1) column where
  line_pos := by omega
  line_le := by
    have := h.line_le
    rw [List.length_cons]
    omega
  column_pos := h.column_pos
  column_le := by
    obtain ⟨row, hrow, hle⟩ := h.column_le
    refine ⟨row, ?_, hle⟩
    obtain ⟨line, rfl⟩ := Nat.exists_eq_add_of_le' h.line_pos
    exact hrow
  position_eq := by
    have := h.position_eq
    rw [lengthAbove_succ h.line_pos, List.length_nil]
    omega

theorem cons_first (h : Locates (row :: lines) p 1 column) :
    Locates ((c :: row) :: lines) (p + 1) 1 (column + 1) where
  line_pos := le_rfl
  line_le := by simp
  column_pos := by omega
  column_le := by
    obtain ⟨other, hrow, hle⟩ := h.column_le
    cases hrow
    exact ⟨c :: row, rfl, by rw [List.length_cons]; omega⟩
  position_eq := by
    have hposition := h.position_eq
    have hcolumn := h.column_pos
    rw [lengthAbove_one] at hposition ⊢
    omega

theorem cons_later (h : Locates (row :: lines) p line column) (hline : line ≠ 1) :
    Locates ((c :: row) :: lines) (p + 1) line column := by
  obtain ⟨line, rfl⟩ : ∃ above, line = above + 2 := by
    have hpos := h.line_pos
    exact ⟨line - 2, by omega⟩
  refine ⟨h.line_pos, h.line_le, h.column_pos, h.column_le, ?_⟩
  have hposition := h.position_eq
  rw [lengthAbove_succ (by omega)] at hposition ⊢
  rw [List.length_cons]
  omega

end Locates

/-- The line and the column of a position lead to it. -/
theorem locates_reached (h : p ≤ text.length) :
    Locates (linesOf text) p (reached text p).line (reached text p).column := by
  induction text generalizing p with
  | nil =>
    obtain rfl : p = 0 := by simpa using h
    exact .start [] []
  | cons c text ih =>
    cases p with
    | zero =>
      obtain ⟨row, lines, hlines⟩ := exists_linesOf (c :: text)
      rw [hlines, reached_zero]
      exact .start row lines
    | succ p =>
      have hrest := ih (Nat.le_of_succ_le_succ h)
      by_cases hc : c = '\n'
      · subst hc
        rw [linesOf_feed, reached_feed.1, reached_feed.2]
        exact hrest.feed
      · obtain ⟨row, lines, hlines⟩ := exists_linesOf text
        rw [hlines] at hrest
        rw [linesOf_cons hc hlines, (reached_cons hc).1, (reached_cons hc).2]
        split
        next hline =>
          rw [hline] at hrest ⊢
          exact hrest.cons_first
        next hline => exact hrest.cons_later hline

theorem locates_placeAt (h : p ≤ text.length) :
    Locates (linesOf text) p (placeAt text p).line (placeAt text p).column := by
  rw [placeAt_eq_reached h]
  exact locates_reached h

/-- Lines end in front of those below. -/
theorem lengthAbove_lt (hrow : lines[line - 1]? = some row) (hline : 1 ≤ line) (h : line < line') :
    lengthAbove lines line + row.length < lengthAbove lines line' := by
  have hstep : lengthAbove lines (line + 1) = lengthAbove lines line + (row.length + 1) := by
    obtain ⟨above, rfl⟩ := Nat.exists_eq_add_of_le' hline
    simp only [Nat.add_sub_cancel] at hrow
    simp only [lengthAbove, Nat.add_sub_cancel]
    rw [List.take_add_one, hrow]
    simp
  have hprefix : lengthAbove lines (line + 1) ≤ lengthAbove lines line' := by
    unfold lengthAbove
    have : lines.take (line + 1 - 1) <+: lines.take (line' - 1) :=
      List.take_prefix_take_left (by omega)
    obtain ⟨more, hmore⟩ := this
    rw [← hmore, List.map_append, List.sum_append]
    omega
  omega

namespace Locates

theorem line_le_line (h : Locates lines position line column)
    (h' : Locates lines position line' column') : line' ≤ line := by
  by_contra hlt
  obtain ⟨row, hrow, hcolumn⟩ := h.column_le
  have hbelow := lengthAbove_lt hrow h.line_pos (Nat.lt_of_not_le hlt)
  have hposition := h.position_eq
  have hposition' := h'.position_eq
  have hpos := h.column_pos
  omega

/-- No other line and column lead to the same position. -/
theorem unique (h : Locates lines position line column)
    (h' : Locates lines position line' column') : line = line' ∧ column = column' := by
  obtain rfl : line = line' := le_antisymm (h'.line_le_line h) (h.line_le_line h')
  have hposition := h.position_eq
  have hposition' := h'.position_eq
  have hpos := h.column_pos
  have hpos' := h'.column_pos
  exact ⟨rfl, by omega⟩

end Locates

namespace Place

/-- The line and the column of a place, of which the line counts more. -/
def coordinates (place : Place) : ℕ ×ₗ ℕ :=
  toLex (place.line, place.column)

variable (place : Place)

theorem coordinates_lt_step (c : Char) : place.coordinates < (place.step c).coordinates := by
  rw [coordinates, coordinates, Prod.Lex.toLex_lt_toLex, step]
  split
  · exact .inl (Nat.lt_succ_self place.line)
  · exact .inr ⟨rfl, Nat.lt_succ_self place.column⟩

/-- Whether a place is in front of another one, both by position and by line and column. -/
structure Before (place next : Place) : Prop where
  position : place.position < next.position
  coordinates : place.coordinates < next.coordinates

variable {place}

theorem Before.trans {next last : Place} (h : place.Before next) (hlast : next.Before last) :
    place.Before last :=
  ⟨h.position.trans hlast.position, h.coordinates.trans hlast.coordinates⟩

theorem before_advance (h : text ≠ []) : place.Before (place.advance text) := by
  induction text generalizing place with
  | nil => exact absurd rfl h
  | cons c rest ih =>
    have hposition : (place.step c).position = place.position + 1 := position_advance place [c]
    have hstep : place.Before (place.step c) := ⟨by omega, place.coordinates_lt_step c⟩
    cases rest with
    | nil => exact hstep
    | cons d rest => exact hstep.trans (ih (by simp))

end Place

/-- The place behind a part of a text does not depend on what follows. -/
theorem placeAt_append (before behind : List Char) :
    placeAt (before ++ behind) before.length = Place.start.advance before := by
  rw [placeAt_eq_reached (by simp), reached, List.take_left]

theorem before_placeAt (hq : q ≤ text.length) (h : p < q) :
    (placeAt text p).Before (placeAt text q) := by
  have hsplit : text.take q = text.take p ++ (text.take q).drop p := by
    conv_lhs => rw [← List.take_append_drop p (text.take q), List.take_take, min_eq_left h.le]
  have hmore : (text.take q).drop p ≠ [] := by
    rw [← List.length_pos_iff, List.length_drop, List.length_take]
    omega
  rw [placeAt_eq_reached (h.le.trans hq), placeAt_eq_reached hq, reached, reached, hsplit,
    Place.advance_append]
  exact Place.before_advance hmore

/-- Places of one text are told apart and ordered by their lines and columns. -/
theorem coordinates_placeAt_lt_iff (hp : p ≤ text.length) (hq : q ≤ text.length) :
    (placeAt text p).coordinates < (placeAt text q).coordinates ↔ p < q := by
  constructor
  · intro h
    by_contra hle
    rcases Nat.eq_or_lt_of_le (Nat.le_of_not_lt hle) with rfl | hlt
    · exact lt_irrefl _ h
    · exact lt_asymm h (before_placeAt hp hlt).coordinates
  · exact fun h => (before_placeAt hq h).coordinates

end Formula.Text
