import Formula.Parser

namespace Formula

attribute [ext] Cursor

namespace Cursor

theorem take?_eq_some_iff {cursor next : Cursor} {token : Token} :
    cursor.take? = some (token, next) ↔
      cursor.ahead = token :: next.ahead ∧ next.previous = some token ∧
        next.last = cursor.last := by
  unfold take?
  split
  next hnil => simp [hnil]
  next first rest hcons =>
    rw [hcons]
    constructor
    · rintro ⟨⟩
      exact ⟨rfl, rfl, rfl⟩
    · rintro ⟨hahead, hprevious, hlast⟩
      cases hahead
      have hnext : next = ⟨some token, next.ahead, cursor.last⟩ :=
        Cursor.ext hprevious rfl hlast
      rw [← hnext]

theorem takeKind?_eq_some_iff {cursor next : Cursor} {kind : TokenKind} :
    cursor.takeKind? kind = some next ↔
      ∃ token, cursor.take? = some (token, next) ∧ token.kind = kind := by
  unfold takeKind?
  split
  next token rest htake =>
    constructor
    · intro h
      split at h
      next hkind =>
        cases h
        exact ⟨token, htake, hkind⟩
      next => cases h
    · rintro ⟨other, hother, hkind⟩
      cases htake.symm.trans hother
      rw [if_pos hkind]
  next hnone => simp [hnone]

theorem takeKind?_eq_none_iff {cursor : Cursor} {kind : TokenKind} :
    cursor.takeKind? kind = none ↔
      ∀ token next, cursor.take? = some (token, next) → token.kind ≠ kind := by
  rw [Option.eq_none_iff_forall_ne_some]
  constructor
  · intro h token next htake hkind
    exact h next (takeKind?_eq_some_iff.mpr ⟨token, htake, hkind⟩)
  · intro h next hnext
    obtain ⟨token, htake, hkind⟩ := takeKind?_eq_some_iff.mp hnext
    exact h token next htake hkind

theorem current_of_take? {cursor next : Cursor} {token : Token}
    (h : cursor.take? = some (token, next)) : cursor.current = token := by
  rw [current, (take?_eq_some_iff.mp h).1]
  rfl

theorem following_of_take? {cursor next : Cursor} {token : Token}
    (h : cursor.take? = some (token, next)) : cursor.following = next.current := by
  obtain ⟨hahead, -, hlast⟩ := take?_eq_some_iff.mp h
  rw [following, current, hahead, hlast]
  rfl

/-- Whether the token before a cursor is an operator. -/
def behindOperator (cursor : Cursor) : Bool :=
  cursor.previous.any (·.kind.isOperator)

theorem behindOperator_of_take? {cursor next : Cursor} {token : Token}
    (h : cursor.take? = some (token, next)) : next.behindOperator = token.kind.isOperator := by
  rw [behindOperator, (take?_eq_some_iff.mp h).2.1]
  rfl

end Cursor

namespace Parser

/-- The tokens from one cursor up to another one. -/
structure Spans (start : Cursor) (w : List Token) (stop : Cursor) : Prop where
  ahead : start.ahead = w ++ stop.ahead
  previous : stop.previous = w.getLast?.or start.previous
  last : stop.last = start.last

namespace Spans

variable {start middle stop : Cursor} {v w : List Token} {token : Token}

theorem refl (cursor : Cursor) : Spans cursor [] cursor :=
  ⟨rfl, rfl, rfl⟩

theorem eq_of_nil (h : Spans start [] stop) : stop = start :=
  Cursor.ext h.previous h.ahead.symm h.last

theorem append (h : Spans start w middle) (h' : Spans middle v stop) :
    Spans start (w ++ v) stop where
  ahead := by rw [h.ahead, h'.ahead, List.append_assoc]
  previous := by rw [h'.previous, h.previous, List.getLast?_append, Option.or_assoc]
  last := h'.last.trans h.last

theorem exists_middle (h : Spans start (w ++ v) stop) :
    ∃ middle, Spans start w middle ∧ Spans middle v stop := by
  refine ⟨⟨w.getLast?.or start.previous, v ++ stop.ahead, start.last⟩, ⟨?_, rfl, rfl⟩,
    ⟨rfl, ?_, h.last⟩⟩
  · rw [h.ahead, List.append_assoc]
  · rw [h.previous, List.getLast?_append, Option.or_assoc]

theorem single (h : start.take? = some (token, stop)) : Spans start [token] stop := by
  obtain ⟨hahead, hprevious, hlast⟩ := Cursor.take?_eq_some_iff.mp h
  exact ⟨hahead, hprevious, hlast⟩

theorem cons (h : start.take? = some (token, middle)) (h' : Spans middle w stop) :
    Spans start (token :: w) stop :=
  (single h).append h'

theorem exists_next (h : Spans start (token :: w) stop) :
    ∃ middle, start.take? = some (token, middle) ∧ Spans middle w stop := by
  obtain ⟨middle, hfirst, hrest⟩ := exists_middle (w := [token]) h
  exact ⟨middle, Cursor.take?_eq_some_iff.mpr ⟨hfirst.ahead, hfirst.previous, hfirst.last⟩, hrest⟩

/-- A token between two runs; what is behind it stands behind an operator where it is one. -/
theorem exists_around (h : Spans start (w ++ token :: v) stop) :
    ∃ middle next, Spans start w middle ∧ middle.take? = some (token, next) ∧
      Spans next v stop ∧ next.behindOperator = token.kind.isOperator := by
  obtain ⟨middle, hfirst, hrest⟩ := h.exists_middle
  obtain ⟨next, htake, hlast⟩ := hrest.exists_next
  exact ⟨middle, next, hfirst, htake, hlast, Cursor.behindOperator_of_take? htake⟩

theorem take?_of_single (h : Spans start [token] stop) : start.take? = some (token, stop) := by
  obtain ⟨middle, htake, hrest⟩ := h.exists_next
  rw [hrest.eq_of_nil]
  exact htake

theorem current (h : Spans start (token :: w) stop) : start.current = token := by
  obtain ⟨middle, htake, -⟩ := h.exists_next
  exact Cursor.current_of_take? htake

/-- A run of tokens ahead leads somewhere. -/
theorem exists_stop (h : start.ahead = w ++ v) :
    ∃ stop, Spans start w stop ∧ stop.ahead = v :=
  ⟨⟨w.getLast?.or start.previous, v, start.last⟩, ⟨h, rfl, rfl⟩, rfl⟩

end Spans

end Parser

end Formula
