import Formula.Token

namespace Formula

/-- A position between the tokens of a formula. -/
structure Cursor where
  /-- The token that was taken last. -/
  previous : Option Token
  ahead : List Token
  /-- What stands behind the last token. It is looked at but never taken. -/
  last : Token

namespace Cursor

/-- The number of tokens ahead. -/
def left (cursor : Cursor) : Nat :=
  cursor.ahead.length

def current (cursor : Cursor) : Token :=
  cursor.ahead.headD cursor.last

/-- The token behind the current one. -/
def following (cursor : Cursor) : Token :=
  cursor.ahead.tail.headD cursor.last

/-- Takes a token if there is one ahead. -/
def take? (cursor : Cursor) : Option (Token × Cursor) :=
  match cursor.ahead with
  | [] => none
  | token :: rest => some (token, ⟨some token, rest, cursor.last⟩)

/-- Takes the current token if it is of the given kind. -/
def takeKind? (kind : TokenKind) (cursor : Cursor) : Option Cursor :=
  match cursor.take? with
  | some (token, rest) => if token.kind = kind then some rest else none
  | none => none

theorem left_take? {cursor rest : Cursor} {token : Token}
    (h : cursor.take? = some (token, rest)) : rest.left + 1 = cursor.left := by
  unfold take? at h
  split at h
  next => simp at h
  next ht =>
    simp only [Option.some.injEq, Prod.mk.injEq] at h
    obtain ⟨-, rfl⟩ := h
    simp [left, ht]

theorem left_takeKind? {cursor rest : Cursor} {kind : TokenKind}
    (h : cursor.takeKind? kind = some rest) : rest.left + 1 = cursor.left := by
  unfold takeKind? at h
  split at h
  next ht =>
    split at h
    next => exact Option.some.inj h ▸ left_take? ht
    next => simp at h
  next => simp at h

end Cursor

end Formula
