import Formula.Expr.Text
import Formula.Proofs.Effect
import Formula.Proofs.Expr.Nodes

namespace Formula.Expr

mutual

/-- The letters of the compact form of a tree. -/
def letters : Expr → List Char
  | .number value => value.text.toList
  | .variable name => name.toList
  | .operation operator operands => operator.symbol.toList ++ '(' :: row ',' [')'] operands
  | .assignment target value =>
    (target.targetName.toOption.getD "").toList ++ ' ' :: '=' :: ' ' :: letters value
  | .call name arguments => name.toList ++ '(' :: row ',' [')'] arguments
  | .block statements => row ';' [] statements
  | .unknown => []

/-- The letters of trees with a mark and a blank between them, and an ending. -/
def row (mark : Char) (ending : List Char) : List Expr → List Char
  | [] => ending
  | first :: rest => letters first ++ behind mark ending rest

/-- The letters of what stands behind the first tree of a row. -/
def behind (mark : Char) (ending : List Char) : List Expr → List Char
  | [] => ending
  | next :: rest => mark :: ' ' :: (letters next ++ behind mark ending rest)

end

variable {mark : Char} {ending : List Char}

theorem row_eq_intercalate (es : List Expr) :
    row mark ending es = [mark, ' '].intercalate (es.map letters) ++ ending := by
  cases es with
  | nil => rw [row, List.map_nil, List.intercalate_nil, List.nil_append]
  | cons first rest =>
    rw [row]
    induction rest generalizing first with
    | nil => rw [behind, List.map_cons, List.map_nil, List.intercalate_singleton]
    | cons next rest ih =>
      rw [behind, ih, List.map_cons, List.map_cons, List.map_cons, List.intercalate_cons_cons]
      simp

theorem toList_of_textAll {es : List Expr} {room : Room} {parts : List String}
    (h : textAll room es = .ok parts)
    (heach : ∀ e ∈ es, ∀ {room written}, text room e = .ok written → written.toList = e.letters) :
    parts.map String.toList = es.map letters := by
  induction es generalizing parts with
  | nil =>
    rw [textAll] at h
    cases h
    rfl
  | cons first rest ih =>
    rw [textAll] at h
    obtain ⟨written, hwritten, h⟩ := exists_of_bind_eq_ok h
    obtain ⟨others, hothers, h⟩ := exists_of_bind_eq_ok h
    cases h
    obtain ⟨hfirst, hrest⟩ := List.forall_mem_cons.mp heach
    rw [List.map_cons, List.map_cons, hfirst hwritten, ih hothers hrest]

theorem toList_of_text {e : Expr} {room : Room} {written : String}
    (h : e.text room = .ok written) : written.toList = e.letters := by
  induction e using inductionOn generalizing room written with
  | number value =>
    rw [text] at h
    cases h
    rw [letters]
  | reference name =>
    rw [text] at h
    cases h
    rw [letters]
  | operation operator operands ih =>
    rw [text] at h
    obtain ⟨inner, -, h⟩ := exists_of_bind_eq_ok h
    obtain ⟨parts, hparts, h⟩ := exists_of_bind_eq_ok h
    cases h
    rw [letters, row_eq_intercalate, ← toList_of_textAll hparts ih]
    simp
  | assignment target value _ ih =>
    rw [text] at h
    obtain ⟨inner, -, h⟩ := exists_of_bind_eq_ok h
    obtain ⟨name, hname, h⟩ := exists_of_bind_eq_ok h
    obtain ⟨result, hresult, h⟩ := exists_of_bind_eq_ok h
    cases h
    rw [letters, ← ih hresult, hname]
    simp [Except.toOption]
  | call name arguments ih =>
    rw [text] at h
    obtain ⟨inner, -, h⟩ := exists_of_bind_eq_ok h
    obtain ⟨parts, hparts, h⟩ := exists_of_bind_eq_ok h
    cases h
    rw [letters, row_eq_intercalate, ← toList_of_textAll hparts ih]
    simp
  | block statements ih =>
    rw [text] at h
    obtain ⟨inner, -, h⟩ := exists_of_bind_eq_ok h
    obtain ⟨parts, hparts, h⟩ := exists_of_bind_eq_ok h
    cases h
    rw [letters, row_eq_intercalate, ← toList_of_textAll hparts ih]
    simp
  | unknown =>
    rw [text] at h
    cases h

end Formula.Expr
