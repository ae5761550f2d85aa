import Formula.Proofs.Expr.Letters
import Formula.Proofs.Expr.Shape
import Formula.Proofs.Number.Reading
import Mathlib

namespace Formula

/-- Whether a character stands between the words of a compact form. -/
def isSeparator (c : Char) : Bool :=
  ['(', ')', ',', ';', ' '].contains c

theorem eq_of_isSeparator {c : Char} (h : isSeparator c = true) :
    c = '(' ∨ c = ')' ∨ c = ',' ∨ c = ';' ∨ c = ' ' := by
  simpa [isSeparator] using h

theorem isSeparator_of_numeral {w : List Char} (h : IsNumeral w) :
    ∀ c ∈ w, isSeparator c = false := by
  intro c member
  by_contra hseparator
  obtain ⟨front, back, hw⟩ := List.append_of_mem member
  have hc := eq_of_isSeparator (Bool.eq_true_of_not_eq_false hseparator)
  have hdigit : Text.isDigit c = false ∧ c ≠ '.' := by
    rcases hc with rfl | rfl | rfl | rfl | rfl <;> decide
  rcases cases_of_numeral h hw hdigit.1 hdigit.2 with ⟨hmark, -⟩ | ⟨hsign, -⟩
  · rcases hc with rfl | rfl | rfl | rfl | rfl <;> simp at hmark
  · rcases hc with rfl | rfl | rfl | rfl | rfl <;> simp at hsign

theorem isSeparator_of_word {w : List Char} (h : TokenRule.word.Matches w) :
    ∀ c ∈ w, isSeparator c = false := by
  simp only [TokenRule.word, Pattern.matches_seq, Pattern.matches_oneOf,
    Pattern.matches_many_oneOf] at h
  obtain ⟨_, others, rfl, ⟨first, rfl, hfirst⟩, hothers⟩ := h
  intro c member
  by_contra hseparator
  have hc := eq_of_isSeparator (Bool.eq_true_of_not_eq_false hseparator)
  rcases List.mem_append.mp member with member | member
  · obtain rfl : c = first := List.mem_singleton.mp member
    rcases hc with rfl | rfl | rfl | rfl | rfl <;> exact absurd hfirst (by decide)
  · have hother := hothers c member
    rcases hc with rfl | rfl | rfl | rfl | rfl <;> exact absurd hother (by decide)

theorem Operator.ofSymbol_symbol {operator : Operator} {count : Nat} (h : operator.Takes count) :
    .ofSymbol operator.symbol = operator := by
  cases operator with
  | other => exact h.elim
  | _ => decide

/-- The word that the compact form of a node begins with. -/
inductive Lead where
  | number (x : Float)
  | word (name : String)
  | symbol (operator : Operator)

namespace Lead

def text : Lead → String
  | .number x => (Value.float x).text
  | .word name => name
  | .symbol operator => operator.symbol

def IsLegible : Lead → Prop
  | .number x => Binary.isFinite x = true ∧ Binary.isNegative x = false
  | .word name => TokenRule.word.Matches name.toList
  | .symbol operator => ∃ count, operator.Takes count

/-- What kind of token the first character of a word begins. -/
def kind : Lead → TokenKind
  | .number _ => .number
  | .word _ => .identifier
  | .symbol .add => .plus
  | .symbol .negate => .minus
  | .symbol .reciprocal => .divide
  | .symbol .remainder => .modulo
  | .symbol _ => .power

variable {lead lead' : Lead}

theorem isSeparator_text (h : lead.IsLegible) : ∀ c ∈ lead.text.toList, isSeparator c = false := by
  cases lead with
  | number x => exact isSeparator_of_numeral (readNumeral_text h.1 h.2).1
  | word name => exact isSeparator_of_word h
  | symbol operator =>
    obtain ⟨count, htakes⟩ := h
    cases operator with
    | other => exact htakes.elim
    | _ => simp [text, Operator.symbol, isSeparator]

/-- A word is not empty, and its first character tells its kind. -/
theorem leading_text (h : lead.IsLegible) :
    ∃ c rest, lead.text.toList = c :: rest ∧ TokenRule.leading c = lead.kind := by
  cases lead with
  | number x =>
    exact TokenRule.exists_leading TokenRule.numeral_mem_standard
      (matches_numeral_iff.mpr (readNumeral_text h.1 h.2).1)
  | word name =>
    have hrule : TokenRule.keep .identifier TokenRule.word ∈ TokenRule.standard := by
      simp [TokenRule.standard]
    exact TokenRule.exists_leading hrule h
  | symbol operator =>
    obtain ⟨count, htakes⟩ := h
    cases operator with
    | other => exact htakes.elim
    | _ => exact ⟨_, [], rfl, by decide⟩

/-- Words that are written the same are the same. -/
theorem eq_of_text_eq (h : lead.IsLegible) (h' : lead'.IsLegible) (heq : lead.text = lead'.text) :
    lead = lead' := by
  have hkind : lead.kind = lead'.kind := by
    obtain ⟨c, rest, htext, hc⟩ := leading_text h
    obtain ⟨c', rest', htext', hc'⟩ := leading_text h'
    rw [heq, htext'] at htext
    obtain ⟨rfl, -⟩ := List.cons.inj htext
    exact hc.symm.trans hc'
  cases lead with
  | number x =>
    cases lead' with
    | number y =>
      have hx := (readNumeral_text h.1 h.2).2
      have hy := (readNumeral_text h'.1 h'.2).2
      rw [show (Value.float x).text = (Value.float y).text from heq, hy] at hx
      rw [Option.some.inj hx]
    | word => cases hkind
    | symbol operator => cases operator <;> cases hkind
  | word name =>
    cases lead' with
    | number => cases hkind
    | word name' => rw [show name = name' from heq]
    | symbol operator => cases operator <;> cases hkind
  | symbol operator =>
    cases lead' with
    | number => cases operator <;> cases hkind
    | word => cases operator <;> cases hkind
    | symbol operator' =>
      obtain ⟨count, htakes⟩ := h
      obtain ⟨count', htakes'⟩ := h'
      have hsymbol : operator.symbol = operator'.symbol := heq
      rw [← Operator.ofSymbol_symbol htakes, hsymbol, Operator.ofSymbol_symbol htakes']

end Lead

/-- A word ends at the first separator behind it. -/
theorem append_inj_of_isSeparator {u u' s s' : List Char} (hu : ∀ c ∈ u, isSeparator c = false)
    (hu' : ∀ c ∈ u', isSeparator c = false) (hs : ∀ c, s.head? = some c → isSeparator c = true)
    (hs' : ∀ c, s'.head? = some c → isSeparator c = true) (h : u ++ s = u' ++ s') :
    u = u' ∧ s = s' := by
  have htake : ∀ {u s : List Char}, (∀ c ∈ u, isSeparator c = false) →
      (∀ c, s.head? = some c → isSeparator c = true) →
      (u ++ s).takeWhile (!isSeparator ·) = u := by
    intro u s hu hs
    have hnone : s.takeWhile (!isSeparator ·) = [] := by
      cases s with
      | nil => rfl
      | cons c s => simp [hs c rfl]
    rw [List.takeWhile_append_of_pos (by simpa using hu), hnone, List.append_nil]
  obtain rfl : u = u' := by rw [← htake hu hs, h, htake hu' hs']
  exact ⟨rfl, List.append_cancel_left h⟩

namespace Expr

/-- The word of a node that may stand in an operand. -/
def lead? : Expr → Option Lead
  | .number (.float x) => some (.number x)
  | .variable name | .call name _ => some (.word name)
  | .operation operator _ => some (.symbol operator)
  | _ => none

/-- The letters behind the word of a node. -/
def enclosed : Expr → List Char
  | .operation _ operands | .call _ operands => '(' :: row ',' [')'] operands
  | _ => []

def IsLegible (e : Expr) : Prop :=
  ∃ lead, e.lead? = some lead ∧ lead.IsLegible

/-- Whether a text may stand behind an operand. -/
def EndsOperand (rest : List Char) : Prop :=
  ∀ c, rest.head? = some c → isSeparator c = true ∧ c ≠ '('

/-- Whether no other tree of a kind is written at the beginning of a text that begins with this one,
if what follows ends both. -/
def Decodes (kind : Expr → Prop) (ends : List Char → Prop) (e : Expr) : Prop :=
  ∀ e' r r', kind e' → ends r → ends r' → e.letters ++ r = e'.letters ++ r' → e = e' ∧ r = r'

/-- Whether a text ends what stands before it and does not go on with a mark that ends it too. -/
structure Delimits (ends : List Char → Prop) (mark : Char) (rest : List Char) : Prop where
  marked : ∀ more, ends (mark :: more)
  ended : ends rest
  apart : rest.head? ≠ some mark

section Rows

variable {kind : Expr → Prop} {ends : List Char → Prop} {mark : Char} {ending r r' : List Char}
  {es es' : List Expr}

theorem Delimits.behind (hr : Delimits ends mark (ending ++ r)) (es : List Expr) :
    ends (behind mark ending es ++ r) := by
  cases es with
  | nil => exact hr.ended
  | cons next rest => exact hr.marked _

theorem behind_inj (hr : Delimits ends mark (ending ++ r)) (hr' : Delimits ends mark (ending ++ r'))
    (hes : ∀ e ∈ es, Decodes kind ends e) (hes' : ∀ e ∈ es', kind e)
    (h : behind mark ending es ++ r = behind mark ending es' ++ r') : es = es' ∧ r = r' := by
  induction es generalizing es' with
  | nil =>
    cases es' with
    | nil => exact ⟨rfl, List.append_cancel_left h⟩
    | cons next rest => exact absurd (congrArg List.head? h) hr.apart
  | cons next rest ih =>
    cases es' with
    | nil => exact absurd (congrArg List.head? h).symm hr'.apart
    | cons next' rest' =>
      obtain ⟨hnext, hrest⟩ := List.forall_mem_cons.mp hes
      obtain ⟨hnext', hrest'⟩ := List.forall_mem_cons.mp hes'
      simp only [behind, List.cons_append, List.append_assoc, List.cons.injEq, true_and] at h
      obtain ⟨rfl, hbehind⟩ := hnext next' _ _ hnext' (hr.behind rest) (hr'.behind rest') h
      obtain ⟨rfl, rfl⟩ := ih hrest hrest' hbehind
      exact ⟨rfl, rfl⟩

/-- Rows that are both empty or both not are written at the beginning of a text in one way. -/
theorem row_inj (hr : Delimits ends mark (ending ++ r)) (hr' : Delimits ends mark (ending ++ r'))
    (hes : ∀ e ∈ es, Decodes kind ends e) (hes' : ∀ e ∈ es', kind e) (hempty : es = [] ↔ es' = [])
    (h : row mark ending es ++ r = row mark ending es' ++ r') : es = es' ∧ r = r' := by
  cases es with
  | nil =>
    obtain rfl : es' = [] := hempty.mp rfl
    exact ⟨rfl, List.append_cancel_left h⟩
  | cons first rest =>
    cases es' with
    | nil => exact absurd (hempty.mpr rfl) (List.cons_ne_nil _ _)
    | cons first' rest' =>
      obtain ⟨hfirst, hrest⟩ := List.forall_mem_cons.mp hes
      obtain ⟨hfirst', hrest'⟩ := List.forall_mem_cons.mp hes'
      rw [row, row, List.append_assoc, List.append_assoc] at h
      obtain ⟨rfl, hbehind⟩ := hfirst first' _ _ hfirst' (hr.behind rest) (hr'.behind rest') h
      obtain ⟨rfl, rfl⟩ := behind_inj hr hr' hrest hrest' hbehind
      exact ⟨rfl, rfl⟩

end Rows

variable {e e' : Expr} {lead lead' : Lead} {es es' : List Expr} {r r' : List Char}

theorem letters_eq (h : e.lead? = some lead) : e.letters = lead.text.toList ++ e.enclosed := by
  cases e with
  | number value =>
    cases value with
    | float x =>
      cases h
      exact (List.append_nil _).symm
    | _ => cases h
  | «variable» name =>
    cases h
    exact (List.append_nil _).symm
  | operation operator operands =>
    cases h
    rfl
  | call name arguments =>
    cases h
    rfl
  | _ => cases h

theorem isLegible_root (h : e.Everywhere IsLegible) : e.IsLegible := by
  apply h
  cases e <;> simp [nodes]

theorem isSeparator_of_enclosed (hr : EndsOperand r) :
    ∀ c, (e.enclosed ++ r).head? = some c → isSeparator c = true := by
  intro c hc
  unfold enclosed at hc
  split at hc
  next =>
    cases hc
    decide
  next =>
    cases hc
    decide
  next => exact (hr c hc).1

theorem lead_of_letters (hlead : e.lead? = some lead) (hlegible : lead.IsLegible)
    (hlead' : e'.lead? = some lead') (hlegible' : lead'.IsLegible) (hr : EndsOperand r)
    (hr' : EndsOperand r') (h : e.letters ++ r = e'.letters ++ r') :
    lead = lead' ∧ e.enclosed ++ r = e'.enclosed ++ r' := by
  rw [letters_eq hlead, letters_eq hlead', List.append_assoc, List.append_assoc] at h
  obtain ⟨htext, hrest⟩ := append_inj_of_isSeparator (Lead.isSeparator_text hlegible)
    (Lead.isSeparator_text hlegible') (isSeparator_of_enclosed hr) (isSeparator_of_enclosed hr') h
  exact ⟨Lead.eq_of_text_eq hlegible hlegible' (String.toList_inj.mp htext), hrest⟩

theorem eq_nil_iff_head (h : ∀ e ∈ es, e.Everywhere IsLegible) :
    es = [] ↔ (row ',' [')'] es ++ r).head? = some ')' := by
  cases es with
  | nil => exact iff_of_true rfl rfl
  | cons first rest =>
    refine iff_of_false (List.cons_ne_nil _ _) fun hhead => ?_
    obtain ⟨lead, hlead, hlegible⟩ := isLegible_root (h first List.mem_cons_self)
    obtain ⟨c, others, htext, -⟩ := Lead.leading_text hlegible
    have hword := Lead.isSeparator_text hlegible c (by rw [htext]; exact List.mem_cons_self)
    rw [row, letters_eq hlead, htext] at hhead
    obtain rfl : c = ')' := Option.some.inj hhead
    exact absurd hword (by decide)

theorem delimits_arguments (r : List Char) : Delimits EndsOperand ',' ([')'] ++ r) where
  marked more c hc := by
    cases hc
    decide
  ended c hc := by
    cases hc
    decide
  apart h := by cases h

theorem arguments_inj (hes : ∀ e ∈ es, Decodes (Everywhere IsLegible) EndsOperand e)
    (hlegible : ∀ e ∈ es, e.Everywhere IsLegible) (hlegible' : ∀ e ∈ es', e.Everywhere IsLegible)
    (h : row ',' [')'] es ++ r = row ',' [')'] es' ++ r') : es = es' ∧ r = r' := by
  have hempty : es = [] ↔ es' = [] := by
    rw [eq_nil_iff_head hlegible, h, ← eq_nil_iff_head hlegible']
  exact row_inj (delimits_arguments r) (delimits_arguments r') hes hlegible' hempty h

theorem lead?_eq_number {x : Float} (h : e.lead? = some (.number x)) : e = .number (.float x) := by
  unfold lead? at h
  split at h <;> cases h
  rfl

theorem lead?_eq_symbol {operator : Operator} (h : e.lead? = some (.symbol operator)) :
    ∃ operands, e = .operation operator operands := by
  unfold lead? at h
  split at h <;> cases h
  exact ⟨_, rfl⟩

theorem lead?_eq_word {name : String} (h : e.lead? = some (.word name)) :
    e = .variable name ∨ ∃ arguments, e = .call name arguments := by
  unfold lead? at h
  split at h <;> cases h
  · exact .inl rfl
  · exact .inr ⟨_, rfl⟩

/-- It is enough to compare trees that begin with the same word, behind that word. -/
theorem decodes_of_enclosed (h : e.Everywhere IsLegible)
    (henclosed : ∀ e' r r', e'.Everywhere IsLegible → e'.lead? = e.lead? → EndsOperand r →
      EndsOperand r' → e.enclosed ++ r = e'.enclosed ++ r' → e = e' ∧ r = r') :
    Decodes (Everywhere IsLegible) EndsOperand e := by
  intro e' r r' h' hr hr' heq
  obtain ⟨lead, hlead, hlegible⟩ := isLegible_root h
  obtain ⟨lead', hlead', hlegible'⟩ := isLegible_root h'
  obtain ⟨rfl, hrest⟩ := lead_of_letters hlead hlegible hlead' hlegible' hr hr' heq
  exact henclosed e' r r' h' (hlead'.trans hlead.symm) hr hr' hrest

/-- A legible operand is the only one that is written as it is. -/
theorem decodes (h : e.Everywhere IsLegible) :
    Decodes (Everywhere IsLegible) EndsOperand e := by
  -- by induction on the first tree; the second one has the same word and so the same form
  induction e using inductionOn with
  | number value =>
    obtain ⟨lead, hlead, -⟩ := isLegible_root h
    refine decodes_of_enclosed h fun e' r r' _ hsame _ _ heq => ?_
    cases value with
    | float x =>
      obtain rfl := lead?_eq_number hsame
      exact ⟨rfl, heq⟩
    | _ => cases hlead
  | reference name =>
    refine decodes_of_enclosed h fun e' r r' _ hsame hr _ heq => ?_
    rcases lead?_eq_word hsame with rfl | ⟨arguments, rfl⟩
    · exact ⟨rfl, heq⟩
    · have hopening := (hr _ (congrArg List.head? heq)).2
      exact absurd rfl hopening
  | operation operator operands ih =>
    refine decodes_of_enclosed h fun e' r r' h' hsame _ _ heq => ?_
    obtain ⟨operands', rfl⟩ := lead?_eq_symbol hsame
    have hlegible := (everywhere_operation.mp h).2
    obtain ⟨rfl, rfl⟩ := arguments_inj (fun e member => ih e member (hlegible e member)) hlegible
      (everywhere_operation.mp h').2 (List.cons.inj heq).2
    exact ⟨rfl, rfl⟩
  | call name arguments ih =>
    refine decodes_of_enclosed h fun e' r r' h' hsame _ hr' heq => ?_
    rcases lead?_eq_word hsame with rfl | ⟨arguments', rfl⟩
    · have hopening := (hr' _ (congrArg List.head? heq).symm).2
      exact absurd rfl hopening
    · have hlegible := (everywhere_call.mp h).2
      obtain ⟨rfl, rfl⟩ := arguments_inj (fun e member => ih e member (hlegible e member)) hlegible
        (everywhere_call.mp h').2 (List.cons.inj heq).2
      exact ⟨rfl, rfl⟩
  | assignment | block | unknown =>
    obtain ⟨lead, hlead, -⟩ := isLegible_root h
    cases hlead

end Expr

end Formula
