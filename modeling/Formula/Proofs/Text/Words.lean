import Formula.Text.Blank

namespace Formula.Text

variable {text gap first second : List Char} {c : Char}

def words (text : List Char) : List (List Char) :=
  (text.splitOnP isBlank).filter (· ≠ [])

def IsGap (gap : List Char) : Prop :=
  ∀ c ∈ gap, isBlank c = true

theorem words_append_cons (first second : List Char) (hc : isBlank c = true) :
    words (first ++ c :: second) = words first ++ words second := by
  rw [words, List.splitOnP_append_cons first second hc, List.filter_append]
  rfl

theorem words_cons (text : List Char) (hc : isBlank c = true) : words (c :: text) = words text :=
  words_append_cons [] text hc

theorem words_solid (hne : text ≠ []) (h : ∀ c ∈ text, isBlank c = false) :
    words text = [text] := by
  rw [words, List.splitOnP_eq_singleton h]
  simp [hne]

/-- Whether a text is empty or begins with a blank. -/
def StartsBlank (text : List Char) : Prop :=
  ∀ c, text.head? = some c → isBlank c = true

def StartsSolid (text : List Char) : Prop :=
  ∀ c, text.head? = some c → isBlank c = false

theorem words_solid_append {word rest : List Char} (hne : word ≠ [])
    (h : ∀ c ∈ word, isBlank c = false) (hrest : StartsBlank rest) :
    words (word ++ rest) = word :: words rest := by
  cases rest with
  | nil =>
    rw [List.append_nil, words_solid hne h]
    rfl
  | cons c rest =>
    have hc : isBlank c = true := hrest c rfl
    rw [words_append_cons word rest hc, words_solid hne h, words_cons rest hc]
    rfl

theorem exists_gap (text : List Char) :
    ∃ gap rest, text = gap ++ rest ∧ IsGap gap ∧ StartsSolid rest := by
  refine ⟨_, _, (List.takeWhile_append_dropWhile (p := isBlank)).symm, ?_, ?_⟩
  · exact List.all_eq_true.mp List.all_takeWhile
  · intro c hc
    have hhead := List.head?_dropWhile_not isBlank text
    simpa [hc] using hhead

theorem exists_solid (text : List Char) :
    ∃ word rest, text = word ++ rest ∧ (∀ c ∈ word, isBlank c = false) ∧ StartsBlank rest := by
  refine ⟨_, _, (List.takeWhile_append_dropWhile (p := fun c => !isBlank c)).symm, ?_, ?_⟩
  · intro c member
    have hall : (text.takeWhile fun c => !isBlank c).all (fun c => !isBlank c) = true :=
      List.all_takeWhile
    simpa using List.all_eq_true.mp hall c member
  · intro c hc
    have hhead := List.head?_dropWhile_not (fun c => !isBlank c) text
    simpa [hc] using hhead

theorem isGap_of_words (h : words text = []) : IsGap text := by
  induction text with
  | nil => simp [IsGap]
  | cons c text ih =>
    cases hc : isBlank c with
    | true =>
      rw [words_cons text hc] at h
      exact List.forall_mem_cons.mpr ⟨hc, ih h⟩
    | false =>
      rw [words, List.splitOnP_cons_eq_if_modifyHead, if_neg (by simp [hc])] at h
      obtain ⟨word, others, hsplit⟩ :=
        List.exists_cons_of_ne_nil (List.splitOnP_ne_nil isBlank text)
      simp [hsplit] at h

/-- A text has a gap before its first word, and behind that word a gap or nothing. -/
theorem exists_of_words {word : List Char} {others : List (List Char)}
    (h : words text = word :: others) :
    ∃ gap rest, text = gap ++ (word ++ rest) ∧ IsGap gap ∧ word ≠ [] ∧
      (∀ c ∈ word, isBlank c = false) ∧ StartsBlank rest ∧ words rest = others := by
  induction text with
  | nil => simp [words] at h
  | cons c text ih =>
    cases hc : isBlank c with
    | true =>
      rw [words_cons text hc] at h
      obtain ⟨gap, rest, rfl, hgap, hrest⟩ := ih h
      exact ⟨c :: gap, rest, rfl, List.forall_mem_cons.mpr ⟨hc, hgap⟩, hrest⟩
    | false =>
      obtain ⟨start, rest, htext, hsolid, hrest⟩ := exists_solid (c :: text)
      have hne : start ≠ [] := by
        rintro rfl
        have hblank := hrest c (by rw [← List.nil_append rest, ← htext]; rfl)
        rw [hc] at hblank
        cases hblank
      rw [htext, words_solid_append hne hsolid hrest, List.cons.injEq] at h
      obtain ⟨rfl, hothers⟩ := h
      exact ⟨[], rest, htext, by simp [IsGap], hne, hsolid, hrest, hothers⟩

end Formula.Text
