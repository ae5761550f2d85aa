import Formula.Proofs.Text.Lines
import Formula.Proofs.Token.Cut

namespace Formula

open Text (Locates linesOf placeAt)

namespace TokenRule

variable {rules : List TokenRule} {whole : String} {place : Text.Place} {text : List Char}
  {tokens : List Token} {token : Token}

/-- Each token stands in front of those behind it, whatever the rules make of their matches. -/
theorem before_of_tokensFrom (h : tokensFrom rules whole place text = .ok tokens) :
    tokens.Pairwise fun token next => token.place.Before next.place := by
  induction h using tokensInduction with
  | nil place => exact .nil
  | taken place taken rest rule others hne hfirst hothers ih =>
    have hsingle : (rule.token? place taken).toList.Pairwise
        fun token next => token.place.Before next.place := by
      cases rule.token? place taken with
      | none => exact .nil
      | some token => exact List.pairwise_singleton ..
    refine List.pairwise_append.mpr ⟨hsingle, ih, fun token hhead next hother => ?_⟩
    obtain ⟨-, hplace, -⟩ := of_token? (Option.mem_toList.mp hhead)
    obtain ⟨before, -, -, -, hnext⟩ := exists_place hothers hother
    rw [hplace, hnext, ← Text.Place.advance_append]
    exact Text.Place.before_advance (List.append_ne_nil_of_left_ne_nil hne before)

theorem before_advance_of_tokensFrom (h : tokensFrom rules whole place text = .ok tokens)
    (member : token ∈ tokens) : token.place.Before (place.advance text) := by
  obtain ⟨before, behind, rfl, hbehind, hplace⟩ := exists_place h member
  rw [hplace, Text.Place.advance_append]
  exact Text.Place.before_advance hbehind

end TokenRule

open TokenRule

/-- Whether tokens stand at the places of their positions in a text, one behind the other. -/
structure Placed (text : List Char) (tokens : List Token) : Prop where
  position : ∀ token ∈ tokens, token.position ≤ text.length
  place : ∀ token ∈ tokens, token.place = placeAt text token.position
  ordered : tokens.Pairwise fun token next => token.place.Before next.place

/-- What stands behind the text that tokens come from does not move them. -/
theorem placed_of_tokensFrom {rules : List TokenRule} {whole : String} {front : List Char}
    {tokens : List Token} (h : tokensFrom rules whole .start front = .ok tokens)
    (behind : List Char) : Placed (front ++ behind) tokens := by
  have hplaces : ∀ token ∈ tokens, token.position ≤ (front ++ behind).length ∧
      token.place = placeAt (front ++ behind) token.position := by
    intro token member
    obtain ⟨before, rest, rfl, -, hplace⟩ := exists_place h member
    have hposition : token.position = before.length := by
      rw [Token.position, hplace, Text.Place.advance_start]
    rw [hposition, hplace, List.append_assoc, Text.placeAt_append, List.length_append]
    exact ⟨Nat.le_add_right _ _, rfl⟩
  exact {
    position token member := (hplaces token member).1
    place token member := (hplaces token member).2
    ordered := before_of_tokensFrom h }

theorem Placed.atEnd {text : List Char} {tokens : List Token} (h : Placed text tokens)
    (hend : ∀ token ∈ tokens, token.place.Before (Text.Place.start.advance text)) :
    Placed text (tokens ++ [Token.atEnd text]) := by
  have hposition : (Token.atEnd text).position = text.length := by
    rw [Token.position, Token.atEnd, Text.Place.advance_start]
  refine ⟨List.forall_mem_append.mpr ⟨h.position, List.forall_mem_singleton.mpr hposition.le⟩,
    List.forall_mem_append.mpr ⟨h.place, List.forall_mem_singleton.mpr ?_⟩,
    List.pairwise_append.mpr ⟨h.ordered, List.pairwise_singleton .., ?_⟩⟩
  · have hplace := Text.placeAt_append text []
    rw [List.append_nil] at hplace
    rw [hposition, hplace, Token.atEnd]
  · intro token member next hnext
    obtain rfl := List.mem_singleton.mp hnext
    exact hend token member

/-- Line and column say which position of a text they belong to. Of all lines and columns of the
text those of a position are the only ones behind as many characters; they are the same for no two
positions, and greater for the later one. The tokens of a text under any rules, its end and a
complaint about it stand at the places of their positions, each behind the one before. -/
theorem places_locate (text : String) :
    (∀ p ≤ text.length, ∀ line column, Locates (linesOf text.toList) p line column ↔
      line = (placeAt text.toList p).line ∧ column = (placeAt text.toList p).column) ∧
    (∀ p ≤ text.length, ∀ q ≤ text.length,
      ((placeAt text.toList p).coordinates = (placeAt text.toList q).coordinates ↔ p = q) ∧
      ((placeAt text.toList p).coordinates < (placeAt text.toList q).coordinates ↔ p < q)) ∧
    (∀ rules tokens, tokenize rules (some text) = .ok tokens → Placed text.toList tokens) ∧
    ∀ rules error, lex rules (some text) = .error error →
      error.place.position < text.length ∧
      error.place = placeAt text.toList error.place.position ∧
      ∃ tokens, lex rules (some (String.ofList (text.toList.take error.place.position))) =
          .ok tokens ∧
        Placed text.toList tokens ∧ ∀ token ∈ tokens, token.place.Before error.place := by
  rw [← String.length_toList]
  refine ⟨fun p hp line column => ?_, fun p hp q hq => ?_, fun rules tokens h => ?_,
    fun rules error h => ?_⟩
  · have hplace := Text.locates_placeAt hp
    constructor
    · exact fun h => h.unique hplace
    · rintro ⟨rfl, rfl⟩
      exact hplace
  · refine ⟨⟨fun h => ?_, fun h => by rw [h]⟩, Text.coordinates_placeAt_lt_iff hp hq⟩
    have hle := not_lt.mp (mt (Text.coordinates_placeAt_lt_iff hp hq).mpr h.not_lt)
    have hge := not_lt.mp (mt (Text.coordinates_placeAt_lt_iff hq hp).mpr h.not_gt)
    exact le_antisymm hge hle
  · obtain ⟨found, hfound, h⟩ := exists_of_bind_eq_ok h
    cases h
    have hplaced := placed_of_tokensFrom hfound []
    rw [List.append_nil] at hplaced
    exact hplaced.atEnd fun token => before_advance_of_tokensFrom hfound
  · obtain ⟨front, c, rest, tokens, htext, htokens, hplace, -⟩ := exists_front_of_error h
    have hposition : error.place.position = front.length := by
      rw [hplace, Text.Place.advance_start]
    rw [hposition, htext, Text.placeAt_append, List.take_left]
    refine ⟨by simp, hplace, tokens, ?_, placed_of_tokensFrom htokens _, fun token member => ?_⟩
    · rw [lex, String.toList_ofList]
      exact tokensFrom_whole _ htokens
    · rw [hplace]
      exact before_advance_of_tokensFrom htokens member

/-- A text with an empty line whose last line is empty too, and one that cannot be read on below an
empty line. -/
theorem places_locate_emptyLines :
    Locates (linesOf "a\n\n  b;\n".toList) 6 3 4 ∧
    Placed "a\n\n  b;\n".toList
      [⟨.identifier, "a", ⟨0, 1, 1⟩⟩, ⟨.identifier, "b", ⟨5, 3, 3⟩⟩, ⟨.semicolon, ";", ⟨6, 3, 4⟩⟩,
        ⟨.eof, "", ⟨8, 4, 1⟩⟩] ∧
    lex standard (some "x\n\n 3$\n") = .error ⟨.unexpected '$' "x\n\n 3$\n", ⟨5, 3, 3⟩⟩ ∧
      (⟨5, 3, 3⟩ : Text.Place) = placeAt "x\n\n 3$\n".toList 5 := by
  have herror : lex standard (some "x\n\n 3$\n") =
      .error ⟨.unexpected '$' "x\n\n 3$\n", ⟨5, 3, 3⟩⟩ := by decide +kernel
  obtain ⟨hlocates, -, htokens, -⟩ := places_locate "a\n\n  b;\n"
  obtain ⟨-, -, -, hcomplaints⟩ := places_locate "x\n\n 3$\n"
  exact ⟨(hlocates 6 (by decide) 3 4).mpr (by decide), htokens standard _ (by decide +kernel),
    herror, (hcomplaints standard _ herror).2.1⟩

end Formula
