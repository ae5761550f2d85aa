import Formula.Options.Document
import Formula.Proofs.Effect
import Mathlib.Tactic.SplitIfs

namespace Formula

namespace Datum

/-- Whether some data are the keys of a mapping. A key that is given by codes has one among them
that stands for no character. -/
structure AreKeys (keys : List Datum) : Prop where
  isKey : ∀ key ∈ keys, key.isKey = true
  distinct : keys.Pairwise fun key later => key.isSameKey later = false
  codes : ∀ points, .codes points ∈ keys → ∃ code ∈ points, ¬ code.isValidChar

/-- Whether a datum is neither a collection nor a text by its codes. -/
def IsPlain : Datum → Prop
  | .codes _ | .list _ | .mapping _ => False
  | _ => True

variable {keys : List Datum} {entries : List (Datum × Datum)} {entry : Datum × Datum}

theorem areKeys_nil : AreKeys [] :=
  ⟨nofun, .nil, nofun⟩

theorem AreKeys.append_singleton {key : Datum} (h : AreKeys keys) (hkey : key.isKey = true)
    (hnew : ∀ other ∈ keys, other.isSameKey key = false)
    (hcodes : ∀ points, key = .codes points → ∃ code ∈ points, ¬ code.isValidChar) :
    AreKeys (keys ++ [key]) where
  isKey := List.forall_mem_append.mpr ⟨h.isKey, List.forall_mem_singleton.mpr hkey⟩
  distinct := by
    refine List.pairwise_append.mpr ⟨h.distinct, List.pairwise_singleton .., ?_⟩
    intro other member later hlater
    obtain rfl := List.mem_singleton.mp hlater
    exact hnew other member
  codes points member := by
    rcases List.mem_append.mp member with member | member
    · exact h.codes points member
    · exact hcodes points (List.mem_singleton.mp member).symm

theorem AreKeys.codes_of_mem {key : Datum} (h : AreKeys keys) (member : key ∈ keys) :
    ∀ points, key = .codes points → ∃ code ∈ points, ¬ code.isValidChar := by
  rintro points rfl
  exact h.codes points member

theorem isValidChar_of_mem {s : String} {code : Nat} (h : code ∈ s.toList.map Char.toNat) :
    code.isValidChar := by
  obtain ⟨c, -, rfl⟩ := List.mem_map.mp h
  exact c.valid

/-- A text that is a key is told by its codes: if it is given by them they do not all stand for
characters. -/
theorem eq_of_text? {key other : Datum} {name : List Nat}
    (hkey : ∀ points, key = .codes points → ∃ code ∈ points, ¬ code.isValidChar)
    (hother : ∀ points, other = .codes points → ∃ code ∈ points, ¬ code.isValidChar)
    (hname : key.text? = some name) (hsame : other.text? = some name) : key = other := by
  cases key with
  | text s =>
    obtain rfl := Option.some.inj hname
    cases other with
    | text t =>
      have hcodes : t.toList.map Char.toNat = s.toList.map Char.toNat := Option.some.inj hsame
      have hchars := (List.map_inj_right fun _ _ => Char.toNat_inj.mp).mp hcodes
      rw [String.toList_inj.mp hchars]
    | codes points =>
      obtain ⟨code, member, hnone⟩ := hother points rfl
      exact absurd (isValidChar_of_mem (Option.some.inj hsame ▸ member)) hnone
    | _ => cases hsame
  | codes points =>
    obtain rfl := Option.some.inj hname
    cases other with
    | text t =>
      obtain ⟨code, member, hnone⟩ := hkey _ rfl
      exact absurd (isValidChar_of_mem (Option.some.inj hsame ▸ member)) hnone
    | codes others => rw [Option.some.inj hsame]
    | _ => cases hsame
  | _ => cases hname

theorem isSameKey_self {key : Datum} {name : List Nat} (h : key.text? = some name) :
    key.isSameKey key = true := by
  cases key with
  | text s => exact beq_self_eq_true s
  | codes points => exact beq_self_eq_true points
  | _ => cases h

theorem AreKeys.nodup_texts (h : AreKeys keys) : (keys.filterMap (·.text?)).Nodup := by
  refine List.pairwise_filterMap.mpr (h.distinct.imp_of_mem ?_)
  rintro key later hkey hlater hdistinct name hname _ hsame rfl
  obtain rfl := eq_of_text? (h.codes_of_mem hkey) (h.codes_of_mem hlater) hname hsame
  rw [isSameKey_self hname] at hdistinct
  cases hdistinct

/-- A new entry stands behind the others, one with a key that is there changes the value alone. -/
theorem keys_addEntry (entries : List (Datum × Datum)) (entry : Datum × Datum) :
    (addEntry entries entry).map (·.1) =
      if entries.any fun other => other.1.isSameKey entry.1 then entries.map (·.1)
      else entries.map (·.1) ++ [entry.1] := by
  unfold addEntry
  split
  · rw [List.map_map]
    refine List.map_congr_left fun other _ => ?_
    rw [Function.comp_apply]
    split <;> rfl
  · rw [List.map_append, List.map_singleton]

theorem AreKeys.addEntry (h : AreKeys (entries.map (·.1))) (hkey : entry.1.isKey = true)
    (hcodes : ∀ points, entry.1 = .codes points → ∃ code ∈ points, ¬ code.isValidChar) :
    AreKeys ((Datum.addEntry entries entry).map (·.1)) := by
  rw [keys_addEntry]
  split
  next => exact h
  next hnew =>
    refine h.append_singleton hkey (List.forall_mem_map.mpr fun other member => ?_) hcodes
    simpa using fun hsame => hnew (List.any_eq_true.mpr ⟨other, member, hsame⟩)

/-- Entries make a mapping if each of their keys can be one. -/
theorem areKeys_ofEntries {found : List (Datum × Datum)}
    (hkeys : ∀ entry ∈ entries, entry.1.isKey = true)
    (hcodes : ∀ entry ∈ entries, ∀ points, entry.1 = .codes points →
      ∃ code ∈ points, ¬ code.isValidChar)
    (h : ofEntries entries = .mapping found) : AreKeys (found.map (·.1)) := by
  have hfold : ∀ before : List (Datum × Datum), AreKeys (before.map (·.1)) →
      AreKeys ((entries.foldl Datum.addEntry before).map (·.1)) := by
    clear h
    induction entries with
    | nil => exact fun before hbefore => hbefore
    | cons entry rest ih =>
      intro before hbefore
      obtain ⟨hkey, hkeys⟩ := List.forall_mem_cons.mp hkeys
      obtain ⟨hcode, hcodes⟩ := List.forall_mem_cons.mp hcodes
      exact ih hkeys hcodes _ (hbefore.addEntry hkey hcode)
  cases h
  exact hfold [] areKeys_nil

theorem ofCodes_cases (codes : List Nat) :
    (∃ s, ofCodes codes = .text s) ∨
      ofCodes codes = .codes codes ∧ ∃ code ∈ codes, ¬ code.isValidChar := by
  unfold ofCodes
  split
  next => exact .inl ⟨_, rfl⟩
  next h => exact .inr ⟨rfl, by simpa using h⟩

end Datum

namespace Document

open Datum

theorem isPlain_of_readDate? {text : List Char} {datum : Datum}
    (h : readDate? text = some (.ok datum)) : datum.IsPlain := by
  unfold readDate? at h
  obtain ⟨⟨year, rest⟩, -, h⟩ := Option.bind_eq_some_iff.mp h
  obtain ⟨⟨month, rest'⟩, -, h⟩ := Option.bind_eq_some_iff.mp h
  obtain ⟨⟨day, rest''⟩, -, h⟩ := Option.bind_eq_some_iff.mp h
  by_cases hend : rest''.isEmpty = true
  · replace h := (if_pos hend).symm.trans h
    obtain ⟨_, -, h⟩ := Option.bind_eq_some_iff.mp h
    obtain ⟨date, -, rfl⟩ := exists_of_map_eq_ok (eq_ok_of_mapError (Option.some.inj h))
    trivial
  · replace h := (if_neg hend).symm.trans h
    -- The hour, the minute, the second, its fraction and the offset.
    obtain ⟨_, -, h⟩ := Option.bind_eq_some_iff.mp h
    obtain ⟨_, -, h⟩ := Option.bind_eq_some_iff.mp h
    obtain ⟨_, -, h⟩ := Option.bind_eq_some_iff.mp h
    obtain ⟨_, -, h⟩ := Option.bind_eq_some_iff.mp h
    obtain ⟨_, -, h⟩ := Option.bind_eq_some_iff.mp h
    obtain ⟨moment, -, rfl⟩ := exists_of_map_eq_ok (eq_ok_of_mapError (Option.some.inj h))
    trivial

/-- A scalar without quotes is no collection, and its text has characters only. -/
theorem isPlain_of_resolve {text : List Char} {datum : Datum} (h : resolve text = .ok datum) :
    datum.IsPlain := by
  unfold resolve at h
  dsimp only at h
  split_ifs at h
  · cases h
    trivial
  · cases h
    trivial
  · cases h
    trivial
  · split at h
    next result =>
      obtain ⟨n, -, rfl⟩ := exists_of_map_eq_ok h
      trivial
    next =>
      cases h
      trivial
    next result hdate =>
      rw [h] at hdate
      exact isPlain_of_readDate? hdate
    next =>
      cases h
      trivial

namespace Node

variable {node : Node} {datum : Datum} {found : List (Datum × Datum)}

/-- What a node stands for. Only a text in quotes can have codes that stand for no character. -/
theorem datum_cases (h : node.datum = .ok datum) :
    datum.IsPlain ∨ (∃ points, datum = .codes points ∧ ∃ code ∈ points, ¬ code.isValidChar) ∨
      (∃ items, datum = .list items) ∨
        ∃ entries found, dataOfEntries entries = .ok found ∧ datum = .ofEntries found := by
  cases node with
  | plain text =>
    rw [Node.datum] at h
    exact .inl (isPlain_of_resolve h)
  | quoted codes =>
    rw [Node.datum] at h
    cases h
    rcases ofCodes_cases codes with ⟨s, htext⟩ | ⟨hcodes, hnone⟩
    · rw [htext]
      exact .inl trivial
    · exact .inr (.inl ⟨codes, hcodes, hnone⟩)
  | list items =>
    rw [Node.datum] at h
    obtain ⟨found, -, rfl⟩ := exists_of_map_eq_ok h
    exact .inr (.inr (.inl ⟨found, rfl⟩))
  | mapping entries =>
    rw [Node.datum] at h
    obtain ⟨found, hdata, rfl⟩ := exists_of_map_eq_ok h
    exact .inr (.inr (.inr ⟨entries, found, hdata, rfl⟩))

theorem codes_of_datum {points : List Nat} (h : node.datum = .ok (.codes points)) :
    ∃ code ∈ points, ¬ code.isValidChar := by
  rcases datum_cases h with h | ⟨_, heq, hnone⟩ | ⟨_, heq⟩ | ⟨_, _, -, heq⟩
  · exact h.elim
  · cases heq
    exact hnone
  · cases heq
  · cases heq

theorem keys_of_dataOfEntries {entries : List (Node × Node)}
    (h : dataOfEntries entries = .ok found) : ∀ entry ∈ found, entry.1.isKey = true ∧
      ∀ points, entry.1 = .codes points → ∃ code ∈ points, ¬ code.isValidChar := by
  induction entries generalizing found with
  | nil =>
    cases h
    exact nofun
  | cons entry rest ih =>
    obtain ⟨key, value⟩ := entry
    rw [dataOfEntries] at h
    obtain ⟨keyDatum, hkey, h⟩ := exists_of_bind_eq_ok h
    cases hisKey : keyDatum.isKey with
    | false =>
      rw [hisKey] at h
      cases h
    | true =>
      simp only [hisKey, Bool.not_true, Bool.false_eq_true, if_false] at h
      obtain ⟨valueDatum, -, h⟩ := exists_of_bind_eq_ok h
      obtain ⟨tail, htail, h⟩ := exists_of_bind_eq_ok h
      cases h
      refine List.forall_mem_cons.mpr ⟨⟨hisKey, fun points heq => ?_⟩, ih htail⟩
      exact codes_of_datum (hkey.trans (congrArg Except.ok heq))

theorem areKeys_of_datum (h : node.datum = .ok (.mapping found)) : AreKeys (found.map (·.1)) := by
  rcases datum_cases h with h | ⟨_, heq, -⟩ | ⟨_, heq⟩ | ⟨entries, written, hdata, heq⟩
  · exact h.elim
  · cases heq
  · cases heq
  · have hkeys := keys_of_dataOfEntries hdata
    exact areKeys_ofEntries (fun entry member => (hkeys entry member).1)
      (fun entry member => (hkeys entry member).2) heq.symm

end Node

/-- The mapping that a file holds has keys that can be keys, each once. -/
theorem areKeys_of_read {content : String} {found : List (Datum × Datum)}
    (h : read content = .ok (.mapping found)) : AreKeys (found.map (·.1)) := by
  unfold read at h
  extract_lets spot room first fresh at h
  split at h
  next => cases h
  next =>
    obtain ⟨⟨node, stop⟩, -, h⟩ := exists_of_bind_eq_ok h
    dsimp only at h
    split at h
    next => cases h
    next =>
      split at h
      next => exact Node.areKeys_of_datum h
      next => cases h

end Document

end Formula
