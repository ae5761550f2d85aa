import Formula.Options
import Formula.Proofs.Options.Literal
import Formula.Proofs.Options.Mapping
import Mathlib.Tactic.ByContra

namespace Formula

namespace Options

open Datum

/-- Whether a datum stands for a truth value: it is one, or it is a word for one between blanks, in
letters of either case. -/
inductive StandsFor : Datum → Bool → Prop where
  | bool (b : Bool) : StandsFor (.bool b) b
  | yes {s : String} : lowered (Text.strip s) ∈ trueWords → StandsFor (.text s) true
  | no {s : String} : lowered (Text.strip s) ∈ falseWords → StandsFor (.text s) false

/-- Whether the entries of a mapping say options. -/
inductive Says : List (Datum × Datum) → Options → Prop where
  | nothing : Says [] standard
  | option {value : Datum} {b : Bool} : StandsFor value b → Says [(.text optionName, value)] ⟨b⟩

/-- Whether all keys of a mapping are texts. -/
def TextKeys (entries : List (Datum × Datum)) : Prop :=
  ∀ entry ∈ entries, entry.1.text?.isSome

/-- Whether the entries of a mapping are the option with a value that is no truth value. -/
structure IsBad (entries : List (Datum × Datum)) (value : Datum) : Prop where
  entries : entries = [(.text optionName, value)]
  value : ∀ b, ¬ StandsFor value b

/-- Whether a complaint fits the entries of a mapping. -/
inductive Refuses (room : Room) (entries : List (Datum × Datum)) : OptionError → Prop where
  | value {value : Datum} {shown : String} : IsBad entries value →
    value.literal room 1 = .ok shown → Refuses room entries (.notBoolean optionName shown)
  /-- A part of the value that cannot be written spoils the complaint. -/
  | unwritable {value : Datum} {fault : LiteralFault} : IsBad entries value →
    firstObstacle? room (value.parts 1) = some fault → Refuses room entries (.unwritable fault)
  /-- The names of all keys that are no options, in order and each once. -/
  | unknown {names : List (List Nat)} : TextKeys entries → names ≠ [] →
    (∀ name, name ∈ names ↔
      ∃ entry ∈ entries, entry.1 ≠ .text optionName ∧ entry.1.text? = some name) →
    names.Pairwise (List.Lex (· < ·)) → Refuses room entries (.unknown names)
  /-- A key that is no text spoils the complaint. -/
  | spoilt {error : OptionError} : ¬ TextKeys entries → error.kind = .type →
    Refuses room entries error

variable {room : Room} {option : String} {value key : Datum} {keys : List Datum} {b : Bool}
  {entries : List (Datum × Datum)}

theorem not_mem_trueWords {word : String} (h : word ∈ falseWords) : word ∉ trueWords := by
  have hall : ∀ word ∈ falseWords, word ∉ trueWords := by decide
  exact hall word h

theorem readBool_eq_ok_iff : readBool room option value = .ok b ↔ StandsFor value b := by
  constructor
  · intro h
    unfold readBool at h
    split at h
    next c =>
      cases h
      exact .bool b
    next s =>
      dsimp only at h
      split_ifs at h with htrue hfalse
      · cases h
        exact .yes (List.contains_iff_mem.mp htrue)
      · cases h
        exact .no (List.contains_iff_mem.mp hfalse)
    next => cases h
  · rintro (b | h | h)
    · rfl
    · rw [readBool, if_pos (List.contains_iff_mem.mpr h)]
    · have hnot := not_mem_trueWords h
      rw [readBool, if_neg (by simpa using hnot), if_pos (List.contains_iff_mem.mpr h)]

theorem readBool_cases (room : Room) (option : String) (value : Datum) :
    (∃ b, readBool room option value = .ok b) ∨
      readBool room option value = .error (.badValue room option value) := by
  unfold readBool
  split
  next b => exact .inl ⟨b, rfl⟩
  next s =>
    dsimp only
    split_ifs
    · exact .inl ⟨true, rfl⟩
    · exact .inl ⟨false, rfl⟩
    · exact .inr rfl
  next => exact .inr rfl

theorem isComparable_of_texts {first second : Datum} (hfirst : first.text?.isSome)
    (hsecond : second.text?.isSome) : first.isComparable second = true := by
  unfold isComparable
  split
  · rfl
  · rfl
  · rw [hfirst, hsecond, Bool.and_self, Bool.true_or]

theorem firstUnordered_of_texts (h : ∀ key ∈ keys, key.text?.isSome) :
    firstUnordered keys = none := by
  induction keys with
  | nil => rfl
  | cons first rest ih =>
    obtain ⟨hfirst, hrest⟩ := List.forall_mem_cons.mp h
    cases rest with
    | nil => rfl
    | cons second rest =>
      rw [firstUnordered,
        if_pos (isComparable_of_texts hfirst (hrest second List.mem_cons_self))]
      exact ih hrest

theorem unknownKeys_of_texts (h : ∀ key ∈ keys, key.text?.isSome) :
    unknownKeys keys = .unknown (sortedTexts (keys.filterMap (·.text?))) := by
  unfold unknownKeys
  rw [firstUnordered_of_texts h]
  cases keys with
  | nil => simp [sortedTexts]
  | cons first rest => exact if_pos (List.all_eq_true.mpr h)

/-- Keys that are not all texts have no order, or else their least one is no text. -/
theorem kind_unknownKeys (hmember : key ∈ keys) (h : key.text? = none) :
    (unknownKeys keys).kind = .type := by
  unfold unknownKeys
  split
  next => rfl
  next =>
    cases keys with
    | nil => cases hmember
    | cons first rest =>
      have hall : ¬ (first :: rest).all (·.text?.isSome) = true := by
        intro hall
        have htext := List.all_eq_true.mp hall key hmember
        rw [h] at htext
        cases htext
      simp only [if_neg hall]
      rfl

/-- Sorting keeps all texts. -/
theorem mem_sortedTexts {name : List Nat} {texts : List (List Nat)} :
    name ∈ sortedTexts texts ↔ name ∈ texts :=
  List.mem_mergeSort

theorem not_lex_iff {first second : List Nat} :
    (!second.lex first fun a b => a < b) = true ↔ first.le second := by
  rw [List.lex_eq_decide_lex, Bool.not_eq_true', decide_eq_false_iff_not]
  simp only [decide_eq_true_eq]
  exact Iff.rfl

/-- Sorted texts ascend if none comes twice. -/
theorem pairwise_sortedTexts {texts : List (List Nat)} (h : texts.Nodup) :
    (sortedTexts texts).Pairwise (List.Lex (· < ·)) := by
  have hsorted : (sortedTexts texts).Pairwise
      fun first second => (!second.lex first fun a b => a < b) = true := by
    refine List.pairwise_mergeSort (fun first second third hab hbc => ?_)
      (fun first second => ?_) texts
    · exact not_lex_iff.mpr (List.le_trans (not_lex_iff.mp hab) (not_lex_iff.mp hbc))
    · rw [Bool.or_eq_true, not_lex_iff, not_lex_iff]
      exact List.le_total first second
  have hnodup : (sortedTexts texts).Nodup := (List.mergeSort_perm texts _).nodup_iff.mpr h
  refine (hsorted.and hnodup).imp fun {first second} ⟨hle, hne⟩ => ?_
  by_contra hnot
  exact hne (List.le_antisymm (not_lex_iff.mp hle) hnot)

/-- A key with the name of the option is that text. -/
theorem isOption_iff
    (hcodes : ∀ points, key = .codes points → ∃ code ∈ points, ¬ code.isValidChar) :
    isOption key = true ↔ key = .text optionName := by
  constructor
  · intro h
    exact eq_of_text? hcodes nofun (eq_of_beq h) rfl
  · rintro rfl
    exact beq_self_eq_true _

/-- No mapping has the option twice. -/
theorem eq_singleton_of_isOption (hkeys : AreKeys (entries.map (·.1))) (hne : entries ≠ [])
    (h : ∀ entry ∈ entries, isOption entry.1 = true) :
    ∃ value, entries = [(.text optionName, value)] := by
  have hname : ∀ entry ∈ entries, entry.1 = .text optionName := by
    intro entry member
    have hcodes := hkeys.codes_of_mem (List.mem_map_of_mem member)
    exact (isOption_iff hcodes).mp (h entry member)
  match entries, hne with
  | [(key, value)], _ =>
    obtain rfl : key = .text optionName := hname _ List.mem_cons_self
    exact ⟨value, rfl⟩
  | first :: second :: rest, _ =>
    have hdistinct : first.1.isSameKey second.1 = false :=
      List.rel_of_pairwise_cons hkeys.distinct List.mem_cons_self
    rw [hname first List.mem_cons_self,
      hname second (List.mem_cons_of_mem _ List.mem_cons_self)] at hdistinct
    cases hdistinct

/-- The keys of a mapping that are no options. -/
def otherKeys (entries : List (Datum × Datum)) : List Datum :=
  (entries.map (·.1)).filter (!isOption ·)

theorem mem_otherKeys :
    key ∈ otherKeys entries ↔ isOption key = false ∧ ∃ entry ∈ entries, entry.1 = key := by
  rw [otherKeys, List.mem_filter, List.mem_map, and_comm, Bool.not_eq_true']

theorem ofDatum_of_ne_nil (h : entries ≠ []) :
    ofDatum room (.mapping entries) = if (otherKeys entries).isEmpty then
      let value := ((entries.find? fun entry => isOption entry.1).map (·.2)).getD (.bool false)
      (readBool room optionName value).map Options.mk
    else .error (unknownKeys (otherKeys entries)) := by
  have hpresent : isPresent (.mapping entries) = true := by
    rw [isPresent, List.isEmpty_eq_false_iff.mpr h, Bool.not_false]
  rw [ofDatum, hpresent, otherKeys]
  simp only [keysOf, bind, Except.bind]
  cases (List.filter (!isOption ·) (entries.map (·.1))).isEmpty with
  | false => rfl
  | true =>
    cases readBool room optionName
      (((entries.find? fun entry => isOption entry.1).map (·.2)).getD (.bool false)) <;> rfl

theorem isOption_optionName : isOption (.text optionName) = true :=
  beq_self_eq_true _

theorem otherKeys_singleton (value : Datum) : otherKeys [(.text optionName, value)] = [] := by
  simp [otherKeys, isOption_optionName]

/-- A mapping that is not empty is refused for its keys that are no options, or else it is read for
the value of its only key. -/
theorem ofDatum_cases (room : Room) (hkeys : AreKeys (entries.map (·.1))) :
    (entries = [] ∧ ofDatum room (.mapping entries) = .ok standard) ∨
      (∃ value, entries = [(.text optionName, value)] ∧
        ofDatum room (.mapping entries) = (readBool room optionName value).map Options.mk) ∨
      otherKeys entries ≠ [] ∧
        ofDatum room (.mapping entries) = .error (unknownKeys (otherKeys entries)) := by
  by_cases hne : entries = []
  · subst hne
    exact .inl ⟨rfl, rfl⟩
  by_cases hothers : otherKeys entries = []
  · have hall : ∀ entry ∈ entries, isOption entry.1 = true := by
      intro entry member
      by_contra hother
      have hmember := mem_otherKeys.mpr ⟨Bool.eq_false_iff.mpr hother, entry, member, rfl⟩
      rw [hothers] at hmember
      cases hmember
    obtain ⟨value, rfl⟩ := eq_singleton_of_isOption hkeys hne hall
    refine .inr (.inl ⟨value, rfl, ?_⟩)
    rw [ofDatum_of_ne_nil hne, hothers, List.find?_cons, isOption_optionName]
    rfl
  · refine .inr (.inr ⟨hothers, ?_⟩)
    rw [ofDatum_of_ne_nil hne, List.isEmpty_eq_false_iff.mpr hothers]
    rfl

theorem mem_names_otherKeys (hkeys : AreKeys (entries.map (·.1))) {name : List Nat} :
    name ∈ (otherKeys entries).filterMap (·.text?) ↔
      ∃ entry ∈ entries, entry.1 ≠ .text optionName ∧ entry.1.text? = some name := by
  rw [List.mem_filterMap]
  constructor
  · rintro ⟨key, member, htext⟩
    obtain ⟨hother, entry, hentry, rfl⟩ := mem_otherKeys.mp member
    refine ⟨entry, hentry, fun hname => ?_, htext⟩
    rw [hname, isOption_optionName] at hother
    cases hother
  · rintro ⟨entry, member, hname, htext⟩
    have hother : isOption entry.1 = false := by
      have hcodes := hkeys.codes_of_mem (List.mem_map_of_mem member)
      exact Bool.eq_false_iff.mpr fun h => hname ((isOption_iff hcodes).mp h)
    exact ⟨entry.1, mem_otherKeys.mpr ⟨hother, entry, member, rfl⟩, htext⟩

theorem nodup_names_otherKeys (hkeys : AreKeys (entries.map (·.1))) :
    ((otherKeys entries).filterMap (·.text?)).Nodup :=
  hkeys.nodup_texts.sublist (List.filter_sublist.filterMap _)

theorem refuses_unknownKeys (hkeys : AreKeys (entries.map (·.1))) (h : otherKeys entries ≠ []) :
    Refuses room entries (unknownKeys (otherKeys entries)) := by
  by_cases htexts : TextKeys entries
  · have hothers : ∀ key ∈ otherKeys entries, key.text?.isSome := by
      intro key member
      obtain ⟨-, entry, hentry, rfl⟩ := mem_otherKeys.mp member
      exact htexts entry hentry
    rw [unknownKeys_of_texts hothers]
    have hsorted := pairwise_sortedTexts (nodup_names_otherKeys hkeys)
    refine .unknown htexts ?_ (fun name => ?_) hsorted
    · obtain ⟨key, member⟩ := List.exists_mem_of_ne_nil _ h
      obtain ⟨name, htext⟩ := Option.isSome_iff_exists.mp (hothers key member)
      exact List.ne_nil_of_mem
        (mem_sortedTexts.mpr (List.mem_filterMap.mpr ⟨key, member, htext⟩))
    · rw [mem_sortedTexts, mem_names_otherKeys hkeys]
  · obtain ⟨entry, member, hnone⟩ : ∃ entry ∈ entries, entry.1.text? = none := by
      simpa [TextKeys] using htexts
    have hother : isOption entry.1 = false := by
      rw [isOption, hnone]
      rfl
    have hkey := mem_otherKeys.mpr ⟨hother, entry, member, rfl⟩
    exact .spoilt htexts (kind_unknownKeys hkey hnone)

/-- Whether a value has a part that lies too deep to be written, and no part before that has another
obstacle. -/
def LiesTooDeep (room : Room) (value : Datum) : Prop :=
  firstObstacle? room (value.parts 1) = some .tooDeep

/-- Whether a result is what a mapping is read as: options if its entries say them, or else a
complaint about them. -/
structure ReadsMapping (room : Room) (entries : List (Datum × Datum))
    (result : Except OptionError Options) : Prop where
  ok_iff : ∀ options, result = .ok options ↔ Says entries options
  refuses : ∀ error, result = .error error → Refuses room entries error
  /-- A fault other than a bad value comes from keys that are no texts or from a value that is bad
  and lies too deep to be written, and from nothing else. -/
  misread_iff : (∃ error, result = .error error ∧ error.kind ≠ .value) ↔
    ¬ TextKeys entries ∨ ∃ value, IsBad entries value ∧ LiesTooDeep room value

theorem textKeys_singleton (value : Datum) : TextKeys [(.text optionName, value)] :=
  List.forall_mem_singleton.mpr rfl

theorem Says.textKeys {options : Options} (h : Says entries options) : TextKeys entries := by
  cases h with
  | nothing => exact nofun
  | option => exact textKeys_singleton _

theorem IsBad.textKeys (h : IsBad entries value) : TextKeys entries :=
  h.entries ▸ textKeys_singleton value

theorem IsBad.eq {other : Datum} (h : IsBad entries value) (hother : IsBad entries other) :
    other = value := by
  have hsame := hother.entries.symm.trans h.entries
  cases hsame
  rfl

theorem IsBad.not_says {options : Options} (h : IsBad entries value) : ¬ Says entries options := by
  intro hsays
  rw [h.entries] at hsays
  rcases hsays with _ | hb
  exact h.value _ hb

theorem literalFault_kind_ne_value_iff {fault : LiteralFault} :
    fault.kind ≠ .value ↔ fault = .tooDeep := by
  cases fault <;> decide

/-- A bad value is the only one that its mapping can be refused for. -/
theorem IsBad.misread_iff (h : IsBad entries value) :
    (¬ TextKeys entries ∨ ∃ value, IsBad entries value ∧ LiesTooDeep room value) ↔
      LiesTooDeep room value := by
  constructor
  · rintro (htexts | ⟨other, hother, hdeep⟩)
    · exact absurd h.textKeys htexts
    · rwa [h.eq hother] at hdeep
  · exact fun hdeep => .inr ⟨value, h, hdeep⟩

theorem Refuses.kind_ne_value_iff {error : OptionError} (h : Refuses room entries error) :
    error.kind ≠ .value ↔
      ¬ TextKeys entries ∨ ∃ value, IsBad entries value ∧ LiesTooDeep room value := by
  cases h with
  | @value value shown hbad hshown =>
    rw [hbad.misread_iff]
    refine iff_of_false (not_not_intro rfl) fun hdeep => ?_
    rw [literal_eq_error_iff.mpr hdeep] at hshown
    cases hshown
  | @unwritable value fault hbad hfault =>
    rw [hbad.misread_iff, LiesTooDeep, hfault, Option.some_inj]
    exact literalFault_kind_ne_value_iff
  | @unknown names htexts hnames hmember _ =>
    refine iff_of_false (not_not_intro rfl) ?_
    rintro (hnot | ⟨value, hbad, -⟩)
    · exact hnot htexts
    · obtain ⟨name, member⟩ := List.exists_mem_of_ne_nil _ hnames
      obtain ⟨entry, hentry, hother, -⟩ := (hmember name).mp member
      rw [hbad.entries] at hentry
      obtain rfl := List.mem_singleton.mp hentry
      exact hother rfl
  | spoilt htexts hkind =>
    refine iff_of_true ?_ (.inl htexts)
    rw [hkind]
    nofun

theorem readsMapping_of_ok_iff {result : Except OptionError Options}
    (hok : ∀ options, result = .ok options ↔ Says entries options)
    (hrefuses : ∀ error, result = .error error → Refuses room entries error) :
    ReadsMapping room entries result where
  ok_iff := hok
  refuses := hrefuses
  misread_iff := by
    constructor
    · rintro ⟨error, herror, hkind⟩
      exact (hrefuses error herror).kind_ne_value_iff.mp hkind
    · intro hmisread
      cases result with
      | ok options =>
        have hsays := (hok options).mp rfl
        rcases hmisread with htexts | ⟨value, hbad, -⟩
        · exact absurd hsays.textKeys htexts
        · exact absurd hsays hbad.not_says
      | error error => exact ⟨error, rfl, (hrefuses error rfl).kind_ne_value_iff.mpr hmisread⟩

theorem Says.otherKeys_eq_nil {options : Options} (h : Says entries options) :
    otherKeys entries = [] := by
  cases h with
  | nothing => rfl
  | option => exact otherKeys_singleton _

theorem IsBad.refuses (h : IsBad entries value) :
    Refuses room entries (.badValue room optionName value) := by
  unfold OptionError.badValue
  split
  next shown hshown => exact .value h hshown
  next fault hfault => exact .unwritable h (literal_eq_error_iff.mp hfault)

theorem readsMapping_readBool (room : Room) (value : Datum) :
    ReadsMapping room [(.text optionName, value)]
      ((readBool room optionName value).map Options.mk) := by
  rcases readBool_cases room optionName value with ⟨b, hread⟩ | hread
  · have hvalue : StandsFor value b := readBool_eq_ok_iff.mp hread
    rw [hread]
    refine readsMapping_of_ok_iff (fun options => ?_) nofun
    constructor
    · rintro ⟨⟩
      exact .option hvalue
    · rintro (_ | hother)
      have hsame := hread.symm.trans (readBool_eq_ok_iff.mpr hother)
      rw [Except.ok.inj hsame]
      rfl
  · have hbad : IsBad [(.text optionName, value)] value := by
      refine ⟨rfl, fun b hb => ?_⟩
      have hsame := hread.symm.trans (readBool_eq_ok_iff.mpr hb)
      cases hsame
    rw [hread]
    refine readsMapping_of_ok_iff (fun options => iff_of_false nofun hbad.not_says) ?_
    rintro error ⟨⟩
    exact hbad.refuses

theorem readsMapping_ofDatum (room : Room) (hkeys : AreKeys (entries.map (·.1))) :
    ReadsMapping room entries (ofDatum room (.mapping entries)) := by
  rcases ofDatum_cases room hkeys with ⟨rfl, hread⟩ | ⟨value, rfl, hread⟩ | ⟨hothers, hread⟩
  · refine readsMapping_of_ok_iff (fun options => ?_) (fun error herror => ?_)
    · rw [hread]
      constructor
      · rintro ⟨⟩
        exact .nothing
      · rintro ⟨⟩
        rfl
    · rw [hread] at herror
      cases herror
  · rw [hread]
    exact readsMapping_readBool room value
  · refine readsMapping_of_ok_iff (fun options => ?_) (fun error herror => ?_)
    · rw [hread]
      exact iff_of_false nofun fun hsays => hothers hsays.otherKeys_eq_nil
    · rw [hread] at herror
      cases herror
      exact refuses_unknownKeys hkeys hothers

/-- The options of the mapping in a file, as the reader of files finds it. -/
theorem readsMapping_ofDocument (room : Room) {path content : String}
    (hread : Document.read content = .ok (.mapping entries)) :
    ReadsMapping room entries (ofDocument room path (Document.read content)) := by
  rw [hread]
  exact readsMapping_ofDatum room (Document.areKeys_of_read hread)

/-- A mapping is read the same by itself, as what a caller gives, and as what a loader finds in a
file. It gives options exactly if it says them. If not it is refused as a bad value exactly if all
of its keys are texts and the complaint has room to show the value. -/
theorem mappings_read (room : Room) (entries : List (Datum × Datum))
    (hkeys : AreKeys (entries.map (·.1))) :
    ReadsMapping room entries (ofDatum room (.mapping entries)) ∧
      ofSource room (.datum (.mapping entries)) = ofDatum room (.mapping entries) ∧
      ∀ path, ofDocument room path (.ok (.mapping entries)) = ofDatum room (.mapping entries) :=
  ⟨readsMapping_ofDatum room hkeys, rfl, fun _ => rfl⟩

theorem areKeys_singleton {key : Datum} (hkey : key.isKey = true)
    (hcodes : ∀ points, key = .codes points → ∃ code ∈ points, ¬ code.isValidChar) :
    AreKeys [key] :=
  areKeys_nil.append_singleton hkey nofun hcodes

theorem not_standsFor_nestedList (n : Nat) (b : Bool) : ¬ StandsFor (nestedList n) b := by
  cases n <;> rintro ⟨⟩

/-- A word in letters of either case between blanks, an option beside a name that is none, a file
with a key that is no text, and a list in a thousand others. -/
theorem mappings_read_words :
    ofDatum .standard (.mapping [(.text "force_semicolon", .text " oN\t")]) = .ok ⟨true⟩ ∧
    (¬ ∃ error, ofSource .standard (.datum (.mapping
      [(.text "strict", .int 1), (.text "force_semicolon", .null)])) = .error error ∧
        error.kind ≠ .value) ∧
    (∃ error, ofDocument .standard "c.yaml" (.ok (.mapping [(.int 1, .bool true)])) =
      .error error ∧ error.kind ≠ .value) ∧
    ∃ error, ofDatum .standard (.mapping [(.text "force_semicolon", nestedList 1000)]) =
      .error error ∧ error.kind ≠ .value := by
  have hword : AreKeys [.text "force_semicolon"] := areKeys_singleton rfl nofun
  have hstrict : AreKeys [.text "strict"] := areKeys_singleton rfl nofun
  have hnames : AreKeys [.text "strict", .text "force_semicolon"] :=
    hstrict.append_singleton rfl (by decide +kernel) nofun
  have hnumber : AreKeys [.int 1] := areKeys_singleton rfl nofun
  refine ⟨?_, ?_, ?_, ?_⟩
  · have hvalue : StandsFor (.text " oN\t") true := .yes (by decide +kernel)
    obtain ⟨hreads, -⟩ :=
      mappings_read .standard [(.text "force_semicolon", .text " oN\t")] hword
    exact (hreads.ok_iff _).mpr (.option hvalue)
  · obtain ⟨hreads, hsame, -⟩ :=
      mappings_read .standard [(.text "strict", .int 1), (.text "force_semicolon", .null)] hnames
    rw [hsame, hreads.misread_iff]
    rintro (htexts | ⟨value, hbad, -⟩)
    · exact htexts (List.forall_mem_cons.mpr ⟨rfl, textKeys_singleton _⟩)
    · have hlength := congrArg List.length hbad.entries
      simp at hlength
  · obtain ⟨hreads, -, hfile⟩ := mappings_read .standard [(.int 1, .bool true)] hnumber
    rw [hfile, hreads.misread_iff]
    exact .inl fun htexts => nomatch htexts _ List.mem_cons_self
  · obtain ⟨hreads, -⟩ :=
      mappings_read .standard [(.text "force_semicolon", nestedList 1000)] hword
    rw [hreads.misread_iff]
    exact .inr ⟨_, ⟨rfl, not_standsFor_nestedList _⟩, nestedList_tooDeep_iff.mpr (by decide)⟩

/-- The complaint about a key that is a number is no complaint about a bad value, whether the
mapping is given or found in a file. -/
theorem numberKey_not_badValue :
    (¬ ∀ room entries, AreKeys (entries.map (·.1)) →
      ∀ error, ofDatum room (.mapping entries) = .error error → error.kind = .value) ∧
    ¬ ∀ room path entries, AreKeys (entries.map (·.1)) →
      ∀ error, ofDocument room path (.ok (.mapping entries)) = .error error →
        error.kind = .value := by
  have hkeys : AreKeys [.int 1] := areKeys_singleton rfl nofun
  have herror : ofDatum .standard (.mapping [(.int 1, .bool true)]) = .error (.notText "int") := rfl
  constructor
  · intro h
    cases h .standard [(.int 1, .bool true)] hkeys _ herror
  · intro h
    cases h .standard "c.yaml" [(.int 1, .bool true)] hkeys _ herror

end Options

end Formula
