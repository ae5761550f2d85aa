import Formula.Options.Datum
import Formula.Options.Document.Fault

namespace Formula

structure Options where
  /-- Whether only semicolons separate statements. Otherwise blanks do too. -/
  forceSemicolon : Bool
  deriving DecidableEq

/-- Why data are no options. -/
inductive OptionError where
  /-- The value of an option, as it is written, is no truth value. -/
  | notBoolean (option shown : String)
  /-- The value of an option is no truth value and cannot even be written. -/
  | unwritable (fault : LiteralFault)
  /-- Keys that are no options, by their codes. -/
  | unknown (options : List (List Nat))
  | notMapping (path : String)
  | document (path : String) (fault : DocumentFault)
  /-- Keys of kinds that have no common order. -/
  | unordered (left right : String)
  /-- Keys that have an order but are no texts. -/
  | notText (kind : String)
  | notIterable (kind : String)
  | unhashable (kind : String)
  | withoutKeys (kind : String)

namespace OptionError

def kind : OptionError → FaultKind
  | notBoolean .. | unknown _ | notMapping _ => .value
  | unwritable fault => fault.kind
  | document _ fault => fault.kind
  | unordered .. | notText _ | notIterable _ | unhashable _ => .type
  | withoutKeys _ => .attribute

def message : OptionError → String
  | notBoolean option shown => s!"Option '{option}' must be a boolean, got {shown}"
  | unwritable fault => fault.message
  | unknown options => "Unknown config option(s): " ++ ", ".intercalate (options.map Text.ofCodes)
  | notMapping path => s!"Config file {path} must contain a mapping"
  | document path fault => fault.message path
  | unordered left right => s!"'<' not supported between instances of '{left}' and '{right}'"
  | notText kind => s!"sequence item 0: expected str instance, {kind} found"
  | notIterable kind => s!"'{kind}' object is not iterable"
  | unhashable kind => s!"unhashable type: '{kind}'"
  | withoutKeys kind => s!"'{kind}' object has no attribute 'get'"

/-- The complaint about a value that is no truth value. It shows the value. -/
def badValue (room : Room) (option : String) (value : Datum) : OptionError :=
  match value.literal room 1 with
  | .ok shown => .notBoolean option shown
  | .error fault => .unwritable fault

end OptionError

/-- What a caller gives for options: nothing, options, or a datum that holds them. -/
inductive OptionSource where
  | nothing
  | options (options : Options)
  | datum (datum : Datum)

namespace Options

def standard : Options := ⟨false⟩

/-- The name of the only option. -/
def optionName : String := "force_semicolon"

/-- The variable of the environment that sets it. -/
def variableName : String := "MATHEXPR_FORCE_SEMICOLON"

def trueWords : List String := ["1", "true", "yes", "on"]

def falseWords : List String := ["", "0", "false", "no", "off"]

/-- A word in lower-case letters. Letters beyond the first 128 characters stay as they are: none of
them has a lower-case form among the words above. -/
def lowered (word : String) : String :=
  word.map Char.toLower

/-- The truth value that a datum stands for. The room is what is left for showing another datum. -/
def readBool (room : Room) (option : String) (value : Datum) : Except OptionError Bool :=
  match value with
  | .bool b => .ok b
  | .text s =>
    let word := lowered (Text.strip s)
    if trueWords.contains word then .ok true
    else if falseWords.contains word then .ok false
    else .error (.badValue room option value)
  | _ => .error (.badValue room option value)

/-- The first two neighbours in a list that have no order. -/
def firstUnordered : List Datum → Option (Datum × Datum)
  | first :: second :: rest =>
    if first.isComparable second then firstUnordered (second :: rest) else some (first, second)
  | _ => none

/-- The least of a list of numbers; of other data the first. -/
def least (first : Datum) (rest : List Datum) : Datum :=
  rest.foldl
    (fun found datum =>
      match datum.number?, found.number? with
      | some x, some y => if x.isBelow y then datum else found
      | _, _ => found)
    first

/-- Texts, by their codes, in ascending order. -/
def sortedTexts (texts : List (List Nat)) : List (List Nat) :=
  texts.mergeSort fun first second => !second.lex first fun a b => a < b

/-- The complaint about keys that are no options. It lists them in order, if they have one. -/
def unknownKeys (keys : List Datum) : OptionError :=
  match firstUnordered keys with
  | some (first, second) => .unordered second.kindName first.kindName
  | none =>
    match keys with
    | [] => .unknown []
    | first :: rest =>
      if keys.all (·.text?.isSome) then .unknown (sortedTexts (keys.filterMap (·.text?)))
      else .notText (least first rest).kindName

def isOption (key : Datum) : Bool :=
  key.text? == (Datum.text optionName).text?

/-- The keys of a datum that is searched for options, each once. -/
def keysOf : Datum → Except OptionError (List Datum)
  | .mapping entries => .ok (entries.map (·.1))
  | .text s => .ok (Datum.distinctKeys (s.toList.map fun c => .text (String.singleton c)))
  | .list items => match items.find? (!·.isKey) with
    | some item => .error (.unhashable item.kindName)
    | none => .ok (Datum.distinctKeys items)
  | datum => .error (.notIterable datum.kindName)

/-- Reads the options that a datum holds. One that says nothing holds the standard options. -/
def ofDatum (room : Room) (datum : Datum) : Except OptionError Options :=
  if !datum.isPresent then .ok standard
  else do
    let keys ← keysOf datum
    let others := keys.filter (!isOption ·)
    if !others.isEmpty then throw (unknownKeys others)
    match datum with
    | .mapping entries =>
      let value := ((entries.find? fun entry => isOption entry.1).map (·.2)).getD (.bool false)
      let force ← readBool room optionName value
      return ⟨force⟩
    | other => throw (.withoutKeys other.kindName)

/-- The options that a caller gives. Without any the standard options hold. -/
def ofSource (room : Room) : OptionSource → Except OptionError Options
  | .nothing => .ok standard
  | .options options => .ok options
  | .datum datum => ofDatum room datum

/-- Reads the options from a file, by what the loader found in it. -/
def ofDocument (room : Room) (path : String) (found : Except DocumentFault Datum) :
    Except OptionError Options :=
  match found with
  | .error fault => .error (.document path fault)
  | .ok .null => .ok standard
  | .ok (.mapping entries) => ofDatum room (.mapping entries)
  | .ok _ => .error (.notMapping path)

/-- Reads the options from the environment's variable, which need not be set. -/
def ofVariable (room : Room) (value : Option String) : Except OptionError Options := do
  let force ← readBool room variableName (.text (value.getD ""))
  return ⟨force⟩

/-- The verbose form of options. -/
def literal (options : Options) : String :=
  "ExpressionConfig(force_semicolon=" ++ Datum.boolText options.forceSemicolon ++ ")"

end Options

end Formula
