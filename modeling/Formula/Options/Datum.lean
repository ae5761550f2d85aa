import Formula.Fault.Kind
import Formula.Number.Spelling
import Formula.Options.Date
import Formula.Room
import Formula.Text.Quoted

namespace Formula

/-- Data of option files and calls. Keys of mappings may be data of any kind. -/
inductive Datum where
  | null
  | bool (b : Bool)
  | int (n : Int)
  | float (x : Float)
  | text (s : String)
  /-- A text by its codes, some of which stand for no character. -/
  | codes (points : List Nat)
  | date (d : Date)
  | moment (m : Moment)
  | list (items : List Datum)
  | mapping (entries : List (Datum × Datum))
  deriving Inhabited

/-- Why a datum cannot be written. -/
inductive LiteralFault where
  | tooDeep
  | tooLong
  deriving DecidableEq

namespace LiteralFault

/-- The greatest number of digits of an integer that is written. -/
def digitLimit : Nat := 4300

def kind : LiteralFault → FaultKind
  | tooDeep => .recursion
  | tooLong => .value

def message : LiteralFault → String
  | tooDeep => "maximum recursion depth exceeded while getting the repr of an object"
  | tooLong => s!"Exceeds the limit ({digitLimit} digits) for integer string conversion; " ++
      "use sys.set_int_max_str_digits() to increase the limit"

end LiteralFault

namespace Datum

/-- The text with the given codes. -/
def ofCodes (codes : List Nat) : Datum :=
  if codes.all fun code => decide code.isValidChar then .text (Text.ofCodes codes)
  else .codes codes

/-- The name of the kind of a datum, for error texts. -/
def kindName : Datum → String
  | null => "NoneType"
  | bool _ => "bool"
  | int _ => "int"
  | float _ => "float"
  | text _ => "str"
  | codes _ => "str"
  | date _ => "datetime.date"
  | moment _ => "datetime.datetime"
  | list _ => "list"
  | mapping _ => "dict"

def boolText (b : Bool) : String :=
  if b then "True" else "False"

/-- How many levels of data a datum has inside it that are no data of its own. -/
def innerLevels : Datum → Nat
  | moment m => m.innerLevels
  | _ => 0

/-- Whether a datum is an integer with more digits than are written. -/
def isLong : Datum → Bool
  | int n => LiteralFault.digitLimit < (toString n.natAbs).length
  | _ => false

/-- What keeps a datum at some level from being written, apart from the data inside it. Each level
takes a frame. -/
def obstacle? (room : Room) (level : Nat) (datum : Datum) : Option LiteralFault :=
  if !room.holds (level + datum.innerLevels) then some .tooDeep
  else if datum.isLong then some .tooLong
  else none

mutual

/-- The text of a datum at some level, from which it can be told apart from every other one. -/
def literal (room : Room) (level : Nat) (datum : Datum) : Except LiteralFault String :=
  match datum.obstacle? room level with
  | some fault => .error fault
  | none =>
    match datum with
    | .null => .ok "None"
    | .bool b => .ok (boolText b)
    | .int n => .ok (toString n)
    | .float x => .ok (Decimal.spellFloat x)
    | .text s => .ok (Text.quoted s)
    | .codes points => .ok (Text.quotedCodes points)
    | .date d => .ok d.literal
    | .moment m => .ok m.literal
    | .list items => do
      let parts ← literals room (level + 1) items
      return "[" ++ ", ".intercalate parts ++ "]"
    | .mapping entries => do
      let parts ← entryLiterals room (level + 1) entries
      return "\x7b" ++ ", ".intercalate parts ++ "\x7d"

def literals (room : Room) (level : Nat) : List Datum → Except LiteralFault (List String)
  | [] => .ok []
  | first :: rest => do
    let text ← literal room level first
    let others ← literals room level rest
    return text :: others

def entryLiterals (room : Room) (level : Nat) :
    List (Datum × Datum) → Except LiteralFault (List String)
  | [] => .ok []
  | (key, value) :: rest => do
    let keyText ← literal room level key
    let valueText ← literal room level value
    let others ← entryLiterals room level rest
    return (keyText ++ ": " ++ valueText) :: others

end

/-- The number that a datum is. -/
def number? : Datum → Option Binary.Parts
  | bool b => some (.ofInt (if b then 1 else 0))
  | int n => some (.ofInt n)
  | float x => some (Binary.parts x)
  | _ => none

/-- The text that a datum is, by its codes. -/
def text? : Datum → Option (List Nat)
  | text s => some (s.toList.map Char.toNat)
  | codes points => some points
  | _ => none

/-- Whether a datum says anything at all. -/
def isPresent : Datum → Bool
  | null => false
  | bool b => b
  | int n => n != 0
  | float x => !(Binary.parts x).isSame (.ofInt 0)
  | text s => !s.isEmpty
  | codes points => !points.isEmpty
  | date _ => true
  | moment _ => true
  | list items => !items.isEmpty
  | mapping entries => !entries.isEmpty

/-- Whether a datum can be a key. -/
def isKey : Datum → Bool
  | list _ => false
  | mapping _ => false
  | _ => true

/-- Whether two data are the same key. Numbers are compared by their values, of whatever kind they
are. -/
def isSameKey : Datum → Datum → Bool
  | null, null => true
  | text s, text t => s == t
  | codes c, codes d => c == d
  | date d, date e => d == e
  | moment m, moment n => m == n
  | first, second =>
    match first.number?, second.number? with
    | some x, some y => x.isSame y
    | _, _ => false

/-- Whether two data have an order. -/
def isComparable : Datum → Datum → Bool
  | date _, date _ => true
  | moment _, moment _ => true
  | first, second =>
    (first.text?.isSome && second.text?.isSome) || (first.number?.isSome && second.number?.isSome)

/-- Data without those that are the same key as an earlier one. -/
def distinctKeys (keys : List Datum) : List Datum :=
  keys.foldl (fun found key => if found.any (isSameKey key) then found else found ++ [key]) []

/-- Adds an entry to a mapping. A key that is there already keeps its place and takes the later
value. -/
def addEntry (entries : List (Datum × Datum)) (entry : Datum × Datum) : List (Datum × Datum) :=
  if entries.any fun other => other.1.isSameKey entry.1 then
    entries.map fun other => if other.1.isSameKey entry.1 then (other.1, entry.2) else other
  else entries ++ [entry]

/-- The mapping of entries in the order in which they are written. -/
def ofEntries (entries : List (Datum × Datum)) : Datum :=
  .mapping (entries.foldl addEntry [])

end Datum

end Formula
