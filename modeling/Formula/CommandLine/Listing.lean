import Formula.Function.Registry

namespace Formula.CommandLine

variable {σ : Type}

/-- Structured data of a listing. -/
inductive Record where
  | text (s : String)
  | list (items : List Record)
  | fields (entries : List (String × Record))

namespace Record

/-- A text between double quotes on one line of plain characters. Characters beyond the first 65536
are written as two halves. -/
def quoteText (text : String) : String :=
  let unit (n : Nat) : List Char := '\x5c' :: 'u' :: Text.hex 4 n
  let escape (c : Char) : List Char :=
    if c == '\x22' || c == '\x5c' then ['\x5c', c]
    else if c == '\n' then ['\x5c', 'n']
    else if c == '\r' then ['\x5c', 'r']
    else if c == '\t' then ['\x5c', 't']
    else if c == '\x08' then ['\x5c', 'b']
    else if c == '\x0c' then ['\x5c', 'f']
    else if 0x20 ≤ c.toNat && c.toNat < 0x7f then [c]
    else if c.toNat < 0x10000 then unit c.toNat
    else
      let n := c.toNat - 0x10000
      unit (0xd800 + n / 0x400) ++ unit (0xdc00 + n % 0x400)
  String.ofList ('\x22' :: text.toList.flatMap escape ++ ['\x22'])

/-- Items on lines of their own between brackets; no items leave the brackets together. -/
def bracketed (opening closing : String) (indent : Nat) (items : List String) : String :=
  if items.isEmpty then opening ++ closing
  else
    let line (depth : Nat) := "\n" ++ "".pushn ' ' (2 * depth)
    opening ++ line (indent + 1) ++ ("," ++ line (indent + 1)).intercalate items ++ line indent
      ++ closing

mutual

def render (indent : Nat) : Record → String
  | .text s => quoteText s
  | .list items => bracketed "[" "]" indent (renderAll (indent + 1) items)
  | .fields entries => bracketed "\x7b" "\x7d" indent (renderFields (indent + 1) entries)

def renderAll (indent : Nat) : List Record → List String
  | [] => []
  | first :: rest => render indent first :: renderAll indent rest

def renderFields (indent : Nat) : List (String × Record) → List String
  | [] => []
  | (name, record) :: rest =>
    (quoteText name ++ ": " ++ render indent record) :: renderFields indent rest

end

end Record

def definitionRecord (definition : Definition σ) : Record :=
  .fields
    [("name", .text definition.name),
     ("description", .text definition.description),
     ("category", .text definition.category.text),
     ("parameters", .list (definition.parameters.map .text)),
     ("examples", .list (definition.examples.map .text))]

/-- The registry by name and by category. -/
def registryRecord (registry : Registry σ) : Record :=
  .fields
    [("functions", .fields (registry.definitions.map fun definition =>
        (definition.name, definitionRecord definition))),
     ("byCategory", .fields (registry.categories.map fun category =>
        (category.text, .list ((registry.inCategory category).map definitionRecord))))]

def padRight (width : Nat) (text : String) : String :=
  text ++ "".pushn ' ' (width - text.length)

def padLeft (width : Nat) (text : String) : String :=
  "".pushn ' ' (width - text.length) ++ text

def definitionLine (definition : Definition σ) : String :=
  let signature := definition.name ++ "(" ++ ", ".intercalate definition.parameters ++ ")"
  "  " ++ padRight 12 signature ++ " " ++ definition.description ++ "\n"

/-- The functions of one category in the order of their names, under its title. -/
def categoryTable (registry : Registry σ) (category : FunctionCategory) : String :=
  let definitions := (registry.inCategory category).mergeSort fun a b => !(b.name < a.name)
  if definitions.isEmpty then ""
  else category.text.capitalize ++ "\n" ++ String.join (definitions.map definitionLine)

def registryTable (registry : Registry σ) : String :=
  String.join (FunctionCategory.all.map (categoryTable registry))

end Formula.CommandLine
