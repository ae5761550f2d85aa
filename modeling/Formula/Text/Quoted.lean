import Formula.Text.Printable

namespace Formula.Text

/-- The quote that stands around a text: single, unless the text has single quotes and no double
ones. -/
def quoteOf (text : List Char) : Char :=
  if text.contains '\x27' && !text.contains '\x22' then '\x22' else '\x27'

/-- A number in lower-case hexadecimal, filled with zeros on the left to the given width. -/
def hex (width n : Nat) : List Char :=
  let digits := Nat.toDigits 16 n
  List.replicate (width - digits.length) '0' ++ digits

/-- A character that is not shown as itself, by its code point in the shortest of three forms. -/
def escapeHidden (c : Char) : List Char :=
  if c.toNat < 0x100 then '\\' :: 'x' :: hex 2 c.toNat
  else if c.toNat < 0x10000 then '\\' :: 'u' :: hex 4 c.toNat
  else '\\' :: 'U' :: hex 8 c.toNat

def escape (quote c : Char) : List Char :=
  if c == quote || c == '\\' then ['\\', c]
  else if c == '\n' then ['\\', 'n']
  else if c == '\r' then ['\\', 'r']
  else if c == '\t' then ['\\', 't']
  else if isPrintable c then [c]
  else escapeHidden c

def quoted (text : String) : String :=
  let chars := text.toList
  let quote := quoteOf chars
  String.ofList (quote :: chars.flatMap (escape quote) ++ [quote])

/-- The text with the given codes. A code that stands for no character leaves the character zero. -/
def ofCodes (codes : List Nat) : String :=
  String.ofList (codes.map Char.ofNat)

/-- A code in a quoted text: a character, or a code of four digits that stands for none. -/
def escapeCode (quote : Char) (code : Nat) : List Char :=
  if code.isValidChar then escape quote (Char.ofNat code) else '\\' :: 'u' :: hex 4 code

/-- The quoted form of a text that is given by codes, some of which may stand for no character. -/
def quotedCodes (codes : List Nat) : String :=
  let quote := quoteOf (codes.map Char.ofNat)
  String.ofList (quote :: codes.flatMap (escapeCode quote) ++ [quote])

end Formula.Text
