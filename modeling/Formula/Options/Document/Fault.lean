import Formula.Fault.Kind
import Formula.Options.Date

namespace Formula

/-- Why the text of an option file holds no datum. -/
inductive DocumentFault where
  | malformed
  | tooDeep
  /-- A numeral with the mark of a base and no digits of it. -/
  | noDigits (base : Nat)
  /-- An escape with a code beyond those of all characters. -/
  | noCharacter (code : Nat)
  | date (error : DateError)

namespace DocumentFault

/-- The codes from here on do not even fit the word in which a character is looked up. -/
def codeLimit : Nat := Nat.pow 2 31

def kind : DocumentFault → FaultKind
  | malformed => .document
  | tooDeep => .recursion
  | noCharacter code => if code < codeLimit then .value else .overflow
  | noDigits _ | date _ => .value

def message (path : String) : DocumentFault → String
  | malformed => s!"Config file {path} cannot be read"
  | tooDeep => "maximum recursion depth exceeded"
  | noDigits base => s!"invalid literal for int() with base {base}: \x27\x27"
  | noCharacter code =>
    if code < codeLimit then "chr() arg not in range(0x110000)"
    else "Python int too large to convert to C int"
  | date error => error.message

end DocumentFault

end Formula
