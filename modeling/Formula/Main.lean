import Formula.CommandLine
import Formula.Options.Document

namespace Formula.CommandLine

/-- Looks for an option file. What is there but cannot be read as one counts as a directory. -/
def findFile (path : String) : IO FoundFile := do
  try
    return .content (← IO.FS.readFile path)
  catch
    | .noFileOrDirectory .. => return .missing
    | _ => return .directory

/-- Runs a command and returns its exit code. -/
def perform (given : List String) : IO UInt32 := do
  let setting ← IO.getEnv Options.variableName
  let found ← match optionFile? given with
    | some path => findFile path
    | none => pure .missing
  let environment (name : String) := if name == Options.variableName then setting else none
  let outcome := run ⟨.standard, environment, fun _ => found, Document.read⟩ given
  IO.print outcome.stdout
  IO.eprint outcome.stderr
  if let some trouble := outcome.escaped then
    IO.eprintln trouble.message
  return outcome.exit.toUInt32

end Formula.CommandLine

def main (given : List String) : IO UInt32 :=
  Formula.CommandLine.perform given
