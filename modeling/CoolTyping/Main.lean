import CoolTyping.CommandLine.Run

/-!
# The program

Reads files from disk and writes the outcome of a run.
-/

namespace CoolTyping

/-- Whether an error has the code `n`. Codes come with either sign. -/
def hasCode (code n : UInt32) : Bool := code == n || 0 - code == n

def failureOf (e : IO.Error) : ReadFailure :=
  match e with
  | .noFileOrDirectory .. => .notFound
  | .inappropriateType _ code _ => if hasCode code 20 then .notDirectory else .isDirectory
  | .invalidArgument _ code _ => if hasCode code 36 then .nameTooLong else .other (toString e)
  | _ => .other (toString e)

/-- Reads a file of text. -/
def readFile (path : String) : IO (Except ReadFailure String) := do
  try
    return decodeText (← IO.FS.readBinFile path)
  catch e =>
    return .error (failureOf e)

/-- Writes a diagnostic with its place and its help. -/
def printDiagnostic (d : Diagnostic) : IO Unit := do
  IO.eprintln (d.code.text ++ ": " ++ d.message)
  for l in d.labels do
    IO.eprintln ("  at " ++ toString l.offset ++ ".." ++ toString (l.offset + l.length) ++ ": " ++
      l.text)
  if let some help := d.help then
    IO.eprintln ("  help: " ++ help)

end CoolTyping

open CoolTyping in
def main (args : List String) : IO UInt32 := do
  let response ← respond args (← IO.getEnv LogLevel.variableName) readFile
  for d in response.diagnostics do
    printDiagnostic d
  for line in response.log do
    IO.eprintln line
  for message in response.messages do
    IO.eprintln message
  IO.print response.output
  return response.exitCode.toUInt32
