import CoolTyping.Analysis
import CoolTyping.CommandLine.Arguments
import CoolTyping.CommandLine.Directory
import CoolTyping.Diagnostic
import CoolTyping.Program.Printer

/-!
# Running the program

What the program writes and how it ends, given its arguments and a way to read files.
-/

namespace CoolTyping

/-- The outcome of a run. -/
structure Response where
  exitCode : Nat
  /-- Standard output. -/
  output : String
  /-- Errors in the program that was read. -/
  diagnostics : List Diagnostic
  /-- Other messages. -/
  messages : List String
  log : List String
deriving DecidableEq

namespace Response

def versionText : String := "cool-infer 0.1.0"

def failure (message : String) : Response := ⟨1, "", [], [message], []⟩

def usage (e : UsageError) : Response := ⟨2, "", [], [e.message], []⟩

/-- What helps against errors that inference finds. -/
def inferenceHelp : String :=
  "declare the type explicitly or use the value in a more specific way"

def diagnosticsOf (a : Analysis) : List Diagnostic :=
  a.errors.map (·.diagnostic none) ++ a.inferenceErrors.map (·.diagnostic (some inferenceHelp)) ++
    a.finalErrors.map (·.diagnostic none)

/-- Inference prints the program, after the bags if these are asked for. -/
def outputOf (a : Analysis) : Command → String
  | .check => if a.isClean then "No semantic errors found.\n" else ""
  | .infer _ dumpBags =>
    (a.inferred.elim "" fun i => if dumpBags then i.tree.render ++ "\n" else "") ++
      (if a.errors.isEmpty then a.program.format else "")

/-- One line about inference, if it ran. -/
def logOf (a : Analysis) (threshold : LogLevel) : List String :=
  if threshold.admits .info then
    a.inferred.toList.map fun i => LogLevel.info.tag ++ " inference summary sweeps=" ++
      toString i.sweeps ++ " replaced=" ++ toString i.replaced
  else
    []

def ofAnalysis (a : Analysis) (command : Command) (threshold : LogLevel) : Response :=
  ⟨if a.isClean then 0 else 1, outputOf a command, diagnosticsOf a, [], logOf a threshold⟩

end Response

namespace Invocation

def options (i : Invocation) : Options :=
  match i.command with
  | .check => ⟨false, none⟩
  | .infer maxSweeps _ => ⟨true, maxSweeps⟩

/-- Programs are in files with this extension. -/
def extension : String := "cl"

/-- The outcome for the text of the file, with what the environment says about logging. -/
def respondTo (i : Invocation) (environment : Option String) (source : String) : Response :=
  match analyzeSource source i.options with
  | .ok a => Response.ofAnalysis a i.command (LogLevel.choose i.logLevel environment)
  | .error (.syntactic errors) => ⟨1, "", errors.map (·.diagnostic), [], []⟩
  | .error (.inference e) =>
    Response.failure ("Inference failed for " ++ i.file ++ ": " ++ e.message)

/-- The outcome of a run, with `read` to read files. -/
def respond {m : Type → Type} [Monad m] (i : Invocation) (environment : Option String)
    (read : String → m (Except ReadFailure String)) : m Response := do
  if Path.extension? i.file != some extension then
    return Response.failure "Invalid file extension. Only .cl files are allowed."
  else
    match ← read i.file with
    | .ok source => return i.respondTo environment source
    | .error e =>
      return Response.failure ("Failed to access " ++ i.file ++ ": " ++ e.message)

end Invocation

/-- The outcome of running the program with the given arguments, where `environment` is the value of
the variable `LogLevel.variableName`. -/
def respond {m : Type → Type} [Monad m] (args : List String) (environment : Option String)
    (read : String → m (Except ReadFailure String)) : m Response :=
  match Request.ofArgs args with
  | .error e => return Response.usage e
  | .ok .version => return ⟨0, Response.versionText ++ "\n", [], [], []⟩
  | .ok (.run invocation) => invocation.respond environment read

end CoolTyping
