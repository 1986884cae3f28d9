import CoolTyping.LogLevel

/-!
# Command line arguments

The program is called with a command and a file. Options may stand before or after the file, as
`--name value` or `--name=value`; behind `--` everything is a file.
-/

namespace CoolTyping

inductive Command where
  | check
  | infer (maxSweeps : Option Nat) (dumpBags : Bool)
deriving DecidableEq

structure Invocation where
  command : Command
  file : String
  logLevel : Option LogLevel
deriving DecidableEq

/-- What the program is asked to do. -/
inductive Request where
  | version
  | run (invocation : Invocation)
deriving DecidableEq

inductive UsageError where
  | missingCommand
  | unknownCommand (name : String)
  | unknownOption (arg : String)
  | repeatedOption (name : String)
  | missingValue (name : String)
  | unexpectedValue (name : String)
  | invalidValue (name value : String)
  | missingFile
  | emptyFile
  | surplusArgument (arg : String)
deriving DecidableEq

def UsageError.message : UsageError → String
  | missingCommand => "a command is required: check or infer"
  | unknownCommand name => "unknown command '" ++ name ++ "'"
  | unknownOption arg => "unexpected argument '" ++ arg ++ "'"
  | repeatedOption name => "option '--" ++ name ++ "' cannot be used more than once"
  | missingValue name => "option '--" ++ name ++ "' needs a value"
  | unexpectedValue name => "option '--" ++ name ++ "' takes no value"
  | invalidValue name value => "invalid value '" ++ value ++ "' for option '--" ++ name ++ "'"
  | missingFile => "a file is required"
  | emptyFile => "the name of the file is empty"
  | surplusArgument arg => "unexpected argument '" ++ arg ++ "'"

namespace Arguments

/-! ## Shapes of arguments -/

inductive Arg where
  /-- `--`, which ends the options. -/
  | endOfOptions
  /-- `--name` or `--name=value` -/
  | long (name : String) (value : Option String)
  /-- `-` and letters, with the first letter -/
  | short (letter : Char)
  | plain
deriving DecidableEq

def shape (arg : String) : Arg :=
  match arg.toList with
  | ['-', '-'] => .endOfOptions
  | '-' :: '-' :: cs =>
    let name := String.ofList (cs.takeWhile (· != '='))
    match cs.dropWhile (· != '=') with
    | _ :: value => .long name (some (String.ofList value))
    | [] => .long name none
  | '-' :: c :: _ => .short c
  | _ => .plain

/-- An unsigned number below `2 ^ 64`, possibly with a plus sign. -/
def unsigned? (s : String) : Option Nat :=
  let digits := match s.toList with
    | '+' :: cs => cs
    | cs => cs
  if digits.isEmpty || !digits.all Char.isDigit then none
  else
    let value := digits.foldl (fun n d => 10 * n + (d.toNat - '0'.toNat)) 0
    if value < 18446744073709551616 then some value else none

/-- The value of an option: what stands behind `=`, or else the next argument, which may not look
like an option. -/
def optionValue (name : String) (attached : Option String) (rest : List String) :
    Except UsageError (String × List String) :=
  match attached, rest with
  | some value, _ => .ok (value, rest)
  | none, next :: rest => if shape next = .plain then .ok (next, rest) else .error (.missingValue name)
  | none, [] => .error (.missingValue name)

def readLogLevel (value : String) : Except UsageError LogLevel :=
  match LogLevel.parse? value with
  | some l => .ok l
  | none => .error (.invalidValue "log-level" value)

def readMaxSweeps (value : String) : Except UsageError Nat :=
  match unsigned? value with
  | some n => .ok n
  | none => .error (.invalidValue "max-sweeps" value)

/-! ## Behind the command -/

/-- What has been read behind the command. -/
structure Draft where
  file : Option String
  logLevel : Option LogLevel
  maxSweeps : Option Nat
  dumpBags : Bool

def Draft.empty : Draft := ⟨none, none, none, false⟩

def Draft.addFile (d : Draft) (arg : String) : Except UsageError Draft :=
  if d.file.isSome then .error (.surplusArgument arg)
  else if arg == "" then .error .emptyFile
  else .ok { d with file := some arg }

/-- Reads an option; gives what follows it. Only inference has options of its own. -/
def Draft.addOption (d : Draft) (infers : Bool) (name : String) (attached : Option String)
    (rest : List String) : Except UsageError (Draft × List String) := do
  if name == "log-level" then
    let (value, rest) ← optionValue name attached rest
    let level ← readLogLevel value
    if d.logLevel.isSome then throw (.repeatedOption name)
    return ({ d with logLevel := some level }, rest)
  else if name == "max-sweeps" && infers then
    let (value, rest) ← optionValue name attached rest
    let bound ← readMaxSweeps value
    if d.maxSweeps.isSome then throw (.repeatedOption name)
    return ({ d with maxSweeps := some bound }, rest)
  else if name == "dump-bags" && infers then
    if attached.isSome then throw (.unexpectedValue name)
    if d.dumpBags then throw (.repeatedOption name)
    return ({ d with dumpBags := true }, rest)
  else
    throw (.unknownOption ("--" ++ name))

/-- Reads all arguments behind the command. Each step uses up an argument, so their number is
enough fuel. -/
def readArgs (infers : Bool) : Nat → Draft → List String → Except UsageError Draft
  | 0, d, _ => .ok d
  | _ + 1, d, [] => .ok d
  | fuel + 1, d, arg :: rest =>
    match shape arg with
    | .endOfOptions => rest.foldlM Draft.addFile d
    | .long name attached => do
      let (d, rest) ← d.addOption infers name attached rest
      readArgs infers fuel d rest
    | .short _ => .error (.unknownOption arg)
    | .plain => do
      let d ← d.addFile arg
      readArgs infers fuel d rest

/-! ## The whole command line -/

/-- A level given behind the command goes before one given in front of it. -/
def Draft.toInvocation (d : Draft) (infers : Bool) (outer : Option LogLevel) :
    Except UsageError Invocation :=
  match d.file with
  | none => .error .missingFile
  | some file =>
    let command := if infers then Command.infer d.maxSweeps d.dumpBags else Command.check
    .ok ⟨command, file, d.logLevel.or outer⟩

def readCommand (name : String) (rest : List String) (outer : Option LogLevel) :
    Except UsageError Request := do
  let infers ←
    match name with
    | "check" => pure false
    | "infer" => pure true
    | _ => throw (.unknownCommand name)
  let d ← readArgs infers rest.length Draft.empty rest
  return .run (← d.toInvocation infers outer)

/-- Reads what stands in front of the command. -/
def readOuter : Nat → Option LogLevel → List String → Except UsageError Request
  | 0, _, _ => .error .missingCommand
  | _ + 1, _, [] => .error .missingCommand
  | fuel + 1, outer, arg :: rest =>
    match shape arg with
    | .endOfOptions => .error .missingCommand
    | .long "version" none => .ok .version
    | .long "log-level" attached => do
      let (value, rest) ← optionValue "log-level" attached rest
      let level ← readLogLevel value
      if outer.isSome then throw (.repeatedOption "log-level")
      readOuter fuel (some level) rest
    | .short 'V' => .ok .version
    | .long _ _ | .short _ => .error (.unknownOption arg)
    | .plain => readCommand arg rest outer

end Arguments

/-- Reads the arguments of the program. -/
def Request.ofArgs (args : List String) : Except UsageError Request :=
  Arguments.readOuter args.length none args

end CoolTyping
