import CoolTyping.Text.WhiteSpace

/-!
# Log levels
-/

namespace CoolTyping

/-- How much is logged, from least to most. -/
inductive LogLevel where
  | error | warn | info | debug | trace
deriving DecidableEq

namespace LogLevel

def rank : LogLevel → Nat
  | error => 0
  | warn => 1
  | info => 2
  | debug => 3
  | trace => 4

/-- Whether lines of level `l` are logged when `threshold` is asked for. -/
def admits (threshold l : LogLevel) : Bool := l.rank ≤ threshold.rank

def default : LogLevel := warn

def name : LogLevel → String
  | error => "error"
  | warn => "warn"
  | info => "info"
  | debug => "debug"
  | trace => "trace"

/-- The name as it stands in front of log lines. -/
def tag (l : LogLevel) : String := l.name.map Char.toUpper

/-- Reads a level in upper or lower case, with white space around it. -/
def parse? (spec : String) : Option LogLevel :=
  match (Text.trim spec).map Char.toLower with
  | "error" | "err" => some error
  | "warn" | "warning" => some warn
  | "info" => some info
  | "debug" => some debug
  | "trace" | "verbose" => some trace
  | _ => none

def unknownMessage (spec : String) : String := "unknown log level `" ++ spec ++ "`"

/-- The level asked for, or else the one in the environment, or else the default. -/
def choose (asked : Option LogLevel) (environment : Option String) : LogLevel :=
  (asked.or (environment.bind parse?)).getD default

/-- Environment variable that holds a level. -/
def variableName : String := "COOL_LOG"

end LogLevel

end CoolTyping
