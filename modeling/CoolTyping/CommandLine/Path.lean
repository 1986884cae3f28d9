/-!
# Paths

Names of files, written with `/` between the parts.
-/

namespace CoolTyping.Path

/-- The parts of a path. Empty parts and `.` mean nothing. -/
def parts (path : String) : List String :=
  (path.splitOn "/").filter fun part => part != "" && part != "."

/-- A part of a path has at most this many bytes. -/
def maxPartBytes : Nat := 255

/-- A path has at most this many bytes. -/
def maxBytes : Nat := 4095

def isPartTooLong (part : String) : Bool := maxPartBytes < part.utf8ByteSize

def isTooLong (path : String) : Bool := maxBytes < path.utf8ByteSize

/-- What follows the last dot of a name that has something before that dot. -/
def extensionOf? (name : String) : Option String :=
  let reversed := name.toList.reverse
  match reversed.dropWhile (· != '.') with
  | _ :: _ :: _ => some (String.ofList (reversed.takeWhile (· != '.')).reverse)
  | _ => none

/-- The extension of the last part, unless that leads upwards. -/
def extension? (path : String) : Option String :=
  match (parts path).getLast? with
  | some name => if name == ".." then none else extensionOf? name
  | none => none

end CoolTyping.Path
