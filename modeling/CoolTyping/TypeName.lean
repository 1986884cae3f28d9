/-!
# Type names

A type is known by its name. Some names are given: the basic classes, and three names that stand for
no class of their own.
-/

namespace CoolTyping

abbrev TypeName := String

namespace TypeName

def object : TypeName := "Object"
def io : TypeName := "IO"
def int : TypeName := "Int"
def string : TypeName := "String"
def bool : TypeName := "Bool"

/-- Placeholder for a type that is to be inferred. -/
def auto : TypeName := "AUTO_TYPE"

/-- Stands for the class of the object at hand. -/
def selfType : TypeName := "SELF_TYPE"

/-- Stands for a type that could not be determined. No program can write this name. -/
def error : TypeName := "<error>"

/-- Wildcards conform to every type, and every type conforms to them. -/
def isWildcard (t : TypeName) : Bool := t == error || t == auto

/-- Reads the name `SELF_TYPE` as the type `current`. -/
def resolveSelf (t current : TypeName) : TypeName := if t == selfType then current else t

end TypeName

/-- The variable that stands for the object at hand. -/
def selfName : String := "self"

end CoolTyping
