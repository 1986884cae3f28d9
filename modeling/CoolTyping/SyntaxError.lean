import CoolTyping.Token.Lexer

/-!
# Syntax errors
-/

namespace CoolTyping

/-- Why a text is no program, and where. The label is what is written at the place itself. -/
structure SyntaxError where
  message : String
  label : String
  help : Option String
  span : Span
deriving DecidableEq

def SyntaxError.ofLexError (e : LexError) : SyntaxError := ⟨e.message, e.message, none, e.span⟩

/-- Summary of a list of syntax errors. -/
def SyntaxError.summary (errors : List SyntaxError) : String :=
  "found " ++ toString errors.length ++ " syntax error(s)"

end CoolTyping
