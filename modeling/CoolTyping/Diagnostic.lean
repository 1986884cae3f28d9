import CoolTyping.SemanticError
import CoolTyping.SyntaxError

/-!
# Diagnostics for people

Errors of both kinds in one form: a code, a message, and the place in the text with a label.
-/

namespace CoolTyping

/-- A note on the text from `offset` on. -/
structure Label where
  text : String
  offset : Nat
  length : Nat
deriving DecidableEq

inductive DiagnosticCode where
  | syntactic
  | semantic
deriving DecidableEq

def DiagnosticCode.text : DiagnosticCode → String
  | syntactic => "cool::syntax"
  | semantic => "cool::semantic"

structure Diagnostic where
  code : DiagnosticCode
  message : String
  help : Option String
  labels : List Label
deriving DecidableEq

def Label.ofSpan (text : String) (span : Span) : Label := ⟨text, span.start, span.length⟩

def SyntaxError.diagnostic (e : SyntaxError) : Diagnostic :=
  ⟨.syntactic, e.message, e.help, [Label.ofSpan e.label e.span]⟩

def Report.diagnostic (r : Report) (help : Option String) : Diagnostic :=
  ⟨.semantic, r.error.message, help, [Label.ofSpan "here" r.span]⟩

end CoolTyping
