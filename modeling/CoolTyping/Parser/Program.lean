import CoolTyping.Parser.Expr
import CoolTyping.Program

/-!
# Parsing programs

`parse` reads a program from text. Where a class cannot be read, this is reported once, and parsing resumes at
the next word `class` behind the token that did not fit.
-/

namespace CoolTyping

namespace Parser

section

variable {m : Type → Type} [TokenReader m]

def param : m Param := do
  let (name, place) ← identifier "Expected a parameter name"
  let _ ← expectSymbol .colon "Expected `:` after parameter name"
  let ty ← typeName "Expected a parameter type"
  return ⟨name, ty, ← spanFrom place.start⟩

/-- A method, from behind the parenthesis that opens its parameters. -/
def methodDecl (name : String) (start : Nat) : m MethodDecl := do
  let id ← freshId
  let params ← sepByBefore param .comma .rparen
  let _ ← expectSymbol .rparen "Expected `)` after parameters"
  let _ ← expectSymbol .colon "Expected `:` before the return type"
  let ret ← typeName "Expected a return type"
  let _ ← expectSymbol .lbrace "Expected `\x7b` to open the method body"
  let body ← expr
  let _ ← expectSymbol .rbrace "Expected `\x7d` to close the method body"
  return ⟨id, name, params, ret, body, ← spanFrom start⟩

/-- An attribute, from behind its name. -/
def attrDecl (name : String) (start : Nat) : m AttrDecl := do
  let _ ← expectSymbol .colon "Expected `:` after attribute name"
  let ty ← typeName "Expected an attribute type"
  let init ← optionalAfter (.symbol .assign) expr
  return ⟨name, ty, init, ← spanFrom start⟩

def feature : m Feature := do
  let (name, place) ← identifier "Expected an attribute or method name"
  if ← accept (.symbol .lparen) then
    return .method (← methodDecl name place.start)
  else
    return .attr (← attrDecl name place.start)

/-- A feature and the semicolon that ends it. -/
def member : m Feature := do
  let f ← feature
  let _ ← withHelp "Every attribute and method ends with `;`"
    (expectSymbol .semi "Expected `;` after feature")
  return f

def classDecl : m ClassDecl := do
  let place ← expectKeyword .classKw "Expected `class`"
  let id ← freshId
  let name ← typeName "Expected a class name"
  let parent ← optionalAfter (.keyword .inheritsKw)
    (typeName "Expected a parent class name after `inherits`")
  let _ ← expectSymbol .lbrace "Expected `\x7b` to open the class body"
  let features ← manyBefore member (.symbol .rbrace)
  let _ ← expectSymbol .rbrace "Expected `\x7d` to close the class body"
  let _ ← withHelp ("Try: class " ++ name ++ " \x7b ... \x7d;")
    (expectSymbol .semi "Expected `;` after class")
  return ⟨id, name, parent, features, ← spanFrom place.start⟩

/-! ## Where a class cannot be read -/

/-- Passes over tokens up to the next word `class`. -/
def skipToClassN : Nat → m Unit
  | 0 => return
  | fuel + 1 => do
    match ← next? with
    | none => return
    | some t =>
      if t.kind = .keyword .classKw then
        return
      else
        advance
        skipToClassN fuel

/-- Passes over the next token, and all that follow it up to the next word `class`. -/
def resync : m Unit := do
  match ← next? with
  | none => return
  | some _ =>
    advance
    skipToClassN (← left)

end

/-- The state that `p` leaves behind, whether it succeeds or not. -/
def stateAfter {α : Type} (p : Parser α) (s : State) : State :=
  match p s with
  | .ok (_, s) => s
  | .error e => e.state

/-- The error that a failure amounts to in a text that ends at `stop`. -/
def Failure.toError (stop : Nat) (e : Failure) : SyntaxError :=
  match e.rest with
  | t :: _ => ⟨e.expected ++ ", found " ++ t.kind.description, e.expected, e.help, t.span⟩
  | [] => ⟨e.expected ++ ", found " ++ TokenKind.endOfInput, e.expected, e.help, stop, stop⟩

/-- The classes in the input and the failures between them. Every class and every failure uses up a
token, so the number of tokens is enough fuel. -/
def classesN : Nat → State → List ClassDecl × List Failure
  | 0, _ => ([], [])
  | fuel + 1, s =>
    if s.rest.isEmpty then
      ([], [])
    else
      match (classDecl : Parser ClassDecl) s with
      | .ok (c, s) =>
        let (classes, failures) := classesN fuel s
        (c :: classes, failures)
      | .error e =>
        let (classes, failures) := classesN fuel (stateAfter resync e.state)
        (classes, e :: failures)

/-- What is missing in a text without any class. -/
def noClass : Failure :=
  ⟨"Expected a class declaration",
    some "A program is a sequence of `class Name \x7b ... \x7d;` declarations", ⟨[], 0, 0⟩⟩

/-- Reads a program from all tokens of a text. -/
def program (input : TokenStream) : Except (List SyntaxError) Program :=
  match classesN input.tokens.length ⟨input.tokens, 0, 0⟩ with
  | ([], []) => .error [noClass.toError input.stop]
  | (classes, []) => .ok ⟨classes⟩
  | (_, failures) => .error (failures.map (·.toError input.stop))

end Parser

/-- Reads a program. Faults of the text itself are reported before any parsing. -/
def parse (source : String) : Except (List SyntaxError) Program :=
  match lex source with
  | .ok input => Parser.program input
  | .error errors => .error (errors.map SyntaxError.ofLexError)

end CoolTyping
