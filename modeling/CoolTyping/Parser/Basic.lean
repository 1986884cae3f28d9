import CoolTyping.Expr
import CoolTyping.SyntaxError

/-!
# Parsers

Parsers are written against an interface, `TokenReader`: they look at the next two tokens, read a token,
number scopes, and fail where the next token does not fit.

`Parser` is the simplest reader. It takes tokens from the front of what is left of the input. It also knows
where the last token that it read ends, which gives the spans of what it builds, and which number the next
scope gets. A parser that fails tells what it expected and in which state.
-/

namespace CoolTyping

/-- What parsers are made of. -/
class TokenReader (m : Type → Type) extends Monad m where
  /-- The next token, if there is one. -/
  next? : m (Option Token)
  /-- The token behind the next one. -/
  second? : m (Option Token)
  /-- Reads the next token. -/
  advance : m Unit
  /-- Fails in front of the next token. -/
  fail {α : Type} (expected : String) (help : Option String) : m α
  /-- Gives failures of `p` the help text `help`. -/
  withHelp {α : Type} (help : String) (p : m α) : m α
  /-- The number of a new scope. -/
  freshId : m NodeId
  /-- From `start` to the end of the token read last. -/
  spanFrom (start : Nat) : m Span
  /-- The number of tokens that are left. -/
  left : m Nat

namespace Parser

structure State where
  rest : List Token
  /-- End of the token read last. -/
  lastStop : Nat
  nextId : Nat

/-- The state behind the token `t`, the first one of the input. -/
def State.advance (s : State) (t : Token) (rest : List Token) : State :=
  { s with rest := rest, lastStop := t.span.stop }

/-- Something was expected in front of the tokens that are left in `state`. -/
structure Failure where
  expected : String
  help : Option String
  state : State

def Failure.rest (e : Failure) : List Token := e.state.rest

end Parser

def Parser (α : Type) : Type := Parser.State → Except Parser.Failure (α × Parser.State)

namespace Parser

section

variable {α β : Type}

protected def pure (a : α) : Parser α := fun s => .ok (a, s)

protected def bind (p : Parser α) (f : α → Parser β) : Parser β := fun s =>
  match p s with
  | .ok (a, s) => f a s
  | .error e => .error e

instance : Monad Parser where
  pure := Parser.pure
  bind := Parser.bind

instance : TokenReader Parser where
  next? s := .ok (s.rest.head?, s)
  second? s := .ok (s.rest.tail.head?, s)
  advance s :=
    match s.rest with
    | t :: rest => .ok ((), s.advance t rest)
    | [] => .ok ((), s)
  fail expected help s := .error ⟨expected, help, s⟩
  withHelp help p s :=
    match p s with
    | .ok r => .ok r
    | .error e => .error { e with help := some help }
  freshId s := .ok (s.nextId, { s with nextId := s.nextId + 1 })
  spanFrom start s := .ok (⟨start, max s.lastStop start⟩, s)
  left s := .ok (s.rest.length, s)

end

export TokenReader (next? second? advance fail withHelp freshId spanFrom left)

variable {m : Type → Type} [TokenReader m] {α : Type}

/-! ## Single tokens -/

/-- The kind of the next token. -/
def peek : m (Option TokenKind) := return (← next?).map (·.kind)

/-- Reads the next token if it is of kind `kind`. -/
def accept (kind : TokenKind) : m Bool := do
  match ← next? with
  | some t =>
    if t.kind = kind then
      advance
      return true
    else
      return false
  | none => return false

/-- Reads a token of kind `kind` and gives its place. -/
def expect (kind : TokenKind) (expected : String) : m Span := do
  match ← next? with
  | some t =>
    if t.kind = kind then
      advance
      return t.span
    else
      fail expected none
  | none => fail expected none

def expectSymbol (sign : Symbol) (expected : String) : m Span := expect (.symbol sign) expected

def expectKeyword (word : Keyword) (expected : String) : m Span := expect (.keyword word) expected

/-- Reads an identifier and gives its name and place. -/
def identifier (expected : String) : m (String × Span) := do
  match ← next? with
  | some ⟨.identifier name, span⟩ =>
    advance
    return (name, span)
  | _ => fail expected none

/-- Reads the name of a type. -/
def typeName (expected : String) : m TypeName := do
  match ← next? with
  | some ⟨.typeName name, _⟩ =>
    advance
    return name
  | some ⟨.identifier name, _⟩ =>
    fail expected (some ("Type names start with an uppercase letter, not `" ++ name ++ "`"))
  | _ => fail expected none

/-- What `p` reads behind a token of kind `kind`, if the next token is one. -/
def optionalAfter (kind : TokenKind) (p : m α) : m (Option α) := do
  if ← accept kind then
    return some (← p)
  else
    return none

/-! ## Repetition

Each repetition takes the number of tokens left as its fuel. The items read at least one token each,
so the fuel lasts. -/

/-- One or more items, with the sign `sep` between them. -/
def sepByN (item : m α) (sep : Symbol) : Nat → m (List α)
  | 0 => do return [← item]
  | fuel + 1 => do
    let a ← item
    if ← accept (.symbol sep) then
      return a :: (← sepByN item sep fuel)
    else
      return [a]

def sepBy (item : m α) (sep : Symbol) : m (List α) := do sepByN item sep (← left)

/-- Items with the sign `sep` between them, or none in front of the sign `close`, which is left
unread. -/
def sepByBefore (item : m α) (sep close : Symbol) : m (List α) := do
  if (← peek) = some (.symbol close) then
    return []
  else
    sepBy item sep

/-- One or more items, up to a token of kind `close`, which is read too. -/
def someUntilN (item : m α) (close : TokenKind) : Nat → m (List α)
  | 0 => do return [← item]
  | fuel + 1 => do
    let a ← item
    if ← accept close then
      return [a]
    else
      return a :: (← someUntilN item close fuel)

def someUntil (item : m α) (close : TokenKind) : m (List α) := do someUntilN item close (← left)

/-- Items up to a token of kind `close`, which is left unread, or up to the end of the input. -/
def manyBeforeN (item : m α) (close : TokenKind) : Nat → m (List α)
  | 0 => return []
  | fuel + 1 => do
    match ← peek with
    | none => return []
    | some kind =>
      if kind = close then
        return []
      else
        let a ← item
        return a :: (← manyBeforeN item close fuel)

def manyBefore (item : m α) (close : TokenKind) : m (List α) := do manyBeforeN item close (← left)

end Parser

end CoolTyping
