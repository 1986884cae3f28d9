import CoolTyping.Parser.Program

/-!
# Parsing with a position

The tokens of a text stand in a row, with the end of the input as the last item. A `Cursor` is a position in
that row. Looking at an item and moving on are clamped, so both are safe wherever the cursor stands, also
behind the end of the input.

`Walk` is a reader of tokens with such a cursor. A failure leaves the cursor where it is, and that is where the
search for the next class begins.
-/

namespace CoolTyping

/-- What stands in the input. -/
inductive Item
  | token (t : Token)
  | eof (stop : Nat)

namespace Item

def span : Item → Span
  | token t => t.span
  | eof stop => ⟨stop, stop⟩

def description : Item → String
  | token t => t.kind.description
  | eof _ => TokenKind.endOfInput

def token? : Item → Option Token
  | token t => some t
  | eof _ => none

end Item

namespace TokenStream

variable (input : TokenStream)

/-- The tokens, and the end of the input behind them. -/
def items : List Item := input.tokens.map .token ++ [.eof input.stop]

theorem length_items : input.items.length = input.tokens.length + 1 := by simp [items]

/-- The item with number `i`, or the last one. -/
def itemAt (i : Nat) : Item :=
  input.items.get ⟨min i (input.items.length - 1), by have := input.length_items; omega⟩

/-- The token with number `i`. -/
def tokenAt? (i : Nat) : Option Token := input.items[i]?.bind Item.token?

end TokenStream

structure Cursor (input : TokenStream) where
  pos : Nat
  /-- End of the item read last. -/
  lastStop : Nat
  nextId : Nat
  /-- The positions before this one, the latest first. Nothing depends on them. -/
  earlier : List Nat

namespace Cursor

variable {input : TokenStream}

def start : Cursor input := ⟨0, 0, 0, []⟩

def positions (c : Cursor input) : List Nat := c.pos :: c.earlier

/-- The item at the cursor. -/
def peek (c : Cursor input) : Item := input.itemAt c.pos

/-- The cursor behind the item that it is at. -/
def advance (c : Cursor input) : Cursor input :=
  { c with
    pos := min (c.pos + 1) input.items.length
    lastStop := c.peek.span.stop
    earlier := c.positions }

def isEof (c : Cursor input) : Bool := (input.tokenAt? c.pos).isNone

def errorHere (c : Cursor input) (expected : String) (help : Option String) : SyntaxError :=
  ⟨expected ++ ", found " ++ c.peek.description, expected, help, c.peek.span⟩

end Cursor

def Walk (input : TokenStream) (α : Type) : Type := Cursor input → Except SyntaxError α × Cursor input

namespace Walk

variable {input : TokenStream} {α β : Type}

protected def pure (a : α) : Walk input α := fun c => (.ok a, c)

protected def bind (p : Walk input α) (f : α → Walk input β) : Walk input β := fun c =>
  match p c with
  | (.ok a, c) => f a c
  | (.error e, c) => (.error e, c)

instance : Monad (Walk input) where
  pure := Walk.pure
  bind := Walk.bind

instance : TokenReader (Walk input) where
  next? c := (.ok (input.tokenAt? c.pos), c)
  second? c := (.ok (input.tokenAt? (c.pos + 1)), c)
  advance c := (.ok (), c.advance)
  fail expected help c := (.error (c.errorHere expected help), c)
  withHelp help p c :=
    let (r, c) := p c
    (r.mapError fun e => { e with help := some help }, c)
  freshId c := (.ok c.nextId, { c with nextId := c.nextId + 1 })
  spanFrom start c := (.ok ⟨start, max c.lastStop start⟩, c)
  left c := (.ok (input.items.length - 1 - c.pos), c)

/-- The classes in the input and the errors between them, and where the cursor is then. -/
def classesN : Nat → Cursor input → (List ClassDecl × List SyntaxError) × Cursor input
  | 0, c => (([], []), c)
  | fuel + 1, c =>
    if c.isEof then
      (([], []), c)
    else
      match (Parser.classDecl : Walk input ClassDecl) c with
      | (.ok d, c) =>
        let ((classes, errors), c) := classesN fuel c
        ((d :: classes, errors), c)
      | (.error e, c) =>
        let ((classes, errors), c) := classesN fuel ((Parser.resync : Walk input Unit) c).2
        ((classes, e :: errors), c)

/-- Reads a program from all tokens of a text. -/
def program (input : TokenStream) : Except (List SyntaxError) Program × Cursor input :=
  match classesN input.tokens.length .start with
  | (([], []), c) => (.error [c.errorHere Parser.noClass.expected Parser.noClass.help], c)
  | ((classes, []), c) => (.ok ⟨classes⟩, c)
  | ((_, errors), c) => (.error errors, c)

end Walk

end CoolTyping
