import CoolTyping.Token

/-!
# From text to tokens

`lex` cuts a text into tokens and drops the blanks and comments between them. Characters that fit no
token are faults; cutting goes on behind them, so one run finds all faults of a text.
-/

namespace CoolTyping

/-- What can be wrong with the text at one place. -/
inductive LexFault where
  | openComment
  | openString
  | integerTooLarge
  | unexpected (c : Char)
deriving DecidableEq

def LexFault.message : LexFault → String
  | openComment => "Unterminated block comment"
  | openString => "Unterminated string literal"
  | integerTooLarge => "Integer literal is out of range"
  | unexpected c => "Unexpected character `" ++ String.singleton c ++ "`"

structure LexError where
  fault : LexFault
  span : Span
deriving DecidableEq

def LexError.message (e : LexError) : String := e.fault.message

namespace Lexer

/-- What stands at the front of a text. -/
inductive Lexeme where
  | blank
  | token (kind : TokenKind)
  | fault (fault : LexFault)
deriving DecidableEq

/-- The first lexeme of a text, the characters it covers, and those that follow. -/
structure Cut where
  lexeme : Lexeme
  text : List Char
  rest : List Char

/-! ## Blanks and comments -/

/-- Space, tab, carriage return and line feed. -/
def isBlank (c : Char) : Bool := c == ' ' || c == '\t' || c == '\r' || c == '\n'

def endsLine (c : Char) : Bool := c == '\r' || c == '\n'

/-- Cuts a text in front of and behind the first `*)`. -/
def closeComment? : List Char → Option (List Char × List Char)
  | [] => none
  | '*' :: ')' :: rest => some ([], rest)
  | c :: rest => (closeComment? rest).map fun (body, rest) => (c :: body, rest)

/-- A comment from `--` runs to the end of the line, or of the text. A carriage return ends a line
only in front of a line feed; with any other carriage return behind it, `--` opens no comment. -/
def lineComment? (cs : List Char) : Option (List Char × List Char) :=
  match cs with
  | '-' :: '-' :: tail =>
    let body := tail.takeWhile (!endsLine ·)
    let rest := tail.dropWhile (!endsLine ·)
    match rest with
    | '\r' :: '\n' :: _ => some ('-' :: '-' :: body, rest)
    | '\r' :: _ => none
    | _ => some ('-' :: '-' :: body, rest)
  | _ => none

/-- Comments between `(*` and `*)` do not nest. -/
def blockComment? (cs : List Char) : Option (List Char × List Char) :=
  match cs with
  | '(' :: '*' :: tail =>
    (closeComment? tail).map fun (body, rest) => ('(' :: '*' :: body ++ ['*', ')'], rest)
  | _ => none

/-- A run of blanks or one comment. -/
def blank? (cs : List Char) : Option (List Char × List Char) :=
  match cs with
  | [] => none
  | c :: _ =>
    if isBlank c then some (cs.takeWhile isBlank, cs.dropWhile isBlank)
    else (lineComment? cs).or (blockComment? cs)

/-! ## Words, numbers and signs -/

def isWordPart (c : Char) : Bool := c.isAlphanum || c == '_'

/-- A word is reserved, or names a type if it starts with a capital letter, or else a variable. -/
def wordKind (word : List Char) : TokenKind :=
  match Keyword.ofText? (String.ofList word) with
  | some k => .keyword k
  | none =>
    match word with
    | c :: _ => if c.isUpper then .typeName (String.ofList word) else .identifier (String.ofList word)
    | [] => .identifier ""

/-- Integer literals are below `2 ^ 63`. -/
def maxInteger : Nat := 9223372036854775807

def decimal (digits : List Char) : Nat :=
  digits.foldl (fun n d => 10 * n + (d.toNat - '0'.toNat)) 0

/-- The longest sign at the front of a text. `->` is another way to write `=>`. -/
def symbol? : List Char → Option (Symbol × List Char × List Char)
  | '<' :: '-' :: rest => some (.assign, ['<', '-'], rest)
  | '<' :: '=' :: rest => some (.le, ['<', '='], rest)
  | '=' :: '>' :: rest => some (.arrow, ['=', '>'], rest)
  | '-' :: '>' :: rest => some (.arrow, ['-', '>'], rest)
  | '<' :: rest => some (.lt, ['<'], rest)
  | '=' :: rest => some (.eq, ['='], rest)
  | '+' :: rest => some (.plus, ['+'], rest)
  | '-' :: rest => some (.minus, ['-'], rest)
  | '*' :: rest => some (.star, ['*'], rest)
  | '/' :: rest => some (.slash, ['/'], rest)
  | '~' :: rest => some (.tilde, ['~'], rest)
  | '@' :: rest => some (.atSign, ['@'], rest)
  | '.' :: rest => some (.dot, ['.'], rest)
  | ',' :: rest => some (.comma, [','], rest)
  | ':' :: rest => some (.colon, [':'], rest)
  | ';' :: rest => some (.semi, [';'], rest)
  | '\x7b' :: rest => some (.lbrace, ['\x7b'], rest)
  | '\x7d' :: rest => some (.rbrace, ['\x7d'], rest)
  | '(' :: rest => some (.lparen, ['('], rest)
  | ')' :: rest => some (.rparen, [')'], rest)
  | _ => none

/-! ## One lexeme -/

/-- The lexeme at the front of `c :: cs`, which is not blank. A comment or a string that is never
closed takes the whole text. -/
def cutSolid (c : Char) (cs : List Char) : Cut :=
  if c == '(' && cs.head? == some '*' then ⟨.fault .openComment, c :: cs, []⟩
  else if c == '"' then
    match Quoted.unquote? cs with
    | some q => ⟨.token (.string (String.ofList q.value)), c :: q.text, q.rest⟩
    | none => ⟨.fault .openString, c :: cs, []⟩
  else if c.isAlpha then
    let word := c :: cs.takeWhile isWordPart
    ⟨.token (wordKind word), word, cs.dropWhile isWordPart⟩
  else if c.isDigit then
    let digits := c :: cs.takeWhile Char.isDigit
    let value := decimal digits
    if value ≤ maxInteger then ⟨.token (.integer value), digits, cs.dropWhile Char.isDigit⟩
    else ⟨.fault .integerTooLarge, digits, cs.dropWhile Char.isDigit⟩
  else
    match symbol? (c :: cs) with
    | some (sign, text, rest) => ⟨.token (.symbol sign), text, rest⟩
    | none => ⟨.fault (.unexpected c), [c], cs⟩

def cut (c : Char) (cs : List Char) : Cut :=
  match blank? (c :: cs) with
  | some (text, rest) => ⟨.blank, text, rest⟩
  | none => cutSolid c cs

/-! ## The whole text -/

/-- Number of bytes of the UTF-8 form. -/
def width (cs : List Char) : Nat := cs.foldr (fun c n => c.utf8Size + n) 0

/-- Tokens and faults in the order of the text `cs`, which starts at `offset`. Every lexeme covers a
character, so the length of the text is enough fuel. -/
def cutAll : Nat → Nat → List Char → List (Except LexError Token)
  | 0, _, _ => []
  | _ + 1, _, [] => []
  | fuel + 1, offset, c :: cs =>
    let next := cut c cs
    let stop := offset + width next.text
    match next.lexeme with
    | .blank => cutAll fuel stop next.rest
    | .token kind => .ok ⟨kind, offset, stop⟩ :: cutAll fuel stop next.rest
    | .fault fault => .error ⟨fault, offset, stop⟩ :: cutAll fuel stop next.rest

/-- The tokens among the results. -/
def tokensOf (results : List (Except LexError Token)) : List Token :=
  results.filterMap fun
    | .ok token => some token
    | .error _ => none

/-- The faults among the results. -/
def errorsOf (results : List (Except LexError Token)) : List LexError :=
  results.filterMap fun
    | .ok _ => none
    | .error e => some e

end Lexer

/-- The tokens of a text, or all its faults if there are any. -/
def lex (source : String) : Except (List LexError) TokenStream :=
  let cs := source.toList
  let results := Lexer.cutAll cs.length 0 cs
  match Lexer.errorsOf results with
  | [] => .ok ⟨Lexer.tokensOf results, Lexer.width cs⟩
  | errors => .error errors

end CoolTyping
