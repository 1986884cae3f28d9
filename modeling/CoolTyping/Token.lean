import CoolTyping.Span
import CoolTyping.Token.Quoted

/-!
# Tokens

The words and signs a program is made of. Each kind of token has a text, which is how it is written
in a program, and a description, which is how messages speak of it.
-/

namespace CoolTyping

/-- Reserved words. -/
inductive Keyword where
  | classKw | inheritsKw | ifKw | thenKw | elseKw | fiKw | whileKw | loopKw | poolKw | letKw | inKw
  | caseKw | ofKw | esacKw | newKw | isvoidKw | notKw | trueKw | falseKw
deriving DecidableEq

namespace Keyword

def text : Keyword → String
  | classKw => "class"
  | inheritsKw => "inherits"
  | ifKw => "if"
  | thenKw => "then"
  | elseKw => "else"
  | fiKw => "fi"
  | whileKw => "while"
  | loopKw => "loop"
  | poolKw => "pool"
  | letKw => "let"
  | inKw => "in"
  | caseKw => "case"
  | ofKw => "of"
  | esacKw => "esac"
  | newKw => "new"
  | isvoidKw => "isvoid"
  | notKw => "not"
  | trueKw => "true"
  | falseKw => "false"

def all : List Keyword :=
  [classKw, inheritsKw, ifKw, thenKw, elseKw, fiKw, whileKw, loopKw, poolKw, letKw, inKw, caseKw,
    ofKw, esacKw, newKw, isvoidKw, notKw, trueKw, falseKw]

def ofText? (word : String) : Option Keyword := all.find? fun k => k.text == word

end Keyword

/-- Operators and punctuation. -/
inductive Symbol where
  | assign | arrow | le | lt | eq | plus | minus | star | slash | tilde | atSign | dot | comma
  | colon | semi | lbrace | rbrace | lparen | rparen
deriving DecidableEq

def Symbol.text : Symbol → String
  | assign => "<-"
  | arrow => "=>"
  | le => "<="
  | lt => "<"
  | eq => "="
  | plus => "+"
  | minus => "-"
  | star => "*"
  | slash => "/"
  | tilde => "~"
  | atSign => "@"
  | dot => "."
  | comma => ","
  | colon => ":"
  | semi => ";"
  | lbrace => "\x7b"
  | rbrace => "\x7d"
  | lparen => "("
  | rparen => ")"

inductive TokenKind where
  | typeName (name : String)
  | identifier (name : String)
  | integer (value : Nat)
  /-- A string literal, by the text that it stands for. -/
  | string (value : String)
  | keyword (word : Keyword)
  | symbol (sign : Symbol)
deriving DecidableEq

namespace TokenKind

/-- How the token is written. -/
def text : TokenKind → String
  | typeName name => name
  | identifier name => name
  | integer value => toString value
  | string value => "\"" ++ String.ofList (Quoted.escape value.toList) ++ "\""
  | keyword word => word.text
  | symbol sign => sign.text

/-- How messages speak of the token. -/
def description : TokenKind → String
  | typeName name => "type `" ++ name ++ "`"
  | identifier name => "identifier `" ++ name ++ "`"
  | integer value => "integer `" ++ toString value ++ "`"
  | string _ => "string literal"
  | keyword word => "`" ++ word.text ++ "`"
  | symbol sign => "`" ++ sign.text ++ "`"

/-- How messages speak of the place behind the last token. -/
def endOfInput : String := "end of input"

end TokenKind

structure Token where
  kind : TokenKind
  span : Span
deriving DecidableEq

/-- The tokens of a text, and the offset at which the text ends. -/
structure TokenStream where
  tokens : List Token
  stop : Nat
deriving DecidableEq

end CoolTyping
