import CoolTyping.Program

/-!
# Printing programs

A program is laid out as a list of pieces, each a token or a gap of blanks, and printed by writing
the pieces one after the other. Scopes are indented by two blanks each.
-/

namespace CoolTyping

namespace Printer

inductive Piece where
  | token (kind : TokenKind)
  | gap (blanks : String)
deriving DecidableEq

def Piece.text : Piece → String
  | token kind => kind.text
  | gap blanks => blanks

/-- The tokens among the pieces. -/
def tokensOf (pieces : List Piece) : List TokenKind :=
  pieces.filterMap fun
    | .token kind => some kind
    | .gap _ => none

/-- What the pieces look like on paper. -/
def render (pieces : List Piece) : String := String.join (pieces.map Piece.text)

def sym (s : Symbol) : Piece := .token (.symbol s)

def word (k : Keyword) : Piece := .token (.keyword k)

def name (n : String) : Piece := .token (.identifier n)

def type (n : TypeName) : Piece := .token (.typeName n)

/-- One blank. -/
def sp : Piece := .gap " "

/-- A new line. -/
def newline : Piece := .gap "\n"

def indent (n : Nat) : Piece := .gap (String.ofList (List.replicate n ' '))

/-- `x : T` -/
def declared (n : String) (ty : TypeName) : List Piece := [name n, sp, sym .colon, sp, type ty]

/-- A number, with its sign in front if it is negative. -/
def number (value : Int) : List Piece :=
  if value < 0 then [sym .minus, .token (.integer value.natAbs)]
  else [.token (.integer value.natAbs)]

def operatorPieces : UnaryOp → List Piece
  | .not => [word .notKw, sp]
  | .negate => [sym .tilde]
  | .isvoid => [word .isvoidKw, sp]

mutual

/-- Lays out an expression in a line indented by `n` blanks. -/
def expr (n : Nat) : Expr → List Piece
  | .assign _ x value => name x :: sp :: sym .assign :: sp :: expr n value
  | .dispatch _ none method args =>
    name method :: sym .lparen :: arguments n args ++ [sym .rparen]
  | .dispatch _ (some receiver) method args =>
    expr n receiver ++ sym .dot :: name method :: sym .lparen :: arguments n args ++ [sym .rparen]
  | .staticDispatch _ receiver ancestor method args =>
    expr n receiver ++ sym .atSign :: type ancestor :: sym .dot :: name method :: sym .lparen ::
      arguments n args ++ [sym .rparen]
  | .cond _ test thenBranch elseBranch =>
    word .ifKw :: sp :: expr n test ++ sp :: word .thenKw :: sp :: expr n thenBranch ++
      sp :: word .elseKw :: sp :: expr n elseBranch ++ [sp, word .fiKw]
  | .loop _ test body =>
    word .whileKw :: sp :: expr n test ++ sp :: word .loopKw :: sp :: expr n body ++
      [sp, word .poolKw]
  | .letIn _ bindings body =>
    word .letKw :: sp :: bindingList n bindings ++ sp :: word .inKw :: sp :: expr n body
  | .caseOf _ scrutinee arms =>
    word .caseKw :: sp :: expr n scrutinee ++ sp :: word .ofKw :: newline :: armList n arms ++
      [indent n, word .esacKw]
  | .block _ body => sym .lbrace :: newline :: statements n body ++ [indent n, sym .rbrace]
  | .binary _ op left right => expr n left ++ sp :: sym op.symbol :: sp :: expr n right
  | .unary _ op operand => operatorPieces op ++ expr n operand
  | .new _ ty => [word .newKw, sp, type ty]
  | .paren _ inner => sym .lparen :: expr n inner ++ [sym .rparen]
  | .ident _ x => [name x]
  | .int _ value => number value
  | .str _ value => [.token (.string value)]
  | .bool _ value => [word (if value then .trueKw else .falseKw)]
termination_by structural e => e

def arguments (n : Nat) : List Expr → List Piece
  | [] => []
  | e :: es => expr n e ++ moreArguments n es
termination_by structural es => es

def moreArguments (n : Nat) : List Expr → List Piece
  | [] => []
  | e :: es => sym .comma :: sp :: expr n e ++ moreArguments n es
termination_by structural es => es

/-- The initial value of a name, if it has one. -/
def initial (n : Nat) : Option Expr → List Piece
  | none => []
  | some e => sp :: sym .assign :: sp :: expr n e
termination_by structural init => init

def bindingList (n : Nat) : List (Binder × Option Expr) → List Piece
  | [] => []
  | (b, init) :: bindings =>
    declared b.name b.ty ++ initial n init ++ moreBindings n bindings
termination_by structural bindings => bindings

def moreBindings (n : Nat) : List (Binder × Option Expr) → List Piece
  | [] => []
  | (b, init) :: bindings =>
    sym .comma :: sp :: declared b.name b.ty ++ initial n init ++ moreBindings n bindings
termination_by structural bindings => bindings

/-- The arms of a `case`, one a line, indented deeper than the `case`. -/
def armList (n : Nat) : List (Binder × Expr) → List Piece
  | [] => []
  | (b, body) :: arms =>
    indent (n + 2) :: declared b.name b.ty ++ sp :: sym .arrow :: sp :: expr (n + 2) body ++
      sym .semi :: newline :: armList n arms
termination_by structural arms => arms

/-- The expressions of a block, one a line, indented deeper than the block. -/
def statements (n : Nat) : List Expr → List Piece
  | [] => []
  | e :: es => indent (n + 2) :: expr (n + 2) e ++ sym .semi :: newline :: statements n es
termination_by structural es => es

end

def attrDecl (a : AttrDecl) : List Piece :=
  indent 2 :: declared a.name a.ty ++ initial 2 a.init ++ [sym .semi, newline]

def params : List Param → List Piece
  | [] => []
  | p :: ps =>
    declared p.name p.ty ++ ps.flatMap fun p => sym .comma :: sp :: declared p.name p.ty

def methodDecl (m : MethodDecl) : List Piece :=
  indent 2 :: name m.name :: sym .lparen :: params m.params ++
    [sym .rparen, sp, sym .colon, sp, type m.ret, sp, sym .lbrace, newline, indent 4] ++
    expr 4 m.body ++ [newline, indent 2, sym .rbrace, sym .semi, newline]

def feature : Feature → List Piece
  | .attr a => attrDecl a
  | .method m => methodDecl m

def classDecl (c : ClassDecl) : List Piece :=
  word .classKw :: sp :: type c.name ::
    (c.parent.elim [] fun parent => [sp, word .inheritsKw, sp, type parent]) ++
    [sp, sym .lbrace, newline] ++ c.features.flatMap feature ++ [sym .rbrace, sym .semi, newline]

/-- The classes, with an empty line between them. -/
def program (p : Program) : List Piece :=
  match p.classes with
  | [] => []
  | c :: cs => classDecl c ++ cs.flatMap fun c => newline :: classDecl c

end Printer

/-- The text of a program in the standard layout. -/
def Program.format (p : Program) : String := Printer.render (Printer.program p)

end CoolTyping
