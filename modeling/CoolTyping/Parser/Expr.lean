import CoolTyping.Expr
import CoolTyping.Parser.Basic

/-!
# Parsing expressions

One parser per level of binding strength, the loosest last. The parsers of this module take the
parser for whole expressions as an argument; `Parser.expr` ties the knot. A nested expression stands
behind at least one token of the one around it, so the number of tokens left bounds the depth.
-/

namespace CoolTyping.Parser

variable {m : Type → Type} [TokenReader m]

/-! ## Parts of expressions -/

/-- Arguments in parentheses. -/
def arguments (expr : m Expr) : m (List Expr) := do
  let _ ← expectSymbol .lparen "Expected `(` before arguments"
  let args ← sepByBefore expr .comma .rparen
  let _ ← expectSymbol .rparen "Expected `)` after arguments"
  return args

/-- A binding of `let`. Its scope is numbered behind those inside its initial value. -/
def binding (expr : m Expr) : m (Binder × Option Expr) := do
  let (name, place) ← identifier "Expected a name in `let` binding"
  let _ ← expectSymbol .colon "Expected `:` after `let` binding name"
  let ty ← typeName "Expected a type in `let` binding"
  let init ← optionalAfter (.symbol .assign) expr
  let id ← freshId
  let span ← spanFrom place.start
  return (⟨id, name, ty, span⟩, init)

/-- An arm of `case`. Its scope is numbered behind those inside its body. -/
def arm (expr : m Expr) : m (Binder × Expr) := do
  let (name, place) ← identifier "Expected a name in `case` arm"
  let _ ← expectSymbol .colon "Expected `:` after `case` arm name"
  let ty ← typeName "Expected a type in `case` arm"
  let _ ← expectSymbol .arrow "Expected `=>` in `case` arm"
  let body ← expr
  let _ ← expectSymbol .semi "Expected `;` after `case` arm"
  let id ← freshId
  let span ← spanFrom place.start
  return (⟨id, name, ty, span⟩, body)

/-- An expression of a block. -/
def statement (expr : m Expr) : m Expr := do
  let e ← expr
  let _ ← expectSymbol .semi "Expected `;` after block expression"
  return e

/-! ## Expressions that start with a token of their own

The first token, which tells them apart, has been read; `start` is where it starts. -/

def conditional (expr : m Expr) (start : Nat) : m Expr := do
  let test ← expr
  let _ ← expectKeyword .thenKw "Expected `then` after the condition"
  let thenBranch ← expr
  let _ ← expectKeyword .elseKw "Expected `else` branch"
  let elseBranch ← expr
  let _ ← expectKeyword .fiKw "Expected `fi` to close `if`"
  return .cond (← spanFrom start) test thenBranch elseBranch

def whileLoop (expr : m Expr) (start : Nat) : m Expr := do
  let test ← expr
  let _ ← expectKeyword .loopKw "Expected `loop` after the condition"
  let body ← expr
  let _ ← expectKeyword .poolKw "Expected `pool` to close `while`"
  return .loop (← spanFrom start) test body

def letExpr (expr : m Expr) (start : Nat) : m Expr := do
  let bindings ← sepBy (binding expr) .comma
  let _ ← expectKeyword .inKw "Expected `in` after `let` bindings"
  let body ← expr
  return .letIn (← spanFrom start) bindings body

def caseExpr (expr : m Expr) (start : Nat) : m Expr := do
  let scrutinee ← expr
  let _ ← expectKeyword .ofKw "Expected `of` after `case` expression"
  let arms ← someUntil (arm expr) (.keyword .esacKw)
  return .caseOf (← spanFrom start) scrutinee arms

def newExpr (start : Nat) : m Expr := do
  let ty ← typeName "Expected a type name after `new`"
  return .new (← spanFrom start) ty

def parenthesized (expr : m Expr) (start : Nat) : m Expr := do
  let inner ← expr
  let _ ← expectSymbol .rparen "Expected `)` after expression"
  return .paren (← spanFrom start) inner

def blockExpr (expr : m Expr) (start : Nat) : m Expr := do
  let body ← someUntil (statement expr) (.symbol .rbrace)
  return .block (← spanFrom start) body

/-- A variable, or a call of a method on `self`. -/
def nameOrCall (expr : m Expr) (name : String) (span : Span) : m Expr := do
  if (← peek) = some (.symbol .lparen) then
    let args ← arguments expr
    return .dispatch (← spanFrom span.start) none name args
  else
    return .ident span name

/-- The rest of an expression behind its first token `t`, if an expression can start with `t`. -/
def behindFirst? (expr : m Expr) (t : Token) : Option (m Expr) :=
  match t.kind with
  | .keyword .ifKw => some (conditional expr t.span.start)
  | .keyword .whileKw => some (whileLoop expr t.span.start)
  | .keyword .letKw => some (letExpr expr t.span.start)
  | .keyword .caseKw => some (caseExpr expr t.span.start)
  | .keyword .newKw => some (newExpr t.span.start)
  | .keyword .trueKw => some (return .bool t.span true)
  | .keyword .falseKw => some (return .bool t.span false)
  | .symbol .lparen => some (parenthesized expr t.span.start)
  | .symbol .lbrace => some (blockExpr expr t.span.start)
  | .identifier name => some (nameOrCall expr name t.span)
  | .integer value => some (return .int t.span value)
  | .string value => some (return .str t.span value)
  | _ => none

/-- An expression that no operator takes apart. -/
def atom (expr : m Expr) : m Expr := do
  match (← next?).bind (behindFirst? expr) with
  | some behind =>
    advance
    behind
  | none => fail "Expected an expression" none

/-! ## Levels of binding strength -/

/-- The calls that follow the receiver `e`. -/
def callsN (expr : m Expr) : Nat → Expr → m Expr
  | 0, e => return e
  | fuel + 1, e => do
    if ← accept (.symbol .dot) then
      let (method, _) ← identifier "Expected a method name after `.`"
      let args ← arguments expr
      callsN expr fuel (.dispatch (← spanFrom e.span.start) (some e) method args)
    else if ← accept (.symbol .atSign) then
      let ancestor ← typeName "Expected a type name after `@`"
      let _ ← expectSymbol .dot "Expected `.` after static dispatch type"
      let (method, _) ← identifier "Expected a method name after `.`"
      let args ← arguments expr
      callsN expr fuel (.staticDispatch (← spanFrom e.span.start) e ancestor method args)
    else
      return e

def calls (expr : m Expr) (e : Expr) : m Expr := do callsN expr (← left) e

/-- An operator that stands in front of its operand, any number of times. -/
def unaryN (kind : TokenKind) (op : UnaryOp) (operand : m Expr) : Nat → m Expr
  | 0 => operand
  | fuel + 1 => do
    match ← next? with
    | some t =>
      if t.kind = kind then
        advance
        let e ← unaryN kind op operand fuel
        return .unary ⟨t.span.start, e.span.stop⟩ op e
      else
        operand
    | none => operand

def unary (kind : TokenKind) (op : UnaryOp) (operand : m Expr) : m Expr := do
  unaryN kind op operand (← left)

/-- The operator among `ops` that the next token is. -/
def operator? (ops : List BinaryOp) : m (Option BinaryOp) := do
  match (← next?).bind fun t => ops.find? fun op => t.kind = .symbol op.symbol with
  | some op =>
    advance
    return some op
  | none => return none

def mkBinary (op : BinaryOp) (left right : Expr) : Expr :=
  .binary (left.span.join right.span) op left right

/-- The operators among `ops` that follow `left`, grouped to the left. -/
def chainN (ops : List BinaryOp) (operand : m Expr) : Nat → Expr → m Expr
  | 0, left => return left
  | fuel + 1, left => do
    match ← operator? ops with
    | none => return left
    | some op =>
      let right ← operand
      chainN ops operand fuel (mkBinary op left right)

def chain (ops : List BinaryOp) (operand : m Expr) : m Expr := do
  let first ← operand
  chainN ops operand (← left) first

def postfixed (expr : m Expr) : m Expr := do
  calls expr (← atom expr)

def negated (expr : m Expr) : m Expr :=
  unary (.symbol .tilde) .negate (postfixed expr)

def factor (expr : m Expr) : m Expr :=
  unary (.keyword .isvoidKw) .isvoid (negated expr)

def term (expr : m Expr) : m Expr := chain [.mul, .div] (factor expr)

def sum (expr : m Expr) : m Expr := chain [.add, .sub] (term expr)

/-- Comparisons do not group: at most one operator. -/
def comparison (expr : m Expr) : m Expr := do
  let left ← sum expr
  match ← operator? [.le, .lt, .eq] with
  | none => return left
  | some op => return mkBinary op left (← sum expr)

def negation (expr : m Expr) : m Expr :=
  unary (.keyword .notKw) .not (comparison expr)

/-- An assignment, told by a variable with `<-` behind it, or an expression without one. -/
def assignment (expr : m Expr) : m Expr := do
  match ← next?, ← second? with
  | some ⟨.identifier name, place⟩, some ⟨.symbol .assign, _⟩ =>
    advance
    advance
    let value ← expr
    return .assign (← spanFrom place.start) name value
  | _, _ => negation expr

/-- Expressions nested at most `fuel` deep. -/
def exprN : Nat → m Expr
  | 0 => fail "Expected an expression" none
  | fuel + 1 => assignment (exprN fuel)

def expr : m Expr := do exprN ((← left) + 1)

end CoolTyping.Parser
