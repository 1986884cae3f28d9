import CoolTyping.Span
import CoolTyping.Token
import CoolTyping.TypeName

/-!
# Expressions

The expressions of a program, with the places where they stand. `Expr.children` lists the direct
parts of an expression, `Expr.walk` all its parts, each before its own parts.
-/

namespace CoolTyping

/-- Number of a construct that opens a scope. The parser gives every such construct its own. -/
abbrev NodeId := Nat

inductive BinaryOp where
  | add | sub | mul | div | lt | le | eq
deriving DecidableEq

namespace BinaryOp

def symbol : BinaryOp → Symbol
  | add => .plus
  | sub => .minus
  | mul => .star
  | div => .slash
  | lt => .lt
  | le => .le
  | eq => .eq

/-- The other operators compare. -/
def isArithmetic : BinaryOp → Bool
  | add | sub | mul | div => true
  | lt | le | eq => false

end BinaryOp

inductive UnaryOp where
  | not | negate | isvoid
deriving DecidableEq

/-- The name that a `let` binding or a `case` arm introduces, with its declared type and the scope
that it opens. -/
structure Binder where
  id : NodeId
  name : String
  ty : TypeName
  span : Span
deriving DecidableEq

inductive Expr where
  | assign (span : Span) (name : String) (value : Expr)
  /-- A call of a method, on `self` if no receiver is written. -/
  | dispatch (span : Span) (receiver : Option Expr) (method : String) (args : List Expr)
  /-- A call of the method that a named ancestor of the receiver's class has. -/
  | staticDispatch (span : Span) (receiver : Expr) (ancestor : TypeName) (method : String)
      (args : List Expr)
  | cond (span : Span) (test thenBranch elseBranch : Expr)
  | loop (span : Span) (test body : Expr)
  | letIn (span : Span) (bindings : List (Binder × Option Expr)) (body : Expr)
  | caseOf (span : Span) (scrutinee : Expr) (arms : List (Binder × Expr))
  | block (span : Span) (body : List Expr)
  | binary (span : Span) (op : BinaryOp) (left right : Expr)
  | unary (span : Span) (op : UnaryOp) (operand : Expr)
  | new (span : Span) (ty : TypeName)
  | paren (span : Span) (inner : Expr)
  | ident (span : Span) (name : String)
  | int (span : Span) (value : Int)
  | str (span : Span) (value : String)
  | bool (span : Span) (value : Bool)

namespace Expr

def span : Expr → Span
  | assign s .. | dispatch s .. | staticDispatch s .. | cond s .. | loop s .. | letIn s ..
  | caseOf s .. | block s .. | binary s .. | unary s .. | new s .. | paren s .. | ident s ..
  | int s .. | str s .. | bool s .. => s

/-- The variable whose value the expression is: one that it names or assigns, through parentheses. -/
def variableName? : Expr → Option String
  | ident _ name => some name
  | assign _ name _ => some name
  | paren _ inner => inner.variableName?
  | _ => none

/-- The direct parts, in the order in which they are written. -/
def children : Expr → List Expr
  | assign _ _ value => [value]
  | dispatch _ receiver _ args => receiver.toList ++ args
  | staticDispatch _ receiver _ _ args => receiver :: args
  | cond _ test thenBranch elseBranch => [test, thenBranch, elseBranch]
  | loop _ test body => [test, body]
  | letIn _ bindings body => bindings.filterMap (·.2) ++ [body]
  | caseOf _ scrutinee arms => scrutinee :: arms.map (·.2)
  | block _ body => body
  | binary _ _ left right => [left, right]
  | unary _ _ operand => [operand]
  | paren _ inner => [inner]
  | new .. | ident .. | int .. | str .. | bool .. => []

mutual

/-- The expression and all its parts, each before its own parts. -/
def walk (e : Expr) : List Expr :=
  e :: match e with
    | assign _ _ value => value.walk
    | dispatch _ none _ args => walkAll args
    | dispatch _ (some receiver) _ args => receiver.walk ++ walkAll args
    | staticDispatch _ receiver _ _ args => receiver.walk ++ walkAll args
    | cond _ test thenBranch elseBranch => test.walk ++ thenBranch.walk ++ elseBranch.walk
    | loop _ test body => test.walk ++ body.walk
    | letIn _ bindings body => walkInits bindings ++ body.walk
    | caseOf _ scrutinee arms => scrutinee.walk ++ walkArms arms
    | block _ body => walkAll body
    | binary _ _ left right => left.walk ++ right.walk
    | unary _ _ operand => operand.walk
    | paren _ inner => inner.walk
    | new .. | ident .. | int .. | str .. | bool .. => []
termination_by structural e

def walkAll : List Expr → List Expr
  | [] => []
  | e :: es => e.walk ++ walkAll es
termination_by structural es => es

def walkInits : List (Binder × Option Expr) → List Expr
  | [] => []
  | (_, none) :: bindings => walkInits bindings
  | (_, some init) :: bindings => init.walk ++ walkInits bindings
termination_by structural bindings => bindings

def walkArms : List (Binder × Expr) → List Expr
  | [] => []
  | (_, body) :: arms => body.walk ++ walkArms arms
termination_by structural arms => arms

end

/-- The names that the expression itself introduces, not counting its parts. -/
def ownBinders : Expr → List Binder
  | letIn _ bindings _ => bindings.map (·.1)
  | caseOf _ _ arms => arms.map (·.1)
  | _ => []

/-- All names introduced in the expression. -/
def binders (e : Expr) : List Binder := e.walk.flatMap ownBinders

end Expr

end CoolTyping
