import CoolTyping.Expr

/-!
# Programs

A program is a list of classes; a class has attributes and methods.
-/

namespace CoolTyping

structure AttrDecl where
  name : String
  ty : TypeName
  init : Option Expr
  span : Span

structure Param where
  name : String
  ty : TypeName
  span : Span
deriving DecidableEq

structure MethodDecl where
  id : NodeId
  name : String
  params : List Param
  ret : TypeName
  body : Expr
  span : Span

inductive Feature where
  | attr (decl : AttrDecl)
  | method (decl : MethodDecl)

structure ClassDecl where
  id : NodeId
  name : TypeName
  parent : Option TypeName
  features : List Feature
  span : Span

structure Program where
  classes : List ClassDecl

namespace Feature

def attr? : Feature → Option AttrDecl
  | attr decl => some decl
  | method _ => none

def method? : Feature → Option MethodDecl
  | attr _ => none
  | method decl => some decl

def name : Feature → String
  | attr decl => decl.name
  | method decl => decl.name

/-- The expression of the feature: an initial value or a method's body. -/
def expr? : Feature → Option Expr
  | attr decl => decl.init
  | method decl => some decl.body

/-- The types declared in the feature, in the order in which they are written outside of its
expression, and then in it. -/
def declaredTypes : Feature → List TypeName
  | attr decl => decl.ty :: (decl.init.elim [] Expr.binders).map (·.ty)
  | method decl => decl.params.map (·.ty) ++ decl.ret :: decl.body.binders.map (·.ty)

end Feature

namespace ClassDecl

def attributes (c : ClassDecl) : List AttrDecl := c.features.filterMap Feature.attr?

def methods (c : ClassDecl) : List MethodDecl := c.features.filterMap Feature.method?

end ClassDecl

namespace Program

/-- The types declared for attributes, parameters, results, `let` bindings and `case` arms. -/
def declaredTypes (p : Program) : List TypeName :=
  p.classes.flatMap fun c => c.features.flatMap Feature.declaredTypes

/-- Whether some type is left to be inferred. -/
def hasPlaceholders (p : Program) : Bool := p.declaredTypes.any (· == TypeName.auto)

end Program

end CoolTyping
