import CoolTyping.Bag.Tree
import CoolTyping.ClassTable

/-!
# The first bag tree of a program

Every scope of the registered classes gets a bag. Declared types are locked; a placeholder starts
with all concrete types.
-/

namespace CoolTyping

namespace Seed

/-- The entry for a declaration in the class `current`. -/
def entry (ctx : Context) (current : TypeName) (ty : TypeName) (span : Span) : Entry :=
  if ty == TypeName.auto then Entry.ofPlaceholder (TypeSet.ofList ctx.concreteTypes) span
  else if ctx.contains ty then Entry.ofType (ty.resolveSelf current) span
  else Entry.ofType TypeName.error span

/-- Adds the bag that a binder opens inside `bag`. -/
def binder (ctx : Context) (current : TypeName) (bag : BagId) (kind : BagKind) (b : Binder)
    (t : BagTree) : BagTree :=
  (t.addChild bag b.id kind).define t.nextId (.var b.name) (entry ctx current b.ty b.span)

mutual

/-- Adds the bags for the scopes inside an expression that stands in `bag`. -/
def expr (ctx : Context) (current : TypeName) (bag : BagId) : Expr → BagTree → BagTree
  | .assign _ _ value, t => expr ctx current bag value t
  | .dispatch _ receiver _ args, t =>
    exprs ctx current bag args (optExpr ctx current bag receiver t)
  | .staticDispatch _ receiver _ _ args, t =>
    exprs ctx current bag args (expr ctx current bag receiver t)
  | .cond _ test thenBranch elseBranch, t =>
    expr ctx current bag elseBranch (expr ctx current bag thenBranch (expr ctx current bag test t))
  | .loop _ test body, t => expr ctx current bag body (expr ctx current bag test t)
  | .letIn _ bindings body, t =>
    let (scope, t) := lets ctx current bag bindings t
    expr ctx current scope body t
  | .caseOf _ scrutinee arms, t => cases ctx current bag arms (expr ctx current bag scrutinee t)
  | .block _ body, t => exprs ctx current bag body t
  | .binary _ _ left right, t => expr ctx current bag right (expr ctx current bag left t)
  | .unary _ _ operand, t => expr ctx current bag operand t
  | .paren _ inner, t => expr ctx current bag inner t
  | .new .., t | .ident .., t | .int .., t | .str .., t | .bool .., t => t
termination_by structural e => e

def optExpr (ctx : Context) (current : TypeName) (bag : BagId) : Option Expr → BagTree → BagTree
  | some e, t => expr ctx current bag e t
  | none, t => t
termination_by structural e => e

def exprs (ctx : Context) (current : TypeName) (bag : BagId) : List Expr → BagTree → BagTree
  | [], t => t
  | e :: es, t => exprs ctx current bag es (expr ctx current bag e t)
termination_by structural es => es

/-- Adds the bags of `let` bindings, each inside the one before it, and gives the innermost. -/
def lets (ctx : Context) (current : TypeName) (bag : BagId) :
    List (Binder × Option Expr) → BagTree → BagId × BagTree
  | [], t => (bag, t)
  | (b, init) :: bindings, t =>
    let t := optExpr ctx current bag init t
    lets ctx current t.nextId bindings (binder ctx current bag .ofLet b t)
termination_by structural bindings => bindings

/-- Adds the bags of `case` arms, side by side. -/
def cases (ctx : Context) (current : TypeName) (bag : BagId) :
    List (Binder × Expr) → BagTree → BagTree
  | [], t => t
  | (b, body) :: arms, t =>
    cases ctx current bag arms (expr ctx current t.nextId body (binder ctx current bag .ofCase b t))
termination_by structural arms => arms

end

/-- Adds the bags inside a feature of a class. -/
def feature (ctx : Context) (current : TypeName) (bag : BagId) (t : BagTree) : Feature → BagTree
  | .attr a => optExpr ctx current bag a.init t
  | .method m =>
    let inner := t.nextId
    let t := m.params.foldl
      (fun t p => t.define inner (.var p.name) (entry ctx current p.ty p.span))
      (t.addChild bag m.id (.ofMethod m.name))
    expr ctx current inner m.body t

/-- Adds the bags of a class. The bag of the class itself holds `self`, the attributes, and the
results of the methods. -/
def classDecl (ctx : Context) (t : BagTree) (c : ClassDecl) : BagTree :=
  let bag := t.nextId
  let t := (t.addClass c.id c.name).define bag (.var selfName) (Entry.ofType c.name c.span)
  let t := c.attributes.foldl
    (fun t a => t.define bag (.var a.name) (entry ctx c.name a.ty a.span)) t
  let t := c.methods.foldl
    (fun t m => t.define bag (.result m.name) (entry ctx c.name m.ret m.span)) t
  c.features.foldl (feature ctx c.name bag) t

end Seed

/-- The bag tree that inference starts from. -/
def ClassTable.seed (t : ClassTable) : BagTree :=
  t.classes.foldl (Seed.classDecl t.context) (BagTree.empty (TypeSet.ofList t.context.concreteTypes))

end CoolTyping
