import CoolTyping.ClassTable
import CoolTyping.Scope

/-!
# Typing

The strict check of a program: every expression gets a type, and what does not fit is reported. The
two wildcard types fit everywhere, so one mistake is reported once, and placeholders not at all.
-/

namespace CoolTyping

open Reporting

/-- What typing an expression depends on. -/
structure Env where
  context : Context
  /-- The class at hand. -/
  current : TypeName
  /-- Where messages say a variable is missing: a method, or a class. -/
  place : String
  scope : Scope

namespace Env

/-- Reports unless `found` conforms to `expected`. -/
def expect (Γ : Env) (found expected : TypeName) (span : Span) : Reporting Unit :=
  reportUnless (Γ.context.conforms found expected) (.incompatibleTypes found expected) span

/-- The type that a declaration checked before names. -/
def declared (Γ : Env) (name : TypeName) : TypeName :=
  (if Γ.context.contains name then name else TypeName.error).resolveSelf Γ.current

/-- The type that a name stands for, `<error>` if it is unknown. -/
def declaredAt (Γ : Env) (name : TypeName) (span : Span) : Reporting TypeName := do
  return (← ClassTable.declaredType Γ.context name span).resolveSelf Γ.current

def declare (Γ : Env) (name : String) (ty : TypeName) : Env :=
  { Γ with scope := Γ.scope.declare name ty }

/-- With a new frame for the variables to come. -/
def nested (Γ : Env) : Env := { Γ with scope := Γ.scope.push }

/-- The type of a variable, `<error>` if there is none of that name. -/
def variableType (Γ : Env) (name : String) (span : Span) : Reporting TypeName :=
  match Γ.scope.lookup? name with
  | some t => return t
  | none => do
    report (.variableNotDefined name Γ.place) span
    return TypeName.error

/-- A call of the method of `owner` on a receiver of type `receiver`: the types that its arguments
should have, none where the call does not fit, and the type of its result. -/
def call (Γ : Env) (owner receiver : TypeName) (method : String) (argCount : Nat) (span : Span) :
    Reporting (List TypeName × TypeName) :=
  match Γ.context.method? owner method with
  | some (_, m) =>
    if m.arity = argCount then
      return (m.paramTypes, m.ret.resolveSelf receiver)
    else do
      report (.arityMismatch m.name m.arity argCount) span
      return ([], m.ret.resolveSelf receiver)
  | none => do
    reportUnless (owner == TypeName.error) (.methodNotDefined method owner) span
    return ([], TypeName.error)

/-- The type of an operation on values of types `left` and `right`. -/
def binary (Γ : Env) (op : BinaryOp) (left right : TypeName) (span : Span) : Reporting TypeName :=
  if op.isArithmetic then do
    reportUnless (Γ.context.conforms left TypeName.int && Γ.context.conforms right TypeName.int)
      (.invalidOperation left right) span
    return TypeName.int
  else do
    reportUnless (Γ.context.conforms left right || Γ.context.conforms right left)
      (.invalidComparison left right) span
    return TypeName.bool

/-- The type of an operation on a value of type `t`, which stands at `place`. -/
def unary (Γ : Env) (op : UnaryOp) (t : TypeName) (place span : Span) : Reporting TypeName :=
  match op with
  | .not => do
    reportUnless (t == TypeName.bool || t.isWildcard) (.boolExpected t) place
    return TypeName.bool
  | .negate => do
    reportUnless (Γ.context.conforms t TypeName.int) (.invalidOperation t TypeName.int) span
    return TypeName.int
  | .isvoid => return TypeName.bool

/-- Reports a condition whose type `t` is not `Bool`. -/
def condition (Γ : Env) (t : TypeName) (place : Span) : Reporting Unit :=
  reportUnless (Γ.context.conforms t TypeName.bool) (.boolExpected t) place

/-- Reports a receiver of type `t` that does not descend from `ancestor`. -/
def descends (Γ : Env) (t ancestor : TypeName) (place : Span) : Reporting Unit :=
  reportUnless (Γ.context.conforms t ancestor) (.staticDispatchAncestorViolation t ancestor) place

end Env

mutual

/-- The type of an expression. -/
def typeOf (Γ : Env) : Expr → Reporting TypeName
  | .assign span name value => do
    let found ← typeOf Γ value
    if name == selfName then
      report .selfReadonly span
      return TypeName.error
    else
      match Γ.scope.lookup? name with
      | some target =>
        Γ.expect found target value.span
        return target
      | none =>
        report (.variableNotDefined name Γ.place) span
        return TypeName.error
  | .dispatch span receiver method args => do
    let t ← typeReceiver Γ receiver
    if t == TypeName.auto then
      typeArgs Γ args []
      return TypeName.auto
    else
      let (expected, result) ← Γ.call t t method args.length span
      typeArgs Γ args expected
      return result
  | .staticDispatch span receiver ancestor method args => do
    let t ← typeOf Γ receiver
    let owner ← Γ.declaredAt ancestor span
    Γ.descends t owner receiver.span
    let (expected, result) ← Γ.call owner t method args.length span
    typeArgs Γ args expected
    return result
  | .cond _ test thenBranch elseBranch => do
    Γ.condition (← typeOf Γ test) test.span
    let a ← typeOf Γ thenBranch
    let b ← typeOf Γ elseBranch
    return Γ.context.join a b
  | .loop _ test body => do
    Γ.condition (← typeOf Γ test) test.span
    let _ ← typeOf Γ body
    return TypeName.object
  | .letIn _ bindings body => do
    let Δ ← typeBindings Γ.nested bindings
    typeOf Δ body
  | .caseOf _ scrutinee arms => do
    let _ ← typeOf Γ scrutinee
    return Γ.context.joinAll (← typeArms Γ arms)
  | .block _ body => typeBlock Γ TypeName.object body
  | .binary span op left right => do
    let a ← typeOf Γ left
    let b ← typeOf Γ right
    Γ.binary op a b span
  | .unary span op operand => do
    let t ← typeOf Γ operand
    Γ.unary op t operand.span span
  | .new span ty => Γ.declaredAt ty span
  | .paren _ inner => typeOf Γ inner
  | .ident span name => Γ.variableType name span
  | .int .. => return TypeName.int
  | .str .. => return TypeName.string
  | .bool .. => return TypeName.bool
termination_by structural e => e

/-- The type of a receiver, which is `self` if none is written. -/
def typeReceiver (Γ : Env) : Option Expr → Reporting TypeName
  | some e => typeOf Γ e
  | none => return Γ.current
termination_by structural receiver => receiver

/-- Types arguments, and compares them with the expected types as far as these go. -/
def typeArgs (Γ : Env) : List Expr → List TypeName → Reporting Unit
  | [], _ => return
  | e :: es, [] => do
    let _ ← typeOf Γ e
    typeArgs Γ es []
  | e :: es, t :: ts => do
    let found ← typeOf Γ e
    Γ.expect found t e.span
    typeArgs Γ es ts
termination_by structural es => es

/-- The type of the last expression of a block, `last` if there is none. -/
def typeBlock (Γ : Env) (last : TypeName) : List Expr → Reporting TypeName
  | [] => return last
  | e :: es => do
    let t ← typeOf Γ e
    typeBlock Γ t es
termination_by structural es => es

/-- Compares an initial value, if there is one, with the type `t` of its variable. -/
def checkInit (Γ : Env) (t : TypeName) : Option Expr → Reporting Unit
  | some e => do
    let found ← typeOf Γ e
    Γ.expect found t e.span
  | none => return
termination_by structural init => init

/-- What is in sight behind the bindings. A binding does not see itself. -/
def typeBindings (Γ : Env) : List (Binder × Option Expr) → Reporting Env
  | [] => return Γ
  | (b, init) :: bindings => do
    let t ← Γ.declaredAt b.ty b.span
    checkInit Γ t init
    typeBindings (Γ.declare b.name t) bindings
termination_by structural bindings => bindings

/-- The types of the bodies, each of which sees only its own variable. -/
def typeArms (Γ : Env) : List (Binder × Expr) → Reporting (List TypeName)
  | [] => return []
  | (b, body) :: arms => do
    let t ← Γ.declaredAt b.ty b.span
    let found ← typeOf (Γ.nested.declare b.name t) body
    return found :: (← typeArms Γ arms)
termination_by structural arms => arms

end

/-! ## Classes and programs -/

/-- What is in sight in a class: `self` and all attributes. -/
def classEnv (ctx : Context) (name : TypeName) : Env :=
  let Γ : Env := ⟨ctx, name, name, Scope.empty.push.declare selfName name⟩
  (ctx.allAttributes name).foldl (fun Γ a => Γ.declare a.name (a.ty.resolveSelf name)) Γ

/-- What is in sight in a method of a class. -/
def methodEnv (Γ : Env) (m : MethodDecl) : Env :=
  m.params.foldl (fun Γ p => Γ.declare p.name (Γ.declared p.ty)) { Γ.nested with place := m.name }

/-- Checks the expression of a feature against the declared type. -/
def checkFeature (Γ : Env) : Feature → Reporting Unit
  | .attr a => checkInit Γ (Γ.declared a.ty) a.init
  | .method m => do
    let found ← typeOf (methodEnv Γ m) m.body
    Γ.expect found (Γ.declared m.ret) m.body.span

def checkClass (ctx : Context) (c : ClassDecl) : Reporting Unit :=
  c.features.forM (checkFeature (classEnv ctx c.name))

/-- Checks all bodies of the registered classes. -/
def ClassTable.check (t : ClassTable) : Reporting Unit := t.classes.forM (checkClass t.context)

/-- Builds the class table of a program and checks all bodies. -/
def typecheck (p : Program) : Reporting ClassTable := do
  let t ← ClassTable.build p
  t.check
  return t

end CoolTyping
