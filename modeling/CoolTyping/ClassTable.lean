import CoolTyping.Context
import CoolTyping.Program
import CoolTyping.Reporting

/-!
# Class tables

The context of a program, built from its class declarations in four rounds: all classes are
registered, then linked to their parents, then given their features, and last the features are
compared with inherited ones. So a class may be used before it is declared.
-/

namespace CoolTyping

open Reporting

/-- A context, with the class declarations it was built from: each one as it stands in the program,
or nothing in its place if it was turned down. -/
structure ClassTable where
  context : Context
  registered : List (Option ClassDecl)

namespace ClassTable

/-- The declarations that were not turned down. -/
def classes (t : ClassTable) : List ClassDecl := t.registered.filterMap id

/-! ## Registration -/

/-- Registers classes. One that has the name of an earlier type is turned down. -/
def register (ctx : Context) : List ClassDecl → Reporting ClassTable
  | [] => return ⟨ctx, []⟩
  | c :: cs =>
    match ctx.create c.name with
    | .ok ctx => do
      let t ← register ctx cs
      return ⟨t.context, some c :: t.registered⟩
    | .error e => do
      report e c.span
      let t ← register ctx cs
      return ⟨t.context, none :: t.registered⟩

/-! ## Parents -/

/-- Links a class to `parent`, or reports why that is not possible. -/
def link (ctx : Context) (c : ClassDecl) (parent : TypeName) : Reporting Context :=
  match ctx.setParent c.name parent with
  | .ok ctx => return ctx
  | .error e => do
    report e c.span
    return ctx

/-- Links a class to the parent it declares. An unknown parent counts as the type `<error>`. -/
def linkParent (ctx : Context) (c : ClassDecl) : Reporting Context :=
  match c.parent with
  | none => return ctx
  | some parent =>
    match ctx.resolve parent with
    | .ok parent => link ctx c parent
    | .error e => do
      report e c.span
      link ctx c TypeName.error

/-! ## Features -/

/-- The type that a declaration names, `<error>` if it is unknown. -/
def declaredType (ctx : Context) (name : TypeName) (span : Span) : Reporting TypeName :=
  match ctx.resolve name with
  | .ok t => return t
  | .error e => do
    report e span
    return TypeName.error

def defineAttribute (owner : TypeName) (ctx : Context) (a : AttrDecl) : Reporting Context := do
  let ty ← declaredType ctx a.ty a.span
  if (ctx.ownAttribute? owner a.name).isSome then
    report (.duplicateAttribute a.name owner) a.span
    return ctx
  else
    return ctx.addAttribute owner ⟨a.name, ty⟩

def defineMethod (owner : TypeName) (ctx : Context) (m : MethodDecl) : Reporting Context := do
  let params ← m.params.mapM fun p => do return (p.name, ← declaredType ctx p.ty p.span)
  let ret ← declaredType ctx m.ret m.span
  if (ctx.ownMethod? owner m.name).isSome then
    report (.duplicateMethod m.name owner) m.span
    return ctx
  else
    return ctx.addMethod owner ⟨m.name, params, ret⟩

/-- Gives a class its attributes and then its methods. -/
def defineFeatures (ctx : Context) (c : ClassDecl) : Reporting Context := do
  let ctx ← c.attributes.foldlM (defineAttribute c.name) ctx
  c.methods.foldlM (defineMethod c.name) ctx

/-! ## Inherited features -/

/-- Where a class declares an attribute first. -/
def attrSpan (c : ClassDecl) (name : String) : Span :=
  (c.attributes.find? (·.name == name)).elim c.span (·.span)

/-- Where a class declares a method first. -/
def methodSpan (c : ClassDecl) (name : String) : Span :=
  (c.methods.find? (·.name == name)).elim c.span (·.span)

/-- The own attributes of `t` that it also inherits from `parent`, with their owners. -/
def shadowing (ctx : Context) (t parent : TypeName) : List (String × TypeName) :=
  (ctx.ownAttributes t).filterMap fun a =>
    (ctx.attribute? parent a.name).map fun (owner, _) => (a.name, owner)

/-- The own methods of `t` that differ from the one inherited from `parent`, with its owner. -/
def mismatched (ctx : Context) (t parent : TypeName) : List (String × TypeName) :=
  (ctx.ownMethods t).filterMap fun m =>
    match ctx.method? parent m.name with
    | some (owner, inherited) => if m.agrees inherited then none else some (m.name, owner)
    | none => none

/-- An attribute may not be declared again in a descendant: the later one is dropped. A method may,
with the same signature. -/
def checkInherited (ctx : Context) (c : ClassDecl) : Reporting Context :=
  match ctx.parent? c.name with
  | none => return ctx
  | some parent => do
    let shadows := shadowing ctx c.name parent
    tell (shadows.map fun (name, owner) => ⟨.duplicateAttribute name owner, attrSpan c name⟩)
    tell ((mismatched ctx c.name parent).map fun (name, owner) =>
      ⟨.methodSignatureMismatch name owner, methodSpan c name⟩)
    return ctx.dropAttributes c.name (shadows.map (·.1))

/-- The class table of a program. -/
def build (p : Program) : Reporting ClassTable := do
  let t ← register Context.basic p.classes
  let ctx ← t.classes.foldlM linkParent t.context
  let ctx ← t.classes.foldlM defineFeatures ctx
  let ctx ← t.classes.foldlM checkInherited ctx
  return { t with context := ctx }

end ClassTable

end CoolTyping
