import CoolTyping.Bag.Tree
import CoolTyping.Program

/-!
# Filling in types

A placeholder is replaced by the join of the candidates that are left for it. What has more than one
candidate left is listed as ambiguous.
-/

namespace CoolTyping

/-! ## Ambiguities -/

/-- A placeholder for which more than one type is left. -/
structure Ambiguity where
  name : String
  /-- In alphabetical order. -/
  candidates : List TypeName
  span : Span
deriving DecidableEq

namespace Ambiguity

def text (a : Ambiguity) : String := a.name ++ ": " ++ bracketed a.candidates

def toReport (a : Ambiguity) : Report := ⟨.ambiguousType a.name a.candidates, a.span⟩

end Ambiguity

namespace Entry

def ambiguity? (slot : Slot) (e : Entry) : Option Ambiguity :=
  if !e.locked && e.candidates.size > 1 then
    some ⟨slot.name, e.candidates.toList.mergeSort fun a b => !decide (b < a), e.span⟩
  else
    none

/-- The type that an entry stands for in the end. -/
def joined (ctx : Context) (e : Entry) : TypeName := ctx.joinAll e.candidates.toList

end Entry

/-- Ambiguities in the order of the scopes. -/
def BagTree.ambiguities (t : BagTree) : List Ambiguity :=
  t.preorder.flatMap fun i => (t.bags[i]?).elim [] fun b =>
    b.entries.toList.filterMap fun (slot, e) => e.ambiguity? slot

/-! ## Filling in -/

namespace Expr

mutual

/-- Changes the names that an expression introduces. -/
def mapBinders (f : Binder → Binder) : Expr → Expr
  | assign span name value => assign span name (mapBinders f value)
  | dispatch span receiver method args =>
    dispatch span (mapBindersOpt f receiver) method (mapBindersAll f args)
  | staticDispatch span receiver ancestor method args =>
    staticDispatch span (mapBinders f receiver) ancestor method (mapBindersAll f args)
  | cond span test thenBranch elseBranch =>
    cond span (mapBinders f test) (mapBinders f thenBranch) (mapBinders f elseBranch)
  | loop span test body => loop span (mapBinders f test) (mapBinders f body)
  | letIn span bindings body => letIn span (mapBindersInits f bindings) (mapBinders f body)
  | caseOf span scrutinee arms => caseOf span (mapBinders f scrutinee) (mapBindersArms f arms)
  | block span body => block span (mapBindersAll f body)
  | binary span op left right => binary span op (mapBinders f left) (mapBinders f right)
  | unary span op operand => unary span op (mapBinders f operand)
  | paren span inner => paren span (mapBinders f inner)
  | new span ty => new span ty
  | ident span name => ident span name
  | int span value => int span value
  | str span value => str span value
  | bool span value => bool span value
termination_by structural e => e

def mapBindersOpt (f : Binder → Binder) : Option Expr → Option Expr
  | some e => some (mapBinders f e)
  | none => none
termination_by structural e => e

def mapBindersAll (f : Binder → Binder) : List Expr → List Expr
  | [] => []
  | e :: es => mapBinders f e :: mapBindersAll f es
termination_by structural es => es

def mapBindersInits (f : Binder → Binder) :
    List (Binder × Option Expr) → List (Binder × Option Expr)
  | [] => []
  | (b, init) :: bindings =>
    (f b, mapBindersOpt f init) :: mapBindersInits f bindings
termination_by structural bindings => bindings

def mapBindersArms (f : Binder → Binder) : List (Binder × Expr) → List (Binder × Expr)
  | [] => []
  | (b, body) :: arms => (f b, mapBinders f body) :: mapBindersArms f arms
termination_by structural arms => arms

end

end Expr

namespace BagTree

/-- The type for a placeholder that has an entry in the bag itself. -/
def filled? (t : BagTree) (ctx : Context) (bag : Option BagId) (slot : Slot) (ty : TypeName) :
    Option TypeName :=
  if ty == TypeName.auto then (bag.bind (t.entryAt? · slot)).map (·.joined ctx) else none

/-- The type for the placeholder of a binder. -/
def filledBinder? (t : BagTree) (ctx : Context) (b : Binder) : Option TypeName :=
  t.filled? ctx (t.bagOf? b.id) (.var b.name) b.ty

/-- The types for the placeholders of an expression. -/
def filledTypes (t : BagTree) (ctx : Context) (e : Expr) : List TypeName :=
  e.binders.filterMap (t.filledBinder? ctx)

def fillExpr (t : BagTree) (ctx : Context) (e : Expr) : Expr :=
  e.mapBinders fun b => { b with ty := (t.filledBinder? ctx b).getD b.ty }

def fillParam (t : BagTree) (ctx : Context) (m : MethodDecl) (p : Param) : Param :=
  { p with ty := (t.filled? ctx (t.bagOf? m.id) (.var p.name) p.ty).getD p.ty }

/-- Fills in a feature of the class with the bag `bag`. -/
def fillFeature (t : BagTree) (ctx : Context) (bag : BagId) : Feature → Feature
  | .attr a => .attr { a with
      ty := (t.filled? ctx (some bag) (.var a.name) a.ty).getD a.ty
      init := a.init.map (t.fillExpr ctx) }
  | .method m => .method { m with
      ret := (t.filled? ctx (some bag) (.result m.name) m.ret).getD m.ret
      params := m.params.map (t.fillParam ctx m)
      body := t.fillExpr ctx m.body }

/-- The types filled in into a feature of the class with the bag `bag`. -/
def filledInFeature (t : BagTree) (ctx : Context) (bag : BagId) : Feature → List TypeName
  | .attr a => (t.filled? ctx (some bag) (.var a.name) a.ty).toList ++
      a.init.elim [] (t.filledTypes ctx)
  | .method m => (t.filled? ctx (some bag) (.result m.name) m.ret).toList ++
      m.params.filterMap (fun p => t.filled? ctx (t.bagOf? m.id) (.var p.name) p.ty) ++
      t.filledTypes ctx m.body

/-- A class without a bag, which was turned down, stays as it is. -/
def fillClass (t : BagTree) (ctx : Context) (c : ClassDecl) : ClassDecl :=
  match t.bagOf? c.id with
  | some bag => { c with features := c.features.map (t.fillFeature ctx bag) }
  | none => c

def filledInClass (t : BagTree) (ctx : Context) (c : ClassDecl) : List TypeName :=
  match t.bagOf? c.id with
  | some bag => c.features.flatMap (t.filledInFeature ctx bag)
  | none => []

/-- The program with its placeholders filled in. -/
def fill (t : BagTree) (ctx : Context) (p : Program) : Program :=
  ⟨p.classes.map (t.fillClass ctx)⟩

/-- The types that `fill` puts in, one for each placeholder that it replaces. -/
def filledIn (t : BagTree) (ctx : Context) (p : Program) : List TypeName :=
  p.classes.flatMap (t.filledInClass ctx)

end BagTree

end CoolTyping
