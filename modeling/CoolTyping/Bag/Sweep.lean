import CoolTyping.Bag.Tree
import CoolTyping.ClassTable

/-!
# Sweeps

A sweep goes once through all bodies of a program. It works out which types each expression may have
and narrows the entries of the variables and methods that the expression uses.
-/

namespace CoolTyping

namespace Sweep

/-- The bags as they stand, and what this sweep has reported. -/
structure State where
  tree : BagTree
  reports : List Report

end Sweep

abbrev Sweep := StateM Sweep.State

namespace Sweep

/-- What a sweep of one class depends on. -/
structure Env where
  context : Context
  /-- The class at hand. -/
  current : TypeName

def report (error : SemanticError) (span : Span) : Sweep Unit :=
  modify fun s => { s with reports := s.reports ++ [⟨error, span⟩] }

/-- What the entry for a slot holds now. -/
def snapshot (Γ : Env) (bag : BagId) (slot : Slot) : Sweep (Option Candidates) := do
  return ((← get).tree.get? Γ.context bag slot).map Entry.snapshot

/-- All types that a placeholder may stand for. -/
def everything : Sweep Candidates := do
  return (← get).tree.everything

def narrow (Γ : Env) (bag : BagId) (slot : Slot) (incoming : Candidates) : Sweep Unit :=
  modify fun s => { s with tree := s.tree.narrow Γ.context bag slot incoming }

/-- Narrows the variable whose value the expression is, if it is that of a variable. -/
def narrowVar (Γ : Env) (bag : BagId) (e : Expr) (incoming : Candidates) : Sweep Unit :=
  match e.variableName? with
  | some name => narrow Γ bag (.var name) incoming
  | none => return

/-- Narrows the variable whose value the receiver of a call is. -/
def narrowReceiver (Γ : Env) (bag : BagId) (receiver : Option Expr) (incoming : Candidates) :
    Sweep Unit :=
  match receiver with
  | some e => narrowVar Γ bag e incoming
  | none => return

/-- Narrows the variable whose value the expression is to what its place takes. -/
def narrowTo (Γ : Env) (bag : BagId) (e : Expr) (restriction : Option Candidates) : Sweep Unit :=
  match restriction with
  | some types => narrowVar Γ bag e types
  | none => return

/-- Drops from the variable whose value the expression is the candidates that conform to none of
`target`. Conflicts on either side leave it as it is. -/
def restrict (Γ : Env) (bag : BagId) (value : Expr) (target : Candidates) : Sweep Unit := do
  match value.variableName? with
  | none => return
  | some name =>
    match (← get).tree.get? Γ.context bag (.var name) with
    | none => return
    | some entry =>
      if target.ambiguous || entry.locked || entry.ambiguous then
        return
      else
        let accepted := entry.candidates.filter fun t => target.types.any (Γ.context.conforms t)
        narrow Γ bag (.var name) ⟨accepted, false⟩

/-- Restricts the value, which stands in `bag`, to what the slot seen from `slotBag` holds now. -/
def restrictTo (Γ : Env) (bag : BagId) (value : Expr) (slotBag : BagId) (slot : Slot) :
    Sweep Unit := do
  match ← snapshot Γ slotBag slot with
  | some target => restrict Γ bag value target
  | none => return

/-- Takes account of a value, which stands in `bag` and may have the types `found`, being given to
the slot seen from `slotBag`. -/
def store (Γ : Env) (bag : BagId) (value : Expr) (found : Candidates) (slotBag : BagId)
    (slot : Slot) : Sweep Unit := do
  narrow Γ slotBag slot found
  restrictTo Γ bag value slotBag slot

/-- The method of `t` that a call with `argCount` arguments means. -/
def fitting? (ctx : Context) (t : TypeName) (method : String) (argCount : Nat) :
    Option (TypeName × Signature) :=
  (ctx.method? t method).filter fun (_, m) => m.arity = argCount

/-- The method that a call means on a receiver that is of one of the types `ts`, if there is only one
such type. -/
def onlyMethod? (ctx : Context) (ts : TypeSet) (method : String) : Option (TypeName × Signature) :=
  match ts.toList with
  | [t] => ctx.method? t method
  | _ => none

/-- The types that a call may have, of the method `m` of `owner` on a receiver of type `t`. -/
def resultOf (ctx : Context) (tree : BagTree) (owner t : TypeName) (m : Signature) : Candidates :=
  if m.ret == TypeName.selfType then Candidates.single t
  else
    match (tree.classBag? owner).bind fun bag => tree.get? ctx bag (.result m.name) with
    | some entry => entry.snapshot
    | none => Candidates.single m.ret

/-- The types that a call may have on a receiver that is of one of the types `ts`. -/
def resultsOf (ctx : Context) (tree : BagTree) (method : String) (ts : TypeSet) : Candidates :=
  ts.toList.foldl (fun acc t => (ctx.method? t method).elim acc fun (owner, m) =>
    acc.union (resultOf ctx tree owner t m)) Candidates.none

/-- The types that a parameter may have, of a method whose bag is `methodBag`. -/
def paramTypes (Γ : Env) (methodBag : Option BagId) (param : String × TypeName) :
    Sweep Candidates := do
  match methodBag with
  | none => return Candidates.single param.2
  | some bag => return (← snapshot Γ bag (.var param.1)).getD (Candidates.single param.2)

/-- Takes account of a parameter being given a value that may have the types `found`. -/
def narrowParam (Γ : Env) (methodBag : Option BagId) (name : String) (found : Candidates) :
    Sweep Unit :=
  match methodBag with
  | some bag => narrow Γ bag (.var name) found
  | none => return

/-- The bag of the scope numbered `id`, or else the one around it. -/
def scopeBag (id : NodeId) (outer : BagId) : Sweep BagId := do
  return ((← get).tree.bagOf? id).getD outer

/-- How messages speak of a receiver. -/
def describe (receiver : Option Expr) (found : Candidates) : String :=
  match receiver with
  | some e => e.variableName?.getD (braced found.types.toList)
  | none => selfName

mutual

/-- The types that an expression in `bag` may have. Where it stands in a place that only takes the
types `restriction`, a variable at the end of a block is narrowed to them. -/
def visit (Γ : Env) (bag : BagId) (restriction : Option Candidates) : Expr → Sweep Candidates
  | .int .. => return Candidates.single TypeName.int
  | .str .. => return Candidates.single TypeName.string
  | .bool .. => return Candidates.single TypeName.bool
  | .ident _ name => do
    match ← snapshot Γ bag (.var name) with
    | some found => return found
    | none => everything
  | .new _ ty =>
    if ty == TypeName.selfType then return Candidates.single Γ.current
    else if ty == TypeName.auto || !Γ.context.contains ty then everything
    else return Candidates.single ty
  | .paren _ inner => visit Γ bag restriction inner
  | .assign _ name value => do
    let target ← snapshot Γ bag (.var name)
    let found ← visit Γ bag target value
    store Γ bag value found bag (.var name)
    return (← snapshot Γ bag (.var name)).getD found
  | .block _ body => visitBlock Γ bag restriction body
  | .binary _ op left right => do
    if op.isArithmetic then
      let int := Candidates.single TypeName.int
      let _ ← visit Γ bag (some int) left
      let _ ← visit Γ bag (some int) right
      narrowVar Γ bag left int
      narrowVar Γ bag right int
      return int
    else
      let _ ← visit Γ bag none left
      let _ ← visit Γ bag none right
      return Candidates.single TypeName.bool
  | .unary _ op operand => do
    match op with
    | .not =>
      let bool := Candidates.single TypeName.bool
      let _ ← visit Γ bag (some bool) operand
      narrowVar Γ bag operand bool
      return bool
    | .negate =>
      let int := Candidates.single TypeName.int
      let _ ← visit Γ bag (some int) operand
      narrowVar Γ bag operand int
      return int
    | .isvoid =>
      let _ ← visit Γ bag none operand
      return Candidates.single TypeName.bool
  | .loop _ test body => do
    let bool := Candidates.single TypeName.bool
    let _ ← visit Γ bag (some bool) test
    narrowVar Γ bag test bool
    let _ ← visit Γ bag none body
    return Candidates.single TypeName.object
  | .cond _ test thenBranch elseBranch => do
    let bool := Candidates.single TypeName.bool
    let _ ← visit Γ bag (some bool) test
    narrowVar Γ bag test bool
    let a ← visit Γ bag none thenBranch
    let b ← visit Γ bag none elseBranch
    return a.merge b
  | .letIn _ bindings body => do
    let scope ← visitBindings Γ bag bindings
    visit Γ scope restriction body
  | .caseOf _ scrutinee arms => do
    let _ ← visit Γ bag none scrutinee
    visitArms Γ bag Candidates.none arms
  | .dispatch span receiver method args => do
    let found ← visitReceiver Γ bag receiver
    let fits := found.types.filter fun t => (fitting? Γ.context t method args.length).isSome
    if fits.isEmpty then
      report (.noMethodCandidate (describe receiver found) method args.length) span
      visitAll Γ bag args
      everything
    else
      narrowReceiver Γ bag receiver ⟨fits, false⟩
      match onlyMethod? Γ.context fits method with
      | some (owner, m) =>
        visitArgs Γ bag ((← get).tree.methodBag? owner m.name) m.params args
        return resultsOf Γ.context (← get).tree method fits
      | none =>
        let result := resultsOf Γ.context (← get).tree method fits
        visitAll Γ bag args
        return result
  | .staticDispatch span receiver ancestor method args => do
    let found ← visit Γ bag none receiver
    let t := if Γ.context.contains ancestor then ancestor else TypeName.error
    match fitting? Γ.context t method args.length with
    | none =>
      report (.noMethodCandidate ancestor method args.length) span
      visitAll Γ bag args
      everything
    | some (owner, m) =>
      visitArgs Γ bag ((← get).tree.methodBag? owner m.name) m.params args
      if m.ret == TypeName.selfType then
        return found
      else
        return resultOf Γ.context (← get).tree owner t m
termination_by structural e => e

/-- The types that a receiver may have, which is `self` if none is written. -/
def visitReceiver (Γ : Env) (bag : BagId) : Option Expr → Sweep Candidates
  | some e => visit Γ bag none e
  | none => return Candidates.single Γ.current
termination_by structural receiver => receiver

def visitAll (Γ : Env) (bag : BagId) : List Expr → Sweep Unit
  | [] => return
  | e :: es => do
    let _ ← visit Γ bag none e
    visitAll Γ bag es
termination_by structural es => es

/-- The types that the last expression of a block may have. -/
def visitBlock (Γ : Env) (bag : BagId) (restriction : Option Candidates) :
    List Expr → Sweep Candidates
  | [] => return Candidates.single TypeName.object
  | [e] => do
    let found ← visit Γ bag restriction e
    narrowTo Γ bag e restriction
    return found
  | e :: e' :: es => do
    let _ ← visit Γ bag none e
    visitBlock Γ bag restriction (e' :: es)
termination_by structural es => es

/-- Gives arguments to the parameters of a method, and narrows each to what its parameter takes. -/
def visitArgs (Γ : Env) (bag : BagId) (methodBag : Option BagId) :
    List (String × TypeName) → List Expr → Sweep Unit
  | _, [] => return
  | [], _ :: _ => return
  | param :: params, e :: es => do
    let types ← paramTypes Γ methodBag param
    let found ← visit Γ bag (some types) e
    narrowParam Γ methodBag param.1 found
    narrowVar Γ bag e types
    visitArgs Γ bag methodBag params es
termination_by structural _ es => es

/-- Gives an initial value, if there is one, to the variable `name` seen from `inner`. -/
def visitInit (Γ : Env) (bag inner : BagId) (name : String) : Option Expr → Sweep Unit
  | some e => do
    let found ← visit Γ bag none e
    store Γ bag e found inner (.var name)
  | none => return
termination_by structural init => init

/-- The bag in which the body of a `let` stands. -/
def visitBindings (Γ : Env) (bag : BagId) : List (Binder × Option Expr) → Sweep BagId
  | [] => return bag
  | (b, init) :: bindings => do
    let inner ← scopeBag b.id bag
    visitInit Γ bag inner b.name init
    visitBindings Γ inner bindings
termination_by structural bindings => bindings

/-- The types of all arms together, added to `acc`. -/
def visitArms (Γ : Env) (bag : BagId) (acc : Candidates) : List (Binder × Expr) → Sweep Candidates
  | [] => return acc
  | (b, body) :: arms => do
    let inner ← scopeBag b.id bag
    let found ← visit Γ inner none body
    visitArms Γ bag (acc.union found) arms
termination_by structural arms => arms

end

/-- The expression of a feature is given to the attribute, or is the result of the method. -/
def feature (Γ : Env) (bag : BagId) : Feature → Sweep Unit
  | .attr a => visitInit Γ bag bag a.name a.init
  | .method m => do
    match (← get).tree.bagOf? m.id with
    | some inner =>
      let found ← visit Γ inner none m.body
      store Γ inner m.body found inner (.result m.name)
    | none => return

def classDecl (ctx : Context) (c : ClassDecl) : Sweep Unit := do
  match (← get).tree.bagOf? c.id with
  | some bag => c.features.forM (feature ⟨ctx, c.name⟩ bag)
  | none => return

end Sweep

/-- One sweep through the registered classes: the narrowed tree, and the reports. -/
def ClassTable.sweep (t : ClassTable) (tree : BagTree) : BagTree × List Report :=
  let (_, s) := (t.classes.forM (Sweep.classDecl t.context)).run ⟨tree, []⟩
  (s.tree, s.reports)

end CoolTyping
