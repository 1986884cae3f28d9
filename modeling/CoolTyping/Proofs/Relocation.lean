import CoolTyping.Typing
import Mathlib.Data.List.Basic

/-!
# Programs in other places

The check of a program looks at places only to report them. If every place is replaced by another one, the
same errors are reported in the same order, each in its new place.
-/

namespace CoolTyping

variable (σ : Span → Span)

/-! ## Programs -/

def Binder.mapSpan (b : Binder) : Binder := { b with span := σ b.span }

namespace Expr

mutual

/-- The expression with every place replaced. -/
def mapSpans : Expr → Expr
  | assign span x value => assign (σ span) x value.mapSpans
  | dispatch span receiver method args => dispatch (σ span) (mapSpansOpt receiver) method (mapSpansAll args)
  | staticDispatch span receiver ancestor method args =>
    staticDispatch (σ span) receiver.mapSpans ancestor method (mapSpansAll args)
  | cond span test thenBranch elseBranch =>
    cond (σ span) test.mapSpans thenBranch.mapSpans elseBranch.mapSpans
  | loop span test body => loop (σ span) test.mapSpans body.mapSpans
  | letIn span bindings body => letIn (σ span) (mapSpansInits bindings) body.mapSpans
  | caseOf span scrutinee arms => caseOf (σ span) scrutinee.mapSpans (mapSpansArms arms)
  | block span body => block (σ span) (mapSpansAll body)
  | binary span op left right => binary (σ span) op left.mapSpans right.mapSpans
  | unary span op operand => unary (σ span) op operand.mapSpans
  | new span ty => new (σ span) ty
  | paren span inner => paren (σ span) inner.mapSpans
  | ident span x => ident (σ span) x
  | int span value => int (σ span) value
  | str span value => str (σ span) value
  | bool span value => bool (σ span) value
termination_by structural e => e

def mapSpansOpt : Option Expr → Option Expr
  | none => none
  | some e => some e.mapSpans
termination_by structural e => e

def mapSpansAll : List Expr → List Expr
  | [] => []
  | e :: es => e.mapSpans :: mapSpansAll es
termination_by structural es => es

def mapSpansInits : List (Binder × Option Expr) → List (Binder × Option Expr)
  | [] => []
  | (b, init) :: bindings => (b.mapSpan σ, mapSpansOpt init) :: mapSpansInits bindings
termination_by structural bindings => bindings

def mapSpansArms : List (Binder × Expr) → List (Binder × Expr)
  | [] => []
  | (b, body) :: arms => (b.mapSpan σ, body.mapSpans) :: mapSpansArms arms
termination_by structural arms => arms

end

@[simp] theorem span_mapSpans (e : Expr) : (e.mapSpans σ).span = σ e.span := by
  cases e <;> rfl

theorem length_mapSpansAll (es : List Expr) : (mapSpansAll σ es).length = es.length := by
  induction es with
  | nil => rfl
  | cons e es ih => simp [mapSpansAll, ih]

end Expr

def Param.mapSpan (p : Param) : Param := { p with span := σ p.span }

def AttrDecl.mapSpans (a : AttrDecl) : AttrDecl :=
  { a with init := Expr.mapSpansOpt σ a.init, span := σ a.span }

def MethodDecl.mapSpans (m : MethodDecl) : MethodDecl :=
  { m with params := m.params.map (Param.mapSpan σ), body := m.body.mapSpans σ, span := σ m.span }

def Feature.mapSpans : Feature → Feature
  | .attr a => .attr (a.mapSpans σ)
  | .method m => .method (m.mapSpans σ)

def ClassDecl.mapSpans (c : ClassDecl) : ClassDecl :=
  { c with features := c.features.map (Feature.mapSpans σ), span := σ c.span }

/-- The program with every place replaced. -/
def Program.mapSpans (p : Program) : Program := ⟨p.classes.map (ClassDecl.mapSpans σ)⟩

/-! ## Declared types -/

namespace Expr

mutual

theorem walk_mapSpans : (e : Expr) → (e.mapSpans σ).walk = e.walk.map (mapSpans σ)
  | assign _ _ value => by simp [mapSpans, walk, walk_mapSpans value]
  | dispatch _ none _ args => by simp [mapSpans, mapSpansOpt, walk, walkAll_mapSpans args]
  | dispatch _ (some receiver) _ args => by
      simp [mapSpans, mapSpansOpt, walk, walk_mapSpans receiver, walkAll_mapSpans args]
  | staticDispatch _ receiver _ _ args => by
      simp [mapSpans, walk, walk_mapSpans receiver, walkAll_mapSpans args]
  | cond _ test thenBranch elseBranch => by
      simp [mapSpans, walk, walk_mapSpans test, walk_mapSpans thenBranch, walk_mapSpans elseBranch]
  | loop _ test body => by simp [mapSpans, walk, walk_mapSpans test, walk_mapSpans body]
  | letIn _ bindings body => by simp [mapSpans, walk, walkInits_mapSpans bindings, walk_mapSpans body]
  | caseOf _ scrutinee arms => by
      simp [mapSpans, walk, walk_mapSpans scrutinee, walkArms_mapSpans arms]
  | block _ body => by simp [mapSpans, walk, walkAll_mapSpans body]
  | binary _ _ left right => by simp [mapSpans, walk, walk_mapSpans left, walk_mapSpans right]
  | unary _ _ operand => by simp [mapSpans, walk, walk_mapSpans operand]
  | paren _ inner => by simp [mapSpans, walk, walk_mapSpans inner]
  | new .. | ident .. | int .. | str .. | bool .. => by simp [mapSpans, walk]

theorem walkAll_mapSpans : (es : List Expr) → walkAll (mapSpansAll σ es) = (walkAll es).map (mapSpans σ)
  | [] => by simp [mapSpansAll, walkAll]
  | e :: es => by simp [mapSpansAll, walkAll, walk_mapSpans e, walkAll_mapSpans es]

theorem walkInits_mapSpans : (bindings : List (Binder × Option Expr)) →
    walkInits (mapSpansInits σ bindings) = (walkInits bindings).map (mapSpans σ)
  | [] => by simp [mapSpansInits, walkInits]
  | (_, none) :: bindings => by
      simp [mapSpansInits, mapSpansOpt, walkInits, walkInits_mapSpans bindings]
  | (_, some init) :: bindings => by
      simp [mapSpansInits, mapSpansOpt, walkInits, walk_mapSpans init, walkInits_mapSpans bindings]

theorem walkArms_mapSpans : (arms : List (Binder × Expr)) →
    walkArms (mapSpansArms σ arms) = (walkArms arms).map (mapSpans σ)
  | [] => by simp [mapSpansArms, walkArms]
  | (_, body) :: arms => by simp [mapSpansArms, walkArms, walk_mapSpans body, walkArms_mapSpans arms]

end

theorem map_ty_ownBinders_mapSpans (e : Expr) :
    (e.mapSpans σ).ownBinders.map (·.ty) = e.ownBinders.map (·.ty) := by
  cases e with
  | letIn _ bindings _ =>
      simp only [mapSpans, ownBinders]
      induction bindings with
      | nil => rfl
      | cons b bindings ih => simpa [mapSpansInits, Binder.mapSpan] using ih
  | caseOf _ _ arms =>
      simp only [mapSpans, ownBinders]
      induction arms with
      | nil => rfl
      | cons a arms ih => simpa [mapSpansArms, Binder.mapSpan] using ih
  | _ => rfl

theorem map_ty_binders_mapSpans (e : Expr) : (e.mapSpans σ).binders.map (·.ty) = e.binders.map (·.ty) := by
  simp only [binders, walk_mapSpans, List.flatMap_map, List.map_flatMap, map_ty_ownBinders_mapSpans]

end Expr

theorem Feature.declaredTypes_mapSpans (f : Feature) : (f.mapSpans σ).declaredTypes = f.declaredTypes := by
  cases f with
  | attr a =>
      cases hinit : a.init <;>
        simp [mapSpans, AttrDecl.mapSpans, declaredTypes, hinit, Expr.mapSpansOpt,
          Expr.map_ty_binders_mapSpans]
  | method m =>
      simp [mapSpans, MethodDecl.mapSpans, declaredTypes, Param.mapSpan, Expr.map_ty_binders_mapSpans]

theorem Program.hasPlaceholders_mapSpans (p : Program) :
    (p.mapSpans σ).hasPlaceholders = p.hasPlaceholders := by
  simp only [hasPlaceholders, declaredTypes, mapSpans, ClassDecl.mapSpans, List.flatMap_map,
    Feature.declaredTypes_mapSpans]

/-! ## Reports -/

def Report.mapSpan (r : Report) : Report := { r with span := σ r.span }

namespace Reporting

variable {α β : Type}

/-- The computation with every report in its new place. -/
def mapSpans (x : Reporting α) : Reporting α := ⟨x.value, x.reports.map (Report.mapSpan σ)⟩

@[simp] theorem mapSpans_pure (a : α) : mapSpans σ (pure a) = pure a := rfl

@[simp] theorem mapSpans_bind (x : Reporting α) (f : α → Reporting β) :
    mapSpans σ (x >>= f) = mapSpans σ x >>= fun a => mapSpans σ (f a) :=
  congrArg (Reporting.mk _) List.map_append

@[simp] theorem mapSpans_map (f : α → β) (x : Reporting α) :
    mapSpans σ (f <$> x) = f <$> mapSpans σ x := by
  rw [map_eq_pure_bind, map_eq_pure_bind, mapSpans_bind]
  rfl

@[simp] theorem mapSpans_report (error : SemanticError) (span : Span) :
    mapSpans σ (report error span) = report error (σ span) := rfl

@[simp] theorem mapSpans_reportUnless (ok : Bool) (error : SemanticError) (span : Span) :
    mapSpans σ (reportUnless ok error span) = reportUnless ok error (σ span) := by
  cases ok <;> rfl

@[simp] theorem mapSpans_tell (rs : List Report) :
    mapSpans σ (tell rs) = tell (rs.map (Report.mapSpan σ)) := rfl

theorem mapSpans_ite {c : Prop} [Decidable c] (x y : Reporting α) :
    mapSpans σ (if c then x else y) = if c then mapSpans σ x else mapSpans σ y := apply_ite _ _ _ _

end Reporting

open Reporting CoolTyping.Expr

/-! ## Expressions -/

namespace Env

variable (Γ : Env)

@[simp] theorem mapSpans_expect (found expected : TypeName) (span : Span) :
    mapSpans σ (Γ.expect found expected span) = Γ.expect found expected (σ span) :=
  mapSpans_reportUnless σ _ _ _

@[simp] theorem mapSpans_declaredType (ctx : Context) (name : TypeName) (span : Span) :
    mapSpans σ (ClassTable.declaredType ctx name span) = ClassTable.declaredType ctx name (σ span) := by
  unfold ClassTable.declaredType
  cases ctx.resolve name <;> simp

@[simp] theorem mapSpans_declaredAt (name : TypeName) (span : Span) :
    mapSpans σ (Γ.declaredAt name span) = Γ.declaredAt name (σ span) := by
  simp [declaredAt]

@[simp] theorem mapSpans_variableType (name : String) (span : Span) :
    mapSpans σ (Γ.variableType name span) = Γ.variableType name (σ span) := by
  unfold variableType
  cases Γ.scope.lookup? name <;> simp

@[simp] theorem mapSpans_call (owner receiver : TypeName) (method : String) (argCount : Nat) (span : Span) :
    mapSpans σ (Γ.call owner receiver method argCount span) =
      Γ.call owner receiver method argCount (σ span) := by
  unfold call
  split
  · simp [mapSpans_ite]
  · simp

@[simp] theorem mapSpans_binary (op : BinaryOp) (left right : TypeName) (span : Span) :
    mapSpans σ (Γ.binary op left right span) = Γ.binary op left right (σ span) := by
  simp [binary, mapSpans_ite]

@[simp] theorem mapSpans_unary (op : UnaryOp) (t : TypeName) (place span : Span) :
    mapSpans σ (Γ.unary op t place span) = Γ.unary op t (σ place) (σ span) := by
  cases op <;> simp [unary]

@[simp] theorem mapSpans_condition (t : TypeName) (place : Span) :
    mapSpans σ (Γ.condition t place) = Γ.condition t (σ place) := mapSpans_reportUnless σ _ _ _

@[simp] theorem mapSpans_descends (t ancestor : TypeName) (place : Span) :
    mapSpans σ (Γ.descends t ancestor place) = Γ.descends t ancestor (σ place) :=
  mapSpans_reportUnless σ _ _ _

end Env

attribute [local simp] Expr.mapSpans mapSpansOpt mapSpansAll mapSpansInits mapSpansArms mapSpans_ite
  length_mapSpansAll Binder.mapSpan

mutual

theorem typeOf_mapSpans : ∀ (Γ : Env) (e : Expr), typeOf Γ (e.mapSpans σ) = mapSpans σ (typeOf Γ e)
  | Γ, .assign span name value => by
      simp only [Expr.mapSpans, typeOf, mapSpans_bind, mapSpans_ite, typeOf_mapSpans Γ value, span_mapSpans]
      cases Γ.scope.lookup? name <;> simp
  | Γ, .dispatch span receiver method args => by
      simp [typeOf, typeReceiver_mapSpans Γ receiver, typeArgs_mapSpans Γ args]
  | Γ, .staticDispatch span receiver ancestor method args => by
      simp [typeOf, typeOf_mapSpans Γ receiver, typeArgs_mapSpans Γ args]
  | Γ, .cond span test thenBranch elseBranch => by
      simp [typeOf, typeOf_mapSpans Γ test, typeOf_mapSpans Γ thenBranch, typeOf_mapSpans Γ elseBranch]
  | Γ, .loop span test body => by simp [typeOf, typeOf_mapSpans Γ test, typeOf_mapSpans Γ body]
  | Γ, .letIn span bindings body => by
      simp [typeOf, typeBindings_mapSpans Γ.nested bindings, fun Δ => typeOf_mapSpans Δ body]
  | Γ, .caseOf span scrutinee arms => by
      simp [typeOf, typeOf_mapSpans Γ scrutinee, typeArms_mapSpans Γ arms]
  | Γ, .block span body => by simp [typeOf, typeBlock_mapSpans Γ TypeName.object body]
  | Γ, .binary span op left right => by simp [typeOf, typeOf_mapSpans Γ left, typeOf_mapSpans Γ right]
  | Γ, .unary span op operand => by simp [typeOf, typeOf_mapSpans Γ operand]
  | Γ, .paren span inner => by simp [typeOf, typeOf_mapSpans Γ inner]
  | Γ, .new span ty => by simp [typeOf]
  | Γ, .ident span name => by simp [typeOf]
  | Γ, .int .. | Γ, .str .. | Γ, .bool .. => by simp [typeOf]

theorem typeReceiver_mapSpans : ∀ (Γ : Env) (receiver : Option Expr),
    typeReceiver Γ (mapSpansOpt σ receiver) = mapSpans σ (typeReceiver Γ receiver)
  | Γ, none => rfl
  | Γ, some e => by simp [typeReceiver, typeOf_mapSpans Γ e]

theorem typeArgs_mapSpans : ∀ (Γ : Env) (es : List Expr) (ts : List TypeName),
    typeArgs Γ (mapSpansAll σ es) ts = mapSpans σ (typeArgs Γ es ts)
  | Γ, [], _ => by simp [typeArgs]
  | Γ, e :: es, [] => by simp [typeArgs, typeOf_mapSpans Γ e, typeArgs_mapSpans Γ es]
  | Γ, e :: es, t :: ts => by simp [typeArgs, typeOf_mapSpans Γ e, typeArgs_mapSpans Γ es]

theorem typeBlock_mapSpans : ∀ (Γ : Env) (last : TypeName) (es : List Expr),
    typeBlock Γ last (mapSpansAll σ es) = mapSpans σ (typeBlock Γ last es)
  | Γ, last, [] => by simp [typeBlock]
  | Γ, last, e :: es => by simp [typeBlock, typeOf_mapSpans Γ e, fun t => typeBlock_mapSpans Γ t es]

theorem checkInit_mapSpans : ∀ (Γ : Env) (t : TypeName) (init : Option Expr),
    checkInit Γ t (mapSpansOpt σ init) = mapSpans σ (checkInit Γ t init)
  | Γ, t, none => by simp [checkInit]
  | Γ, t, some e => by simp [checkInit, typeOf_mapSpans Γ e]

theorem typeBindings_mapSpans : ∀ (Γ : Env) (bindings : List (Binder × Option Expr)),
    typeBindings Γ (mapSpansInits σ bindings) = mapSpans σ (typeBindings Γ bindings)
  | Γ, [] => by simp [typeBindings]
  | Γ, (b, init) :: bindings => by
      simp [typeBindings, fun t => checkInit_mapSpans Γ t init, fun Δ => typeBindings_mapSpans Δ bindings]

theorem typeArms_mapSpans : ∀ (Γ : Env) (arms : List (Binder × Expr)),
    typeArms Γ (mapSpansArms σ arms) = mapSpans σ (typeArms Γ arms)
  | Γ, [] => by simp [typeArms]
  | Γ, (b, body) :: arms => by
      simp [typeArms, fun Δ => typeOf_mapSpans Δ body, typeArms_mapSpans Γ arms]

end

/-! ## Classes and programs -/

section Lists

variable {α β : Type} {g : α → α}

theorem foldlM_mapSpans {f : β → α → Reporting β} (h : ∀ b a, f b (g a) = mapSpans σ (f b a)) (as : List α)
    (b : β) : (as.map g).foldlM f b = mapSpans σ (as.foldlM f b) := by
  induction as generalizing b with
  | nil => rfl
  | cons a as ih =>
      rw [List.map_cons, List.foldlM_cons, List.foldlM_cons, mapSpans_bind, h]
      exact congrArg _ (funext fun b => ih b)

theorem forM_mapSpans {f : α → Reporting Unit} (h : ∀ a, f (g a) = mapSpans σ (f a)) (as : List α) :
    (as.map g).forM f = mapSpans σ (as.forM f) := by
  induction as with
  | nil => rfl
  | cons a as ih =>
      change (f (g a) >>= fun _ => (as.map g).forM f) = mapSpans σ (f a >>= fun _ => as.forM f)
      rw [mapSpans_bind, h, ih]

theorem mapM_mapSpans {f : α → Reporting β} (h : ∀ a, f (g a) = mapSpans σ (f a)) (as : List α) :
    (as.map g).mapM f = mapSpans σ (as.mapM f) := by
  induction as with
  | nil => rfl
  | cons a as ih => simp [h, ih]

end Lists

namespace ClassDecl

variable (c : ClassDecl)

@[simp] theorem name_mapSpans : (c.mapSpans σ).name = c.name := rfl

@[simp] theorem parent_mapSpans : (c.mapSpans σ).parent = c.parent := rfl

@[simp] theorem span_mapSpans : (c.mapSpans σ).span = σ c.span := rfl

theorem attributes_mapSpans : (c.mapSpans σ).attributes = c.attributes.map (AttrDecl.mapSpans σ) := by
  unfold attributes mapSpans
  rw [List.filterMap_map, List.map_filterMap]
  exact congrArg (c.features.filterMap ·) (funext fun f => by cases f <;> rfl)

theorem methods_mapSpans : (c.mapSpans σ).methods = c.methods.map (MethodDecl.mapSpans σ) := by
  unfold methods mapSpans
  rw [List.filterMap_map, List.map_filterMap]
  exact congrArg (c.features.filterMap ·) (funext fun f => by cases f <;> rfl)

end ClassDecl

namespace ClassTable

def mapSpans (t : ClassTable) : ClassTable :=
  { t with registered := t.registered.map (Option.map (ClassDecl.mapSpans σ)) }

theorem classes_mapSpans (t : ClassTable) :
    (t.mapSpans σ).classes = t.classes.map (ClassDecl.mapSpans σ) := by
  unfold classes mapSpans
  rw [List.filterMap_map, List.map_filterMap]
  rfl

theorem register_mapSpans (ctx : Context) (cs : List ClassDecl) :
    register ctx (cs.map (ClassDecl.mapSpans σ)) =
      mapSpans σ <$> Reporting.mapSpans σ (register ctx cs) := by
  induction cs generalizing ctx with
  | nil => rfl
  | cons c cs ih =>
      rw [List.map_cons, register, register, c.name_mapSpans]
      cases ctx.create c.name <;> simp [ih, mapSpans]

theorem link_mapSpans (ctx : Context) (c : ClassDecl) (parent : TypeName) :
    link ctx (c.mapSpans σ) parent = Reporting.mapSpans σ (link ctx c parent) := by
  rw [link, link, c.name_mapSpans]
  cases ctx.setParent c.name parent <;> simp

theorem linkParent_mapSpans (ctx : Context) (c : ClassDecl) :
    linkParent ctx (c.mapSpans σ) = Reporting.mapSpans σ (linkParent ctx c) := by
  rw [linkParent, linkParent, c.parent_mapSpans]
  cases c.parent with
  | none => rfl
  | some parent => cases h : ctx.resolve parent <;> simp [h, link_mapSpans]

theorem defineAttribute_mapSpans (owner : TypeName) (ctx : Context) (a : AttrDecl) :
    defineAttribute owner ctx (a.mapSpans σ) = Reporting.mapSpans σ (defineAttribute owner ctx a) := by
  simp [defineAttribute, AttrDecl.mapSpans]

theorem defineMethod_mapSpans (owner : TypeName) (ctx : Context) (m : MethodDecl) :
    defineMethod owner ctx (m.mapSpans σ) = Reporting.mapSpans σ (defineMethod owner ctx m) := by
  rw [defineMethod, defineMethod, mapSpans_bind,
    show (m.mapSpans σ).params = m.params.map (Param.mapSpan σ) from rfl,
    mapM_mapSpans σ fun p => by simp [Param.mapSpan]]
  simp [MethodDecl.mapSpans]

theorem defineFeatures_mapSpans (ctx : Context) (c : ClassDecl) :
    defineFeatures ctx (c.mapSpans σ) = Reporting.mapSpans σ (defineFeatures ctx c) := by
  rw [defineFeatures, defineFeatures, c.attributes_mapSpans, c.methods_mapSpans, c.name_mapSpans,
    mapSpans_bind, foldlM_mapSpans σ (defineAttribute_mapSpans σ c.name)]
  exact congrArg _ (funext fun ctx => foldlM_mapSpans σ (defineMethod_mapSpans σ c.name) _ _)

theorem attrSpan_mapSpans (c : ClassDecl) (name : String) :
    attrSpan (c.mapSpans σ) name = σ (attrSpan c name) := by
  unfold attrSpan
  rw [c.attributes_mapSpans, List.find?_map,
    show ((·.name == name) ∘ AttrDecl.mapSpans σ) = fun a : AttrDecl => a.name == name from rfl]
  cases c.attributes.find? (·.name == name) <;> rfl

theorem methodSpan_mapSpans (c : ClassDecl) (name : String) :
    methodSpan (c.mapSpans σ) name = σ (methodSpan c name) := by
  unfold methodSpan
  rw [c.methods_mapSpans, List.find?_map,
    show ((·.name == name) ∘ MethodDecl.mapSpans σ) = fun m : MethodDecl => m.name == name from rfl]
  cases c.methods.find? (·.name == name) <;> rfl

theorem checkInherited_mapSpans (ctx : Context) (c : ClassDecl) :
    checkInherited ctx (c.mapSpans σ) = Reporting.mapSpans σ (checkInherited ctx c) := by
  rw [checkInherited, checkInherited, c.name_mapSpans]
  cases ctx.parent? c.name with
  | none => rfl
  | some parent => simp [attrSpan_mapSpans, methodSpan_mapSpans, Report.mapSpan, Function.comp_def]

theorem build_mapSpans (p : Program) :
    build (p.mapSpans σ) = mapSpans σ <$> Reporting.mapSpans σ (build p) := by
  simp only [build, Program.mapSpans, register_mapSpans, mapSpans_bind, bind_map_left, classes_mapSpans,
    foldlM_mapSpans σ (linkParent_mapSpans σ), foldlM_mapSpans σ (defineFeatures_mapSpans σ),
    foldlM_mapSpans σ (checkInherited_mapSpans σ), map_bind]
  rfl

end ClassTable

theorem methodEnv_mapSpans (Γ : Env) (m : MethodDecl) : methodEnv Γ (m.mapSpans σ) = methodEnv Γ m := by
  unfold methodEnv
  rw [show (m.mapSpans σ).params = m.params.map (Param.mapSpan σ) from rfl, List.foldl_map]
  rfl

theorem checkFeature_mapSpans (Γ : Env) (f : Feature) :
    checkFeature Γ (f.mapSpans σ) = mapSpans σ (checkFeature Γ f) := by
  cases f with
  | attr a => exact checkInit_mapSpans σ Γ _ a.init
  | method m =>
      simp only [checkFeature, Feature.mapSpans, methodEnv_mapSpans, mapSpans_bind]
      simp [MethodDecl.mapSpans, typeOf_mapSpans]

theorem checkClass_mapSpans (ctx : Context) (c : ClassDecl) :
    checkClass ctx (c.mapSpans σ) = mapSpans σ (checkClass ctx c) :=
  forM_mapSpans σ (checkFeature_mapSpans σ _) _

theorem check_mapSpans (t : ClassTable) : (t.mapSpans σ).check = mapSpans σ t.check := by
  rw [ClassTable.check, ClassTable.check, t.classes_mapSpans]
  exact forM_mapSpans σ (checkClass_mapSpans σ t.context) _

theorem typecheck_mapSpans (p : Program) :
    typecheck (p.mapSpans σ) = ClassTable.mapSpans σ <$> mapSpans σ (typecheck p) := by
  simp [typecheck, ClassTable.build_mapSpans, check_mapSpans]

/-! ## Diagnostics -/

theorem Report.mapSpan_injective (hσ : Function.Injective σ) : Function.Injective (Report.mapSpan σ) := by
  intro r r' h
  obtain ⟨error, span⟩ := r
  obtain ⟨error', span'⟩ := r'
  have herror : error = error' := congrArg Report.error h
  have hspan : span = span' := hσ (congrArg Report.span h)
  rw [herror, hspan]

theorem Diagnostics.ofReports_map {f : Report → Report} (hf : Function.Injective f) (rs : List Report) :
    ofReports (rs.map f) = (ofReports rs).map f := by
  have hall : ∀ (rs : List Report) (d : Diagnostics),
      insertAll (d.map f) (rs.map f) = (insertAll d rs).map f := by
    intro rs
    induction rs with
    | nil => exact fun _ => rfl
    | cons r rs ih =>
        intro d
        have hinsert : insert (d.map f) (f r) = (insert d r).map f := by
          unfold insert
          by_cases hr : r ∈ d
          · rw [if_pos hr, if_pos (List.mem_map_of_mem hr)]
          · rw [if_neg hr, if_neg (by rwa [List.mem_map_of_injective hf]), List.map_append]
            rfl
        exact (congrArg (insertAll · (rs.map f)) hinsert).trans (ih (insert d r))
  exact hall rs []

/-- Where different places stay different, no error is lost or gained. -/
theorem diagnostics_mapSpans (hσ : Function.Injective σ) (p : Program) :
    (typecheck (p.mapSpans σ)).diagnostics = (typecheck p).diagnostics.map (Report.mapSpan σ) := by
  rw [Reporting.diagnostics, typecheck_mapSpans, reports_map]
  exact Diagnostics.ofReports_map (Report.mapSpan_injective σ hσ) _

end CoolTyping
