import CoolTyping.Proofs.Relocation
import CoolTyping.Proofs.Typability

/-!
# Programs without their parentheses

A pair of parentheses has the type of what stands in it, so the check of a program finds the same types and
the same errors without the parentheses. Only the places of some reports move inside.
-/

namespace CoolTyping

open Reporting

/-! ## Programs -/

namespace Expr

def isParen : Expr → Bool
  | paren .. => true
  | _ => false

mutual

/-- The expression without its parentheses. -/
def bare : Expr → Expr
  | assign span name value => assign span name value.bare
  | dispatch span receiver method args => dispatch span (bareOpt receiver) method (bareAll args)
  | staticDispatch span receiver ancestor method args =>
    staticDispatch span receiver.bare ancestor method (bareAll args)
  | cond span test thenBranch elseBranch => cond span test.bare thenBranch.bare elseBranch.bare
  | loop span test body => loop span test.bare body.bare
  | letIn span bindings body => letIn span (bareInits bindings) body.bare
  | caseOf span scrutinee arms => caseOf span scrutinee.bare (bareArms arms)
  | block span body => block span (bareAll body)
  | binary span op left right => binary span op left.bare right.bare
  | unary span op operand => unary span op operand.bare
  | new span ty => new span ty
  | paren _ inner => inner.bare
  | ident span name => ident span name
  | int span value => int span value
  | str span value => str span value
  | bool span value => bool span value
termination_by structural e => e

def bareOpt : Option Expr → Option Expr
  | some e => some e.bare
  | none => none
termination_by structural e => e

def bareAll : List Expr → List Expr
  | [] => []
  | e :: es => e.bare :: bareAll es
termination_by structural es => es

def bareInits : List (Binder × Option Expr) → List (Binder × Option Expr)
  | [] => []
  | (b, init) :: bindings => (b, bareOpt init) :: bareInits bindings
termination_by structural bindings => bindings

def bareArms : List (Binder × Expr) → List (Binder × Expr)
  | [] => []
  | (b, body) :: arms => (b, body.bare) :: bareArms arms
termination_by structural arms => arms

end

theorem isParen_bare : (e : Expr) → e.bare.isParen = false
  | paren _ inner => isParen_bare inner
  | assign .. | dispatch .. | staticDispatch .. | cond .. | loop .. | letIn .. | caseOf .. | block ..
  | binary .. | unary .. | new .. | ident .. | int .. | str .. | bool .. => rfl

@[simp] theorem variableName?_bare : (e : Expr) → e.bare.variableName? = e.variableName?
  | paren _ inner => variableName?_bare inner
  | assign .. | dispatch .. | staticDispatch .. | cond .. | loop .. | letIn .. | caseOf .. | block ..
  | binary .. | unary .. | new .. | ident .. | int .. | str .. | bool .. => rfl

@[simp] theorem length_bareAll (es : List Expr) : (bareAll es).length = es.length := by
  induction es with
  | nil => rfl
  | cons e es ih => simp [bareAll, ih]

end Expr

def AttrDecl.bare (a : AttrDecl) : AttrDecl := { a with init := Expr.bareOpt a.init }

def MethodDecl.bare (m : MethodDecl) : MethodDecl := { m with body := m.body.bare }

def Feature.bare : Feature → Feature
  | .attr a => .attr a.bare
  | .method m => .method m.bare

def ClassDecl.bare (c : ClassDecl) : ClassDecl := { c with features := c.features.map Feature.bare }

/-- The program without its parentheses. -/
def Program.bare (p : Program) : Program := ⟨p.classes.map ClassDecl.bare⟩

/-- A change of all elements and the choice of some may be done in either order. -/
theorem filterMap_map_comm {α β : Type} {f : α → Option β} {g : α → α} {h : β → β}
    (hfg : ∀ a, f (g a) = (f a).map h) (as : List α) : (as.map g).filterMap f = (as.filterMap f).map h := by
  rw [List.filterMap_map, List.map_filterMap]
  exact congrArg (as.filterMap ·) (funext hfg)

namespace ClassDecl

variable (c : ClassDecl)

@[simp] theorem name_bare : c.bare.name = c.name := rfl

theorem attributes_bare : c.bare.attributes = c.attributes.map AttrDecl.bare :=
  filterMap_map_comm (fun f => by cases f <;> rfl) c.features

theorem methods_bare : c.bare.methods = c.methods.map MethodDecl.bare :=
  filterMap_map_comm (fun f => by cases f <;> rfl) c.features

end ClassDecl

/-! ## Class tables

They are built from declarations, never from what stands in a body. -/

namespace ClassTable

def bare (t : ClassTable) : ClassTable :=
  { t with registered := t.registered.map (Option.map ClassDecl.bare) }

theorem classes_bare (t : ClassTable) : t.bare.classes = t.classes.map ClassDecl.bare := by
  unfold classes bare
  exact filterMap_map_comm (fun c => by rfl) t.registered

theorem register_bare (ctx : Context) (cs : List ClassDecl) :
    register ctx (cs.map ClassDecl.bare) = bare <$> register ctx cs := by
  induction cs generalizing ctx with
  | nil => rfl
  | cons c cs ih =>
      rw [List.map_cons, register, register, c.name_bare]
      cases ctx.create c.name with
      | ok ctx => simp [ih, bare]
      | error e => simp [ih, bare, ClassDecl.bare]

theorem defineFeatures_bare (ctx : Context) (c : ClassDecl) :
    defineFeatures ctx c.bare = defineFeatures ctx c := by
  simp only [defineFeatures, c.attributes_bare, c.methods_bare, List.foldlM_map]
  rfl

theorem attrSpan_bare (c : ClassDecl) (name : String) : attrSpan c.bare name = attrSpan c name := by
  unfold attrSpan
  rw [c.attributes_bare, List.find?_map, Option.elim_map]
  rfl

theorem methodSpan_bare (c : ClassDecl) (name : String) : methodSpan c.bare name = methodSpan c name := by
  unfold methodSpan
  rw [c.methods_bare, List.find?_map, Option.elim_map]
  rfl

theorem checkInherited_bare (ctx : Context) (c : ClassDecl) :
    checkInherited ctx c.bare = checkInherited ctx c := by
  simp only [checkInherited, c.name_bare, attrSpan_bare, methodSpan_bare]

theorem build_bare (p : Program) : build p.bare = bare <$> build p := by
  have hlink : (fun ctx c => linkParent ctx (ClassDecl.bare c)) = linkParent := rfl
  have hdefine : (fun ctx c => defineFeatures ctx (ClassDecl.bare c)) = defineFeatures :=
    funext fun ctx => funext (defineFeatures_bare ctx)
  have hcheck : (fun ctx c => checkInherited ctx (ClassDecl.bare c)) = checkInherited :=
    funext fun ctx => funext (checkInherited_bare ctx)
  simp only [build, Program.bare, register_bare, bind_map_left, classes_bare, List.foldlM_map, hlink, hdefine,
    hcheck, map_bind]
  rfl

end ClassTable

/-! ## Types and errors

The places of reports are left out: all of them are replaced by one. -/

section Typing

variable (place : Span)

/-- The value and the errors of a computation, all of them at one place. -/
abbrev Reporting.placed {α : Type} (x : Reporting α) : Reporting α := x.mapSpans fun _ => place

attribute [local simp] Expr.bare Expr.bareOpt Expr.bareAll Expr.bareInits Expr.bareArms mapSpans_ite

mutual

theorem typeOf_bare : (Γ : Env) → (e : Expr) → (typeOf Γ e.bare).placed place = (typeOf Γ e).placed place
  | Γ, .assign span name value => by
      simp only [Expr.bare, typeOf, mapSpans_bind, mapSpans_ite, typeOf_bare Γ value]
      cases Γ.scope.lookup? name <;> simp
  | Γ, .dispatch span receiver method args => by
      simp [typeOf, typeReceiver_bare Γ receiver, typeArgs_bare Γ args]
  | Γ, .staticDispatch span receiver ancestor method args => by
      simp [typeOf, typeOf_bare Γ receiver, typeArgs_bare Γ args]
  | Γ, .cond span test thenBranch elseBranch => by
      simp [typeOf, typeOf_bare Γ test, typeOf_bare Γ thenBranch, typeOf_bare Γ elseBranch]
  | Γ, .loop span test body => by simp [typeOf, typeOf_bare Γ test, typeOf_bare Γ body]
  | Γ, .letIn span bindings body => by
      simp [typeOf, typeBindings_bare Γ.nested bindings, fun Δ => typeOf_bare Δ body]
  | Γ, .caseOf span scrutinee arms => by simp [typeOf, typeOf_bare Γ scrutinee, typeArms_bare Γ arms]
  | Γ, .block span body => by simp [typeOf, typeBlock_bare Γ TypeName.object body]
  | Γ, .binary span op left right => by simp [typeOf, typeOf_bare Γ left, typeOf_bare Γ right]
  | Γ, .unary span op operand => by simp [typeOf, typeOf_bare Γ operand]
  | Γ, .paren span inner => by simp [typeOf, typeOf_bare Γ inner]
  | Γ, .new .. | Γ, .ident .. | Γ, .int .. | Γ, .str .. | Γ, .bool .. => rfl

theorem typeReceiver_bare : (Γ : Env) → (receiver : Option Expr) →
    (typeReceiver Γ (Expr.bareOpt receiver)).placed place = (typeReceiver Γ receiver).placed place
  | Γ, none => rfl
  | Γ, some e => by simp [typeReceiver, typeOf_bare Γ e]

theorem typeArgs_bare : (Γ : Env) → (es : List Expr) → (ts : List TypeName) →
    (typeArgs Γ (Expr.bareAll es) ts).placed place = (typeArgs Γ es ts).placed place
  | Γ, [], _ => rfl
  | Γ, e :: es, [] => by simp [typeArgs, typeOf_bare Γ e, typeArgs_bare Γ es]
  | Γ, e :: es, t :: ts => by simp [typeArgs, typeOf_bare Γ e, typeArgs_bare Γ es]

theorem typeBlock_bare : (Γ : Env) → (last : TypeName) → (es : List Expr) →
    (typeBlock Γ last (Expr.bareAll es)).placed place = (typeBlock Γ last es).placed place
  | Γ, last, [] => rfl
  | Γ, last, e :: es => by simp [typeBlock, typeOf_bare Γ e, fun t => typeBlock_bare Γ t es]

theorem checkInit_bare : (Γ : Env) → (t : TypeName) → (init : Option Expr) →
    (checkInit Γ t (Expr.bareOpt init)).placed place = (checkInit Γ t init).placed place
  | Γ, t, none => rfl
  | Γ, t, some e => by simp [checkInit, typeOf_bare Γ e]

theorem typeBindings_bare : (Γ : Env) → (bindings : List (Binder × Option Expr)) →
    (typeBindings Γ (Expr.bareInits bindings)).placed place = (typeBindings Γ bindings).placed place
  | Γ, [] => rfl
  | Γ, (b, init) :: bindings => by
      simp [typeBindings, fun t => checkInit_bare Γ t init, fun Δ => typeBindings_bare Δ bindings]

theorem typeArms_bare : (Γ : Env) → (arms : List (Binder × Expr)) →
    (typeArms Γ (Expr.bareArms arms)).placed place = (typeArms Γ arms).placed place
  | Γ, [] => rfl
  | Γ, (b, body) :: arms => by simp [typeArms, fun Δ => typeOf_bare Δ body, typeArms_bare Γ arms]

end

theorem forM_placed {α : Type} {f : α → Reporting Unit} {g : α → α}
    (h : ∀ a, (f (g a)).placed place = (f a).placed place) (as : List α) :
    ((as.map g).forM f).placed place = (as.forM f).placed place := by
  induction as with
  | nil => rfl
  | cons a as ih =>
      change (f (g a) >>= fun _ => (as.map g).forM f).placed place = (f a >>= fun _ => as.forM f).placed place
      simp only [mapSpans_bind, h, ih]

theorem checkFeature_bare (Γ : Env) (f : Feature) :
    (checkFeature Γ f.bare).placed place = (checkFeature Γ f).placed place := by
  cases f with
  | attr a => exact checkInit_bare place Γ _ a.init
  | method m =>
      change (typeOf (methodEnv Γ m) m.body.bare >>= fun found =>
        Γ.expect found (Γ.declared m.ret) m.body.bare.span).placed place = _
      simp [checkFeature, typeOf_bare]

theorem checkClass_bare (ctx : Context) (c : ClassDecl) :
    (checkClass ctx c.bare).placed place = (checkClass ctx c).placed place :=
  forM_placed place (checkFeature_bare place _) c.features

theorem ClassTable.check_bare (t : ClassTable) : t.bare.check.placed place = t.check.placed place := by
  rw [check, t.classes_bare]
  exact forM_placed place (checkClass_bare place t.context) t.classes

theorem typecheck_bare (p : Program) :
    (typecheck p.bare).placed place = ClassTable.bare <$> (typecheck p).placed place := by
  simp [typecheck, ClassTable.build_bare, ClassTable.check_bare]

end Typing

theorem Reporting.value_eq_of_placed {α : Type} {x y : Reporting α} {place : Span}
    (h : x.placed place = y.placed place) : x.value = y.value := by
  change (x.placed place).value = (y.placed place).value
  rw [h]

section Values

variable (Γ : Env)

theorem value_typeOf_bare (e : Expr) : (typeOf Γ e.bare).value = (typeOf Γ e).value :=
  value_eq_of_placed (typeOf_bare e.span Γ e)

theorem value_typeReceiver_bare (receiver : Option Expr) :
    (typeReceiver Γ (Expr.bareOpt receiver)).value = (typeReceiver Γ receiver).value :=
  value_eq_of_placed (typeReceiver_bare ⟨0, 0⟩ Γ receiver)

theorem value_typeBindings_bare (bindings : List (Binder × Option Expr)) :
    (typeBindings Γ (Expr.bareInits bindings)).value = (typeBindings Γ bindings).value :=
  value_eq_of_placed (typeBindings_bare ⟨0, 0⟩ Γ bindings)

end Values

/-- The same errors are found in the same order. -/
theorem errors_bare (p : Program) :
    (typecheck p.bare).reports.map (·.error) = (typecheck p).reports.map (·.error) := by
  have hplaced := congrArg Reporting.reports (typecheck_bare ⟨0, 0⟩ p)
  rw [reports_map] at hplaced
  have herrors := congrArg (List.map Report.error) hplaced
  simpa [Reporting.mapSpans, Report.mapSpan, Function.comp_def] using herrors

/-! ## Visits -/

namespace Visit

/-- `w` is the visit of the same expression without its parentheses. It sees the same variables and ends
with the same type. -/
structure Bare (v w : Visit) : Prop where
  env : w.env = v.env
  expr : w.expr = v.expr.bare
  type : w.type = v.type

end Visit

/-- One visit for each one of an expression that is not in parentheses. Parentheses have the visit of what
stands in them. -/
inductive BareVisits : List Visit → List Visit → Prop
  | nil : BareVisits [] []
  | part {v w vs ws} : v.expr.isParen = false → v.Bare w → BareVisits vs ws → BareVisits (v :: vs) (w :: ws)
  | paren {v w vs ws} : v.expr.isParen = true → v.Bare w → BareVisits vs (w :: ws) →
      BareVisits (v :: vs) (w :: ws)

namespace BareVisits

variable {vs vs' ws ws' : List Visit}

theorem append (h : BareVisits vs ws) (h' : BareVisits vs' ws') : BareVisits (vs ++ vs') (ws ++ ws') := by
  induction h with
  | nil => exact h'
  | part hv hvw _ ih => exact .part hv hvw ih
  | paren hv hvw _ ih => exact .paren hv hvw ih

/-- No visit is that of parentheses any more. -/
theorem not_paren (h : BareVisits vs ws) : ∀ w ∈ ws, w.expr.isParen = false := by
  induction h with
  | nil => exact fun _ hw => absurd hw List.not_mem_nil
  | part _ hvw _ ih =>
      refine List.forall_mem_cons.mpr ⟨?_, ih⟩
      rw [hvw.expr]
      exact Expr.isParen_bare _
  | paren _ _ _ ih => exact ih

theorem visitsEach {α : Type} {reports reports' : α → List Report} {visit : List Report → α → List Visit}
    {g : α → α} (h : ∀ rs rs' a, BareVisits (visit rs a) (visit rs' (g a))) (rs rs' : List Report)
    (as : List α) : BareVisits (visitsEach reports visit rs as) (visitsEach reports' visit rs' (as.map g)) := by
  induction as generalizing rs rs' with
  | nil => exact .nil
  | cons a as ih => exact (h rs rs' a).append (ih _ _)

end BareVisits

theorem Visit.Bare.of_expr (rs rs' : List Report) (Γ : Env) (e : Expr) : Bare ⟨rs, Γ, e⟩ ⟨rs', Γ, e.bare⟩ :=
  ⟨rfl, rfl, value_typeOf_bare Γ e⟩

/-- The first visit is that of the expression itself. -/
theorem visits_eq_cons (rs : List Report) (Γ : Env) (e : Expr) : ∃ vs, visits rs Γ e = ⟨rs, Γ, e⟩ :: vs := by
  cases e <;> exact ⟨_, rfl⟩

mutual

theorem visits_bare : (rs rs' : List Report) → (Γ : Env) → (e : Expr) →
    BareVisits (visits rs Γ e) (visits rs' Γ e.bare)
  | rs, rs', Γ, .paren span inner => by
      have hinner := visits_bare rs rs' Γ inner
      obtain ⟨ws, hws⟩ := visits_eq_cons rs' Γ inner.bare
      rw [hws] at hinner
      rw [visits, Expr.bare, hws]
      exact .paren rfl (.of_expr rs rs' Γ (.paren span inner)) hinner
  | _, _, Γ, .assign _ _ value => .part rfl (.of_expr ..) (visits_bare _ _ Γ value)
  | rs, rs', Γ, .dispatch span receiver method args => by
      have hself := Visit.Bare.of_expr rs rs' Γ (.dispatch span receiver method args)
      simp only [visits, Expr.bare, value_typeReceiver_bare, Expr.length_bareAll] at hself ⊢
      exact .part rfl hself ((visitsReceiver_bare _ _ Γ receiver).append (visitsArgs_bare _ _ Γ args _))
  | rs, rs', Γ, .staticDispatch span receiver ancestor method args => by
      have hself := Visit.Bare.of_expr rs rs' Γ (.staticDispatch span receiver ancestor method args)
      simp only [visits, Expr.bare, value_typeOf_bare, Expr.length_bareAll] at hself ⊢
      exact .part rfl hself ((visits_bare _ _ Γ receiver).append (visitsArgs_bare _ _ Γ args _))
  | _, _, Γ, .cond _ test thenBranch elseBranch =>
      .part rfl (.of_expr ..) (((visits_bare _ _ Γ test).append (visits_bare _ _ Γ thenBranch)).append
        (visits_bare _ _ Γ elseBranch))
  | _, _, Γ, .loop _ test body =>
      .part rfl (.of_expr ..) ((visits_bare _ _ Γ test).append (visits_bare _ _ Γ body))
  | rs, rs', Γ, .letIn span bindings body => by
      have hself := Visit.Bare.of_expr rs rs' Γ (.letIn span bindings body)
      simp only [visits, Expr.bare, value_typeBindings_bare] at hself ⊢
      exact .part rfl hself ((visitsBindings_bare _ _ Γ.nested bindings).append (visits_bare _ _ _ body))
  | _, _, Γ, .caseOf _ scrutinee arms =>
      .part rfl (.of_expr ..) ((visits_bare _ _ Γ scrutinee).append (visitsArms_bare _ _ Γ arms))
  | _, _, Γ, .block _ body => .part rfl (.of_expr ..) (visitsBlock_bare _ _ Γ body)
  | _, _, Γ, .binary _ _ left right =>
      .part rfl (.of_expr ..) ((visits_bare _ _ Γ left).append (visits_bare _ _ Γ right))
  | _, _, Γ, .unary _ _ operand => .part rfl (.of_expr ..) (visits_bare _ _ Γ operand)
  | _, _, _, .new .. | _, _, _, .ident .. | _, _, _, .int .. | _, _, _, .str .. | _, _, _, .bool .. =>
      .part rfl (.of_expr ..) .nil

theorem visitsReceiver_bare : (rs rs' : List Report) → (Γ : Env) → (receiver : Option Expr) →
    BareVisits (visitsReceiver rs Γ receiver) (visitsReceiver rs' Γ (Expr.bareOpt receiver))
  | _, _, _, none => .nil
  | _, _, Γ, some e => visits_bare _ _ Γ e

theorem visitsArgs_bare : (rs rs' : List Report) → (Γ : Env) → (es : List Expr) → (ts : List TypeName) →
    BareVisits (visitsArgs rs Γ es ts) (visitsArgs rs' Γ (Expr.bareAll es) ts)
  | _, _, _, [], _ => .nil
  | _, _, Γ, e :: es, [] => (visits_bare _ _ Γ e).append (visitsArgs_bare _ _ Γ es [])
  | _, _, Γ, e :: es, _ :: ts => (visits_bare _ _ Γ e).append (visitsArgs_bare _ _ Γ es ts)

theorem visitsBlock_bare : (rs rs' : List Report) → (Γ : Env) → (es : List Expr) →
    BareVisits (visitsBlock rs Γ es) (visitsBlock rs' Γ (Expr.bareAll es))
  | _, _, _, [] => .nil
  | _, _, Γ, e :: es => (visits_bare _ _ Γ e).append (visitsBlock_bare _ _ Γ es)

theorem visitsInit_bare : (rs rs' : List Report) → (Γ : Env) → (init : Option Expr) →
    BareVisits (visitsInit rs Γ init) (visitsInit rs' Γ (Expr.bareOpt init))
  | _, _, _, none => .nil
  | _, _, Γ, some e => visits_bare _ _ Γ e

theorem visitsBindings_bare : (rs rs' : List Report) → (Γ : Env) → (bindings : List (Binder × Option Expr)) →
    BareVisits (visitsBindings rs Γ bindings) (visitsBindings rs' Γ (Expr.bareInits bindings))
  | _, _, _, [] => .nil
  | _, _, Γ, (_, init) :: bindings => (visitsInit_bare _ _ Γ init).append (visitsBindings_bare _ _ _ bindings)

theorem visitsArms_bare : (rs rs' : List Report) → (Γ : Env) → (arms : List (Binder × Expr)) →
    BareVisits (visitsArms rs Γ arms) (visitsArms rs' Γ (Expr.bareArms arms))
  | _, _, _, [] => .nil
  | _, _, Γ, (_, body) :: arms => (visits_bare _ _ _ body).append (visitsArms_bare _ _ Γ arms)

end

theorem Feature.visits_bare (rs rs' : List Report) (Γ : Env) (f : Feature) :
    BareVisits (f.visits rs Γ) (f.bare.visits rs' Γ) := by
  cases f with
  | attr a => exact visitsInit_bare rs rs' Γ a.init
  | method m => exact CoolTyping.visits_bare rs rs' (methodEnv Γ m) m.body

theorem ClassTable.visits_bare (t : ClassTable) : BareVisits t.visits t.bare.visits := by
  rw [visits, visits, t.classes_bare]
  refine .visitsEach (fun rs rs' c => ?_) [] [] t.classes
  exact .visitsEach (fun rs rs' f => f.visits_bare rs rs' _) rs rs' c.features

end CoolTyping
