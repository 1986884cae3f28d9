import CoolTyping.Proofs.Insensitivity
import CoolTyping.Proofs.Parentheses

/-!
# Inference without parentheses

Parentheses open no scope, and a variable in parentheses is narrowed as it is without them. So inference
runs through the same trees, and fills in the same types, whether the parentheses are there or not.
-/

namespace CoolTyping

open CoolTyping.Expr

/-! ## The first tree -/

namespace Seed

variable (ctx : Context) (current : TypeName)

attribute [local simp] bare bareOpt bareAll bareInits bareArms expr optExpr exprs lets cases

mutual

theorem expr_bare : (bag : BagId) → (e : Expr) → (t : BagTree) →
    expr ctx current bag e.bare t = expr ctx current bag e t
  | bag, .assign _ _ value, t => by simp [expr_bare bag value]
  | bag, .dispatch _ receiver _ args, t => by simp [optExpr_bare bag receiver, exprs_bare bag args]
  | bag, .staticDispatch _ receiver _ _ args, t => by simp [expr_bare bag receiver, exprs_bare bag args]
  | bag, .cond _ test thenBranch elseBranch, t => by
      simp [expr_bare bag test, expr_bare bag thenBranch, expr_bare bag elseBranch]
  | bag, .loop _ test body, t => by simp [expr_bare bag test, expr_bare bag body]
  | bag, .letIn _ bindings body, t => by
      simp [lets_bare bag bindings, fun inner => expr_bare inner body]
  | bag, .caseOf _ scrutinee arms, t => by simp [expr_bare bag scrutinee, cases_bare bag arms]
  | bag, .block _ body, t => by simp [exprs_bare bag body]
  | bag, .binary _ _ left right, t => by simp [expr_bare bag left, expr_bare bag right]
  | bag, .unary _ _ operand, t => by simp [expr_bare bag operand]
  | bag, .paren _ inner, t => by simp [expr_bare bag inner]
  | _, .new .., _ | _, .ident .., _ | _, .int .., _ | _, .str .., _ | _, .bool .., _ => rfl

theorem optExpr_bare : (bag : BagId) → (e : Option Expr) → (t : BagTree) →
    optExpr ctx current bag (bareOpt e) t = optExpr ctx current bag e t
  | _, none, _ => rfl
  | bag, some e, t => expr_bare bag e t

theorem exprs_bare : (bag : BagId) → (es : List Expr) → (t : BagTree) →
    exprs ctx current bag (bareAll es) t = exprs ctx current bag es t
  | _, [], _ => rfl
  | bag, e :: es, t => by simp [expr_bare bag e, exprs_bare bag es]

theorem lets_bare : (bag : BagId) → (bindings : List (Binder × Option Expr)) → (t : BagTree) →
    lets ctx current bag (bareInits bindings) t = lets ctx current bag bindings t
  | _, [], _ => rfl
  | bag, (b, init) :: bindings, t => by
      simp [optExpr_bare bag init, fun inner => lets_bare inner bindings]

theorem cases_bare : (bag : BagId) → (arms : List (Binder × Expr)) → (t : BagTree) →
    cases ctx current bag (bareArms arms) t = cases ctx current bag arms t
  | _, [], _ => rfl
  | bag, (b, body) :: arms, t => by simp [fun inner => expr_bare inner body, cases_bare bag arms]

end

theorem feature_bare (bag : BagId) (t : BagTree) (f : Feature) :
    feature ctx current bag t f.bare = feature ctx current bag t f := by
  cases f with
  | attr a => exact optExpr_bare ctx current bag a.init t
  | method m => exact expr_bare ctx current _ m.body _

theorem classDecl_bare (t : BagTree) (c : ClassDecl) : classDecl ctx t c.bare = classDecl ctx t c := by
  simp only [classDecl, c.attributes_bare, c.methods_bare, List.foldl_map]
  simp only [ClassDecl.bare, List.foldl_map, feature_bare]
  rfl

end Seed

theorem ClassTable.seed_bare (t : ClassTable) : t.bare.seed = t.seed := by
  simp only [seed, t.classes_bare, List.foldl_map, Seed.classDecl_bare]
  rfl

/-! ## Sweeps -/

namespace Sweep

section Steps

variable (Γ : Env) (bag : BagId)

@[simp] theorem narrowVar_bare (e : Expr) : narrowVar Γ bag e.bare = narrowVar Γ bag e := by
  funext incoming
  rw [narrowVar, narrowVar, variableName?_bare]

@[simp] theorem narrowReceiver_bare (receiver : Option Expr) :
    narrowReceiver Γ bag (bareOpt receiver) = narrowReceiver Γ bag receiver := by
  cases receiver with
  | none => rfl
  | some e => exact narrowVar_bare Γ bag e

@[simp] theorem narrowTo_bare (e : Expr) : narrowTo Γ bag e.bare = narrowTo Γ bag e := by
  funext restriction
  simp only [narrowTo, narrowVar_bare]

@[simp] theorem store_bare (e : Expr) : store Γ bag e.bare = store Γ bag e := by
  funext found slotBag slot
  simp only [store, restrictTo, restrict, variableName?_bare]

@[simp] theorem describe_bare (receiver : Option Expr) : describe (bareOpt receiver) = describe receiver := by
  funext found
  cases receiver with
  | none => rfl
  | some e => simp [describe, bareOpt]

end Steps

variable (Γ : Env)

mutual

theorem visit_bare : (bag : BagId) → (restriction : Option Candidates) → (e : Expr) →
    visit Γ bag restriction e.bare = visit Γ bag restriction e
  | bag, r, .paren _ inner => by simp only [bare, visit, visit_bare bag r inner]
  | bag, r, .assign _ name value => by
      simp only [bare, visit, fun target => visit_bare bag target value, store_bare]
  | bag, r, .block _ body => by simp only [bare, visit, visitBlock_bare bag r body]
  | bag, r, .binary _ op left right => by
      simp only [bare, visit, fun r => visit_bare bag r left, fun r => visit_bare bag r right, narrowVar_bare]
  | bag, r, .unary _ op operand => by
      cases op <;> simp only [bare, visit, fun r => visit_bare bag r operand, narrowVar_bare]
  | bag, r, .loop _ test body => by
      simp only [bare, visit, fun r => visit_bare bag r test, visit_bare bag none body, narrowVar_bare]
  | bag, r, .cond _ test thenBranch elseBranch => by
      simp only [bare, visit, fun r => visit_bare bag r test, visit_bare bag none thenBranch,
        visit_bare bag none elseBranch, narrowVar_bare]
  | bag, r, .letIn _ bindings body => by
      simp only [bare, visit, visitBindings_bare bag bindings, fun scope => visit_bare scope r body]
  | bag, r, .caseOf _ scrutinee arms => by
      simp only [bare, visit, visit_bare bag none scrutinee, fun acc => visitArms_bare bag acc arms]
  | bag, r, .dispatch _ receiver method args => by
      simp only [bare, visit, visitReceiver_bare bag receiver, visitAll_bare bag args,
        fun methodBag params => visitArgs_bare bag methodBag params args, length_bareAll, describe_bare,
        narrowReceiver_bare]
  | bag, r, .staticDispatch _ receiver ancestor method args => by
      simp only [bare, visit, visit_bare bag none receiver, visitAll_bare bag args,
        fun methodBag params => visitArgs_bare bag methodBag params args, length_bareAll]
  | _, _, .new .. | _, _, .ident .. | _, _, .int .. | _, _, .str .. | _, _, .bool .. => rfl

theorem visitReceiver_bare : (bag : BagId) → (receiver : Option Expr) →
    visitReceiver Γ bag (bareOpt receiver) = visitReceiver Γ bag receiver
  | _, none => rfl
  | bag, some e => visit_bare bag none e

theorem visitAll_bare : (bag : BagId) → (es : List Expr) → visitAll Γ bag (bareAll es) = visitAll Γ bag es
  | _, [] => rfl
  | bag, e :: es => by simp only [bareAll, visitAll, visit_bare bag none e, visitAll_bare bag es]

theorem visitBlock_bare : (bag : BagId) → (restriction : Option Candidates) → (es : List Expr) →
    visitBlock Γ bag restriction (bareAll es) = visitBlock Γ bag restriction es
  | _, _, [] => rfl
  | bag, r, [e] => by simp only [bareAll, visitBlock, visit_bare bag r e, narrowTo_bare]
  | bag, r, e :: e' :: es => by
      have hrest := visitBlock_bare bag r (e' :: es)
      simp only [bareAll] at hrest
      simp only [bareAll, visitBlock, visit_bare bag none e, hrest]

theorem visitArgs_bare : (bag : BagId) → (methodBag : Option BagId) → (params : List (String × TypeName)) →
    (es : List Expr) → visitArgs Γ bag methodBag params (bareAll es) = visitArgs Γ bag methodBag params es
  | _, _, _, [] => rfl
  | _, _, [], _ :: _ => rfl
  | bag, methodBag, param :: params, e :: es => by
      simp only [bareAll, visitArgs, fun types => visit_bare bag types e, narrowVar_bare,
        visitArgs_bare bag methodBag params es]

theorem visitInit_bare : (bag inner : BagId) → (name : String) → (init : Option Expr) →
    visitInit Γ bag inner name (bareOpt init) = visitInit Γ bag inner name init
  | _, _, _, none => rfl
  | bag, inner, name, some e => by simp only [bareOpt, visitInit, visit_bare bag none e, store_bare]

theorem visitBindings_bare : (bag : BagId) → (bindings : List (Binder × Option Expr)) →
    visitBindings Γ bag (bareInits bindings) = visitBindings Γ bag bindings
  | _, [] => rfl
  | bag, (b, init) :: bindings => by
      simp only [bareInits, visitBindings, fun inner => visitInit_bare bag inner b.name init,
        fun inner => visitBindings_bare inner bindings]

theorem visitArms_bare : (bag : BagId) → (acc : Candidates) → (arms : List (Binder × Expr)) →
    visitArms Γ bag acc (bareArms arms) = visitArms Γ bag acc arms
  | _, _, [] => rfl
  | bag, acc, (b, body) :: arms => by
      simp only [bareArms, visitArms, fun inner => visit_bare inner none body,
        fun acc => visitArms_bare bag acc arms]

end

theorem feature_bare (bag : BagId) (f : Feature) : feature Γ bag f.bare = feature Γ bag f := by
  cases f with
  | attr a => exact visitInit_bare Γ bag bag a.name a.init
  | method m => simp only [Feature.bare, MethodDecl.bare, feature, fun inner => visit_bare Γ inner none m.body,
      store_bare]

theorem classDecl_bare (ctx : Context) (c : ClassDecl) : classDecl ctx c.bare = classDecl ctx c := by
  simp only [classDecl, ClassDecl.bare, List.forM_eq_forM, List.forM_map, feature_bare]

end Sweep

theorem ClassTable.sweep_bare (t : ClassTable) : t.bare.sweep = t.sweep := by
  funext tree
  simp only [sweep, t.classes_bare, List.forM_eq_forM, List.forM_map, Sweep.classDecl_bare]
  rfl

/-! ## Filling in -/

namespace Expr

section Binders

variable (f : Binder → Binder)

attribute [local simp] bare bareOpt bareAll bareInits bareArms mapBinders mapBindersOpt mapBindersAll
  mapBindersInits mapBindersArms

mutual

theorem bare_mapBinders : (e : Expr) → (e.mapBinders f).bare = e.bare.mapBinders f
  | .assign _ _ value => by simp [bare_mapBinders value]
  | .dispatch _ receiver _ args => by simp [bareOpt_mapBinders receiver, bareAll_mapBinders args]
  | .staticDispatch _ receiver _ _ args => by simp [bare_mapBinders receiver, bareAll_mapBinders args]
  | .cond _ test thenBranch elseBranch => by
      simp [bare_mapBinders test, bare_mapBinders thenBranch, bare_mapBinders elseBranch]
  | .loop _ test body => by simp [bare_mapBinders test, bare_mapBinders body]
  | .letIn _ bindings body => by simp [bareInits_mapBinders bindings, bare_mapBinders body]
  | .caseOf _ scrutinee arms => by simp [bare_mapBinders scrutinee, bareArms_mapBinders arms]
  | .block _ body => by simp [bareAll_mapBinders body]
  | .binary _ _ left right => by simp [bare_mapBinders left, bare_mapBinders right]
  | .unary _ _ operand => by simp [bare_mapBinders operand]
  | .paren _ inner => by simp [bare_mapBinders inner]
  | .new .. | .ident .. | .int .. | .str .. | .bool .. => rfl

theorem bareOpt_mapBinders : (e : Option Expr) →
    bareOpt (mapBindersOpt f e) = mapBindersOpt f (bareOpt e)
  | none => rfl
  | some e => by simp [bare_mapBinders e]

theorem bareAll_mapBinders : (es : List Expr) → bareAll (mapBindersAll f es) = mapBindersAll f (bareAll es)
  | [] => rfl
  | e :: es => by simp [bare_mapBinders e, bareAll_mapBinders es]

theorem bareInits_mapBinders : (bindings : List (Binder × Option Expr)) →
    bareInits (mapBindersInits f bindings) = mapBindersInits f (bareInits bindings)
  | [] => rfl
  | (b, init) :: bindings => by simp [bareOpt_mapBinders init, bareInits_mapBinders bindings]

theorem bareArms_mapBinders : (arms : List (Binder × Expr)) →
    bareArms (mapBindersArms f arms) = mapBindersArms f (bareArms arms)
  | [] => rfl
  | (b, body) :: arms => by simp [bare_mapBinders body, bareArms_mapBinders arms]

end

end Binders

mutual

theorem binders_bare : (e : Expr) → e.bare.binders = e.binders
  | .assign _ _ value => by rw [bare, binders_assign, binders_assign, binders_bare value]
  | .dispatch _ receiver _ args => by
      rw [bare, binders_dispatch, binders_dispatch, binders_bareOpt receiver, binders_bareAll args]
  | .staticDispatch _ receiver _ _ args => by
      rw [bare, binders_staticDispatch, binders_staticDispatch, binders_bare receiver, binders_bareAll args]
  | .cond _ test thenBranch elseBranch => by
      rw [bare, binders_cond, binders_cond, binders_bare test, binders_bare thenBranch, binders_bare elseBranch]
  | .loop _ test body => by rw [bare, binders_loop, binders_loop, binders_bare test, binders_bare body]
  | .letIn _ bindings body => by
      obtain ⟨hnames, hinits⟩ := binders_bareInits bindings
      rw [bare, binders_letIn, binders_letIn, hnames, hinits, binders_bare body]
  | .caseOf _ scrutinee arms => by
      obtain ⟨hnames, hbodies⟩ := binders_bareArms arms
      rw [bare, binders_caseOf, binders_caseOf, hnames, hbodies, binders_bare scrutinee]
  | .block _ body => by rw [bare, binders_block, binders_block, binders_bareAll body]
  | .binary _ _ left right => by
      rw [bare, binders_binary, binders_binary, binders_bare left, binders_bare right]
  | .unary _ _ operand => by rw [bare, binders_unary, binders_unary, binders_bare operand]
  | .paren _ inner => by rw [bare, binders_paren, binders_bare inner]
  | .new .. | .ident .. | .int .. | .str .. | .bool .. => rfl

theorem binders_bareOpt : (e : Option Expr) → (bareOpt e).elim [] binders = e.elim [] binders
  | none => rfl
  | some e => binders_bare e

theorem binders_bareAll : (es : List Expr) → (bareAll es).flatMap binders = es.flatMap binders
  | [] => rfl
  | e :: es => by rw [bareAll, List.flatMap_cons, List.flatMap_cons, binders_bare e, binders_bareAll es]

theorem binders_bareInits : (bindings : List (Binder × Option Expr)) →
    (bareInits bindings).map (·.1) = bindings.map (·.1) ∧
      ((bareInits bindings).flatMap fun b => b.2.elim [] binders) =
        bindings.flatMap fun b => b.2.elim [] binders
  | [] => ⟨rfl, rfl⟩
  | (b, init) :: bindings => by
      obtain ⟨hnames, hinits⟩ := binders_bareInits bindings
      rw [bareInits, List.flatMap_cons, List.flatMap_cons, hinits, binders_bareOpt init]
      exact ⟨congrArg (b :: ·) hnames, rfl⟩

theorem binders_bareArms : (arms : List (Binder × Expr)) →
    (bareArms arms).map (·.1) = arms.map (·.1) ∧
      ((bareArms arms).flatMap fun a => a.2.binders) = arms.flatMap fun a => a.2.binders
  | [] => ⟨rfl, rfl⟩
  | (b, body) :: arms => by
      obtain ⟨hnames, hbodies⟩ := binders_bareArms arms
      rw [bareArms, List.flatMap_cons, List.flatMap_cons, hbodies, binders_bare body]
      exact ⟨congrArg (b :: ·) hnames, rfl⟩

end

end Expr

namespace BagTree

variable (T : BagTree) (ctx : Context)

theorem fillExpr_bare (e : Expr) : T.fillExpr ctx e.bare = (T.fillExpr ctx e).bare :=
  (bare_mapBinders _ e).symm

theorem fillFeature_bare (bag : BagId) (f : Feature) :
    T.fillFeature ctx bag f.bare = (T.fillFeature ctx bag f).bare := by
  cases f with
  | attr a =>
      cases hinit : a.init <;>
        simp [Feature.bare, AttrDecl.bare, fillFeature, hinit, bareOpt, fillExpr_bare]
  | method m =>
      simp only [Feature.bare, MethodDecl.bare, fillFeature, fillExpr_bare]
      rfl

theorem filledInFeature_bare (bag : BagId) (f : Feature) :
    T.filledInFeature ctx bag f.bare = T.filledInFeature ctx bag f := by
  cases f with
  | attr a =>
      cases hinit : a.init <;>
        simp [Feature.bare, AttrDecl.bare, filledInFeature, hinit, bareOpt, filledTypes, binders_bare]
  | method m => simp [Feature.bare, MethodDecl.bare, filledInFeature, filledTypes, binders_bare]

theorem fillClass_bare (c : ClassDecl) : T.fillClass ctx c.bare = (T.fillClass ctx c).bare := by
  simp only [fillClass, ClassDecl.bare]
  split <;> simp [fillFeature_bare]

theorem filledInClass_bare (c : ClassDecl) : T.filledInClass ctx c.bare = T.filledInClass ctx c := by
  simp only [filledInClass, ClassDecl.bare]
  split <;> simp [List.flatMap_map, filledInFeature_bare]

/-- The same types are put in, in the same places. -/
theorem fill_bare (p : Program) : T.fill ctx p.bare = (T.fill ctx p).bare := by
  simp [fill, Program.bare, fillClass_bare]

theorem filledIn_bare (p : Program) : T.filledIn ctx p.bare = T.filledIn ctx p := by
  simp [filledIn, Program.bare, List.flatMap_map, filledInClass_bare]

end BagTree

/-! ## The whole analysis -/

/-- Without its parentheses, a program has the same class table, the same type for each expression and the
same errors. Inference starts from the same tree, every sweep does the same to alike trees, and the same
types are put in. -/
theorem parentheses_transparent (p : Program) :
    let t := (ClassTable.build p).value
    let t' := (ClassTable.build p.bare).value
    t'.context = t.context ∧ ClassTable.build p.bare = ClassTable.bare <$> ClassTable.build p ∧
    BareVisits t.visits t'.visits ∧ (∀ w ∈ t'.visits, w.expr.isParen = false) ∧
    (typecheck p.bare).reports.map (·.error) = (typecheck p).reports.map (·.error) ∧
    ((typecheck p.bare).diagnostics = [] ↔ (typecheck p).diagnostics = []) ∧
    t'.seed = t.seed ∧ (∀ T, t'.sweep T = t.sweep T) ∧
    (∀ T U, T.Alike U → (t'.sweep T).1.Alike (t.sweep U).1) ∧
    ∀ (T : BagTree) (ctx : Context),
      T.fill ctx p.bare = (T.fill ctx p).bare ∧ T.filledIn ctx p.bare = T.filledIn ctx p := by
  have htable : (ClassTable.build p.bare).value = (ClassTable.build p).value.bare := by
    rw [ClassTable.build_bare, Reporting.value_map]
  have herrors := errors_bare p
  have hclean : (typecheck p.bare).diagnostics = [] ↔ (typecheck p).diagnostics = [] := by
    rw [Reporting.diagnostics_eq_nil, Reporting.diagnostics_eq_nil, ← List.map_eq_nil_iff, herrors,
      List.map_eq_nil_iff]
  have hvisits := (ClassTable.build p).value.visits_bare
  dsimp only
  rw [htable, ClassTable.seed_bare, ClassTable.sweep_bare]
  exact ⟨rfl, ClassTable.build_bare p, hvisits, hvisits.not_paren, herrors, hclean, rfl, fun _ => rfl,
    fun _ _ h => (ClassTable.sweep_alike h).1, fun T ctx => ⟨T.fill_bare ctx p, T.filledIn_bare ctx p⟩⟩

/-- Parentheses around a variable, around an initial value, and around parentheses. -/
def wrapping : Program :=
  let here : Span := ⟨0, 0⟩
  let wrap (e : Expr) : Expr := .paren here e
  ⟨[⟨0, "A", none, [
    .attr ⟨"x", TypeName.auto, some (wrap (.int here 1)), here⟩,
    .method ⟨1, "f", [⟨"y", TypeName.auto, here⟩], TypeName.auto,
      .binary here .add (wrap (wrap (.ident here "y"))) (wrap (.ident here "x")), here⟩], here⟩]⟩

theorem wrapping_transparent :
    let t := (ClassTable.build wrapping).value
    let t' := (ClassTable.build wrapping.bare).value
    t.visits.length = 8 ∧ t'.visits.length = 4 ∧ BareVisits t.visits t'.visits ∧
    t.seed ≠ t.seed.reversed ∧ (t'.sweep t.seed).1.Alike (t.sweep t.seed.reversed).1 := by
  obtain ⟨_, _, hvisits, _, _, _, _, _, halike, _⟩ := parentheses_transparent wrapping
  exact ⟨by decide +kernel, by decide +kernel, hvisits, by decide +kernel,
    halike _ _ (BagTree.alike_reversed _)⟩

end CoolTyping
