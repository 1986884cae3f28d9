import CoolTyping.Proofs.StrictCheck

/-!
# The course of the strict check

The strict check types every part of an expression once, in the order of a walk. A visit is one such part,
with what is in sight there and the reports that were made before. As long as nothing was reported, only
variables of concrete types are in sight.
-/

namespace CoolTyping

open Reporting

structure Visit where
  /-- The reports made so far. -/
  before : List Report
  env : Env
  expr : Expr

namespace Visit

/-- The type that the visit ends with. -/
def type (v : Visit) : TypeName := (typeOf v.env v.expr).value

/-- The reports made by the end of the visit. -/
def reports (v : Visit) : List Report := v.before ++ (typeOf v.env v.expr).reports

end Visit

/-! ## Dispatch -/

/-- The call of a method on a receiver of type `t`, of which nothing is known if that is a
placeholder. -/
def Env.invoke (Γ : Env) (t : TypeName) (method : String) (argCount : Nat) (span : Span) :
    Reporting (List TypeName × TypeName) :=
  if t == TypeName.auto then return ([], TypeName.auto) else Γ.call t t method argCount span

theorem Env.invoke_of_ne {Γ : Env} {t : TypeName} {method : String} {n : Nat} {span : Span}
    (h : t ≠ TypeName.auto) : Γ.invoke t method n span = Γ.call t t method n span :=
  if_neg (by simpa using h)

theorem typeOf_dispatch (Γ : Env) (span : Span) (receiver : Option Expr) (method : String)
    (args : List Expr) : typeOf Γ (.dispatch span receiver method args) = do
      let t ← typeReceiver Γ receiver
      let r ← Γ.invoke t method args.length span
      typeArgs Γ args r.1
      return r.2 := by
  rw [typeOf]
  unfold Env.invoke
  refine congrArg (typeReceiver Γ receiver >>= ·) (funext fun t => ?_)
  split <;> rfl

/-! ## Visits -/

mutual

/-- The parts of an expression, where `rs` were reported before. -/
def visits (rs : List Report) (Γ : Env) (e : Expr) : List Visit :=
  ⟨rs, Γ, e⟩ :: match e with
    | .assign _ _ value => visits rs Γ value
    | .dispatch span receiver method args =>
      let t := typeReceiver Γ receiver
      let r := Γ.invoke t.value method args.length span
      visitsReceiver rs Γ receiver ++ visitsArgs (rs ++ t.reports ++ r.reports) Γ args r.value.1
    | .staticDispatch span receiver ancestor method args =>
      let t := typeOf Γ receiver
      let owner := Γ.declaredAt ancestor span
      let check := Γ.descends t.value owner.value receiver.span
      let r := Γ.call owner.value t.value method args.length span
      visits rs Γ receiver ++
        visitsArgs (rs ++ t.reports ++ owner.reports ++ check.reports ++ r.reports) Γ args r.value.1
    | .cond _ test thenBranch elseBranch =>
      let t := typeOf Γ test
      let rs' := rs ++ t.reports ++ (Γ.condition t.value test.span).reports
      visits rs Γ test ++ visits rs' Γ thenBranch ++
        visits (rs' ++ (typeOf Γ thenBranch).reports) Γ elseBranch
    | .loop _ test body =>
      let t := typeOf Γ test
      visits rs Γ test ++ visits (rs ++ t.reports ++ (Γ.condition t.value test.span).reports) Γ body
    | .letIn _ bindings body =>
      let Δ := typeBindings Γ.nested bindings
      visitsBindings rs Γ.nested bindings ++ visits (rs ++ Δ.reports) Δ.value body
    | .caseOf _ scrutinee arms =>
      visits rs Γ scrutinee ++ visitsArms (rs ++ (typeOf Γ scrutinee).reports) Γ arms
    | .block _ body => visitsBlock rs Γ body
    | .binary _ _ left right => visits rs Γ left ++ visits (rs ++ (typeOf Γ left).reports) Γ right
    | .unary _ _ operand => visits rs Γ operand
    | .paren _ inner => visits rs Γ inner
    | .new .. | .ident .. | .int .. | .str .. | .bool .. => []
termination_by structural e

def visitsReceiver (rs : List Report) (Γ : Env) : Option Expr → List Visit
  | some e => visits rs Γ e
  | none => []
termination_by structural receiver => receiver

def visitsArgs (rs : List Report) (Γ : Env) : List Expr → List TypeName → List Visit
  | [], _ => []
  | e :: es, [] => visits rs Γ e ++ visitsArgs (rs ++ (typeOf Γ e).reports) Γ es []
  | e :: es, t :: ts =>
    let found := typeOf Γ e
    visits rs Γ e ++ visitsArgs (rs ++ found.reports ++ (Γ.expect found.value t e.span).reports) Γ es ts
termination_by structural es => es

def visitsBlock (rs : List Report) (Γ : Env) : List Expr → List Visit
  | [] => []
  | e :: es => visits rs Γ e ++ visitsBlock (rs ++ (typeOf Γ e).reports) Γ es
termination_by structural es => es

def visitsInit (rs : List Report) (Γ : Env) : Option Expr → List Visit
  | some e => visits rs Γ e
  | none => []
termination_by structural init => init

def visitsBindings (rs : List Report) (Γ : Env) : List (Binder × Option Expr) → List Visit
  | [] => []
  | (b, init) :: bindings =>
    let t := Γ.declaredAt b.ty b.span
    let rs' := rs ++ t.reports
    visitsInit rs' Γ init ++
      visitsBindings (rs' ++ (checkInit Γ t.value init).reports) (Γ.declare b.name t.value) bindings
termination_by structural bindings => bindings

def visitsArms (rs : List Report) (Γ : Env) : List (Binder × Expr) → List Visit
  | [] => []
  | (b, body) :: arms =>
    let t := Γ.declaredAt b.ty b.span
    let Δ := Γ.nested.declare b.name t.value
    visits (rs ++ t.reports) Δ body ++
      visitsArms (rs ++ t.reports ++ (typeOf Δ body).reports) Γ arms
termination_by structural arms => arms

end

/-! ## Visits and walks -/

mutual

/-- Every part is visited, in the order of a walk. -/
theorem visits_walk (rs : List Report) (Γ : Env) : (e : Expr) →
    (visits rs Γ e).map (·.expr) = e.walk
  | .assign _ _ value => by simp [visits, Expr.walk, visits_walk _ _ value]
  | .dispatch _ none _ args => by
      simp [visits, Expr.walk, visitsReceiver, visitsArgs_walk _ _ args]
  | .dispatch _ (some receiver) _ args => by
      simp [visits, Expr.walk, visitsReceiver, visits_walk _ _ receiver, visitsArgs_walk _ _ args]
  | .staticDispatch _ receiver _ _ args => by
      simp [visits, Expr.walk, visits_walk _ _ receiver, visitsArgs_walk _ _ args]
  | .cond _ test thenBranch elseBranch => by
      simp [visits, Expr.walk, visits_walk _ _ test, visits_walk _ _ thenBranch,
        visits_walk _ _ elseBranch]
  | .loop _ test body => by
      simp [visits, Expr.walk, visits_walk _ _ test, visits_walk _ _ body]
  | .letIn _ bindings body => by
      simp [visits, Expr.walk, visitsBindings_walk _ _ bindings, visits_walk _ _ body]
  | .caseOf _ scrutinee arms => by
      simp [visits, Expr.walk, visits_walk _ _ scrutinee, visitsArms_walk _ _ arms]
  | .block _ body => by simp [visits, Expr.walk, visitsBlock_walk _ _ body]
  | .binary _ _ left right => by
      simp [visits, Expr.walk, visits_walk _ _ left, visits_walk _ _ right]
  | .unary _ _ operand => by simp [visits, Expr.walk, visits_walk _ _ operand]
  | .paren _ inner => by simp [visits, Expr.walk, visits_walk _ _ inner]
  | .new .. | .ident .. | .int .. | .str .. | .bool .. => by simp [visits, Expr.walk]

theorem visitsArgs_walk (rs : List Report) (Γ : Env) : (es : List Expr) → (ts : List TypeName) →
    (visitsArgs rs Γ es ts).map (·.expr) = Expr.walkAll es
  | [], _ => by simp [visitsArgs, Expr.walkAll]
  | e :: es, [] => by
      simp [visitsArgs, Expr.walkAll, visits_walk _ _ e, visitsArgs_walk _ _ es]
  | e :: es, _ :: _ => by
      simp [visitsArgs, Expr.walkAll, visits_walk _ _ e, visitsArgs_walk _ _ es]

theorem visitsBlock_walk (rs : List Report) (Γ : Env) : (es : List Expr) →
    (visitsBlock rs Γ es).map (·.expr) = Expr.walkAll es
  | [] => by simp [visitsBlock, Expr.walkAll]
  | e :: es => by simp [visitsBlock, Expr.walkAll, visits_walk _ _ e, visitsBlock_walk _ _ es]

theorem visitsBindings_walk (rs : List Report) (Γ : Env) : (bindings : List (Binder × Option Expr)) →
    (visitsBindings rs Γ bindings).map (·.expr) = Expr.walkInits bindings
  | [] => by simp [visitsBindings, Expr.walkInits]
  | (b, none) :: bindings => by
      simp [visitsBindings, Expr.walkInits, visitsInit, visitsBindings_walk _ _ bindings]
  | (b, some e) :: bindings => by
      simp [visitsBindings, Expr.walkInits, visitsInit, visits_walk _ _ e,
        visitsBindings_walk _ _ bindings]

theorem visitsArms_walk (rs : List Report) (Γ : Env) : (arms : List (Binder × Expr)) →
    (visitsArms rs Γ arms).map (·.expr) = Expr.walkArms arms
  | [] => by simp [visitsArms, Expr.walkArms]
  | (b, body) :: arms => by
      simp [visitsArms, Expr.walkArms, visits_walk _ _ body, visitsArms_walk _ _ arms]

end

/-! ## Visits and reports -/

mutual

/-- What was reported by the end of a visit is the beginning of what is reported in the end. -/
theorem visits_reports (rs : List Report) (Γ : Env) : (e : Expr) → ∀ v ∈ visits rs Γ e,
    v.reports <+: rs ++ (typeOf Γ e).reports
  | .assign span name value, v, hv => by
      rcases List.mem_cons.mp hv with rfl | hv
      · exact List.prefix_rfl
      · refine (visits_reports rs Γ value v hv).trans ?_
        simp [typeOf]
  | .dispatch span receiver method args, v, hv => by
      rcases List.mem_cons.mp hv with rfl | hv
      · exact List.prefix_rfl
      rw [typeOf_dispatch]
      rcases List.mem_append.mp hv with hv | hv
      · refine (visitsReceiver_reports rs Γ receiver v hv).trans ?_
        simp
      · refine (visitsArgs_reports _ Γ args _ v hv).trans ?_
        simp
  | .staticDispatch span receiver ancestor method args, v, hv => by
      rcases List.mem_cons.mp hv with rfl | hv
      · exact List.prefix_rfl
      rcases List.mem_append.mp hv with hv | hv
      · refine (visits_reports rs Γ receiver v hv).trans ?_
        simp [typeOf]
      · refine (visitsArgs_reports _ Γ args _ v hv).trans ?_
        simp [typeOf]
  | .cond span test thenBranch elseBranch, v, hv => by
      rcases List.mem_cons.mp hv with rfl | hv
      · exact List.prefix_rfl
      rcases List.mem_append.mp hv with hv | hv
      · rcases List.mem_append.mp hv with hv | hv
        · refine (visits_reports rs Γ test v hv).trans ?_
          simp [typeOf]
        · refine (visits_reports _ Γ thenBranch v hv).trans ?_
          simp [typeOf]
      · refine (visits_reports _ Γ elseBranch v hv).trans ?_
        simp [typeOf]
  | .loop span test body, v, hv => by
      rcases List.mem_cons.mp hv with rfl | hv
      · exact List.prefix_rfl
      rcases List.mem_append.mp hv with hv | hv
      · refine (visits_reports rs Γ test v hv).trans ?_
        simp [typeOf]
      · refine (visits_reports _ Γ body v hv).trans ?_
        simp [typeOf]
  | .letIn span bindings body, v, hv => by
      rcases List.mem_cons.mp hv with rfl | hv
      · exact List.prefix_rfl
      rcases List.mem_append.mp hv with hv | hv
      · refine (visitsBindings_reports rs Γ.nested bindings v hv).trans ?_
        simp [typeOf]
      · refine (visits_reports _ _ body v hv).trans ?_
        simp [typeOf]
  | .caseOf span scrutinee arms, v, hv => by
      rcases List.mem_cons.mp hv with rfl | hv
      · exact List.prefix_rfl
      rcases List.mem_append.mp hv with hv | hv
      · refine (visits_reports rs Γ scrutinee v hv).trans ?_
        simp [typeOf]
      · refine (visitsArms_reports _ Γ arms v hv).trans ?_
        simp [typeOf]
  | .block span body, v, hv => by
      rcases List.mem_cons.mp hv with rfl | hv
      · exact List.prefix_rfl
      · rw [typeOf]
        exact visitsBlock_reports rs Γ _ body v hv
  | .binary span op left right, v, hv => by
      rcases List.mem_cons.mp hv with rfl | hv
      · exact List.prefix_rfl
      rcases List.mem_append.mp hv with hv | hv
      · refine (visits_reports rs Γ left v hv).trans ?_
        simp [typeOf]
      · refine (visits_reports _ Γ right v hv).trans ?_
        simp [typeOf]
  | .unary span op operand, v, hv => by
      rcases List.mem_cons.mp hv with rfl | hv
      · exact List.prefix_rfl
      · refine (visits_reports rs Γ operand v hv).trans ?_
        simp [typeOf]
  | .paren span inner, v, hv => by
      rcases List.mem_cons.mp hv with rfl | hv
      · exact List.prefix_rfl
      · rw [typeOf]
        exact visits_reports rs Γ inner v hv
  | .new .., v, hv | .ident .., v, hv | .int .., v, hv | .str .., v, hv | .bool .., v, hv => by
      obtain rfl := List.mem_singleton.mp hv
      exact List.prefix_rfl

theorem visitsReceiver_reports (rs : List Report) (Γ : Env) : (receiver : Option Expr) →
    ∀ v ∈ visitsReceiver rs Γ receiver, v.reports <+: rs ++ (typeReceiver Γ receiver).reports
  | none, _, hv => absurd hv List.not_mem_nil
  | some e, v, hv => by
      rw [typeReceiver]
      exact visits_reports rs Γ e v hv

theorem visitsArgs_reports (rs : List Report) (Γ : Env) : (es : List Expr) → (ts : List TypeName) →
    ∀ v ∈ visitsArgs rs Γ es ts, v.reports <+: rs ++ (typeArgs Γ es ts).reports
  | [], _, _, hv => absurd hv (by simp [visitsArgs])
  | e :: es, [], v, hv => by
      rcases List.mem_append.mp hv with hv | hv
      · refine (visits_reports rs Γ e v hv).trans ?_
        simp [typeArgs]
      · refine (visitsArgs_reports _ Γ es [] v hv).trans ?_
        simp [typeArgs]
  | e :: es, t :: ts, v, hv => by
      rcases List.mem_append.mp hv with hv | hv
      · refine (visits_reports rs Γ e v hv).trans ?_
        simp [typeArgs]
      · refine (visitsArgs_reports _ Γ es ts v hv).trans ?_
        simp [typeArgs]

theorem visitsBlock_reports (rs : List Report) (Γ : Env) (last : TypeName) : (es : List Expr) →
    ∀ v ∈ visitsBlock rs Γ es, v.reports <+: rs ++ (typeBlock Γ last es).reports
  | [], _, hv => absurd hv (by simp [visitsBlock])
  | e :: es, v, hv => by
      rcases List.mem_append.mp hv with hv | hv
      · refine (visits_reports rs Γ e v hv).trans ?_
        simp [typeBlock]
      · refine (visitsBlock_reports _ Γ (typeOf Γ e).value es v hv).trans ?_
        simp [typeBlock]

theorem visitsInit_reports (rs : List Report) (Γ : Env) (t : TypeName) : (init : Option Expr) →
    ∀ v ∈ visitsInit rs Γ init, v.reports <+: rs ++ (checkInit Γ t init).reports
  | none, _, hv => absurd hv List.not_mem_nil
  | some e, v, hv => by
      refine (visits_reports rs Γ e v hv).trans ?_
      simp [checkInit]

theorem visitsBindings_reports (rs : List Report) (Γ : Env) :
    (bindings : List (Binder × Option Expr)) → ∀ v ∈ visitsBindings rs Γ bindings,
      v.reports <+: rs ++ (typeBindings Γ bindings).reports
  | [], _, hv => absurd hv (by simp [visitsBindings])
  | (b, init) :: bindings, v, hv => by
      rcases List.mem_append.mp hv with hv | hv
      · refine (visitsInit_reports _ Γ (Γ.declaredAt b.ty b.span).value init v hv).trans ?_
        simp [typeBindings]
      · refine (visitsBindings_reports _ _ bindings v hv).trans ?_
        simp [typeBindings]

theorem visitsArms_reports (rs : List Report) (Γ : Env) : (arms : List (Binder × Expr)) →
    ∀ v ∈ visitsArms rs Γ arms, v.reports <+: rs ++ (typeArms Γ arms).reports
  | [], _, hv => absurd hv (by simp [visitsArms])
  | (b, body) :: arms, v, hv => by
      rcases List.mem_append.mp hv with hv | hv
      · refine (visits_reports _ _ body v hv).trans ?_
        simp [typeArms]
      · refine (visitsArms_reports _ Γ arms v hv).trans ?_
        simp [typeArms]

end

/-! ## Visits and what is in sight -/

section Strict

variable {ctx : Context} {C : TypeName} {rs : List Report} {Γ : Env}

/-- If nothing was reported, only variables of concrete types are in sight. -/
def Env.StrictAfter (Γ : Env) (ctx : Context) (C : TypeName) (rs : List Report) : Prop :=
  rs = [] → ∃ V, Γ.Strict ctx C V

/-- If nothing was reported before the visit, no wildcard is in sight or named in the part. -/
def Visit.Strict (v : Visit) (ctx : Context) (C : TypeName) : Prop :=
  v.env.StrictAfter ctx C v.before ∧ v.expr.Writes TypeName.Definite

namespace Env.StrictAfter

theorem append (h : Γ.StrictAfter ctx C rs) (rs' : List Report) : Γ.StrictAfter ctx C (rs ++ rs') :=
  fun hrs => h (List.append_eq_nil_iff.mp hrs).1

theorem nested (h : Γ.StrictAfter ctx C rs) : Γ.nested.StrictAfter ctx C rs :=
  fun hrs => (h hrs).imp fun _ hV => hV.nested

theorem declare (h : Γ.StrictAfter ctx C rs) (hr : ctx.Regular) (hC : C ∈ ctx.concreteTypes)
    {b : Binder} (hty : b.ty.Definite) {Δ : Env} (hΔ : Δ.StrictAfter ctx C rs) :
    (Δ.declare b.name (Γ.declaredAt b.ty b.span).value).StrictAfter ctx C
      (rs ++ (Γ.declaredAt b.ty b.span).reports) := by
  intro hrs
  obtain ⟨hrs, ht⟩ := List.append_eq_nil_iff.mp hrs
  obtain ⟨V, hV⟩ := h hrs
  obtain ⟨W, hW⟩ := hΔ hrs
  exact ⟨_, hW.declare b.name ((hV.declaredAt_sound hr hty ht).isConcrete hC)⟩

theorem bindings (h : Γ.StrictAfter ctx C rs) (hd : ctx.Definite) (hC : C ∈ ctx.concreteTypes)
    {bindings : List (Binder × Option Expr)}
    (hw : ∀ b ∈ bindings, b.1.ty.Definite ∧ ∀ e ∈ b.2, e.Writes TypeName.Definite) :
    (typeBindings Γ bindings).value.StrictAfter ctx C (rs ++ (typeBindings Γ bindings).reports) := by
  intro hrs
  obtain ⟨hrs, ht⟩ := List.append_eq_nil_iff.mp hrs
  obtain ⟨V, hV⟩ := h hrs
  obtain ⟨W, _, hW⟩ := typeBindings_sound hd hC hV bindings hw ht
  exact ⟨W, hW⟩

end Env.StrictAfter

mutual

theorem visits_strict (hd : ctx.Definite) (hC : C ∈ ctx.concreteTypes) {rs : List Report} {Γ : Env}
    (hΓ : Γ.StrictAfter ctx C rs) : (e : Expr) → e.Writes TypeName.Definite →
      ∀ v ∈ visits rs Γ e, v.Strict ctx C
  | .assign span name value, hw, v, hv => by
      rcases List.mem_cons.mp hv with rfl | hv
      · exact ⟨hΓ, hw⟩
      · exact visits_strict hd hC hΓ value (Expr.writes_assign.mp hw) v hv
  | .dispatch span receiver method args, hw, v, hv => by
      rcases List.mem_cons.mp hv with rfl | hv
      · exact ⟨hΓ, hw⟩
      obtain ⟨hwr, hwa⟩ := Expr.writes_dispatch.mp hw
      rcases List.mem_append.mp hv with hv | hv
      · exact visitsReceiver_strict hd hC hΓ receiver hwr v hv
      · exact visitsArgs_strict hd hC ((hΓ.append _).append _) args _ hwa v hv
  | .staticDispatch span receiver ancestor method args, hw, v, hv => by
      rcases List.mem_cons.mp hv with rfl | hv
      · exact ⟨hΓ, hw⟩
      obtain ⟨_, hwr, hwa⟩ := Expr.writes_staticDispatch.mp hw
      rcases List.mem_append.mp hv with hv | hv
      · exact visits_strict hd hC hΓ receiver hwr v hv
      · exact visitsArgs_strict hd hC ((((hΓ.append _).append _).append _).append _) args _ hwa v hv
  | .cond span test thenBranch elseBranch, hw, v, hv => by
      rcases List.mem_cons.mp hv with rfl | hv
      · exact ⟨hΓ, hw⟩
      obtain ⟨hwt, hwa, hwb⟩ := Expr.writes_cond.mp hw
      rcases List.mem_append.mp hv with hv | hv
      · rcases List.mem_append.mp hv with hv | hv
        · exact visits_strict hd hC hΓ test hwt v hv
        · exact visits_strict hd hC ((hΓ.append _).append _) thenBranch hwa v hv
      · exact visits_strict hd hC (((hΓ.append _).append _).append _) elseBranch hwb v hv
  | .loop span test body, hw, v, hv => by
      rcases List.mem_cons.mp hv with rfl | hv
      · exact ⟨hΓ, hw⟩
      obtain ⟨hwt, hwb⟩ := Expr.writes_loop.mp hw
      rcases List.mem_append.mp hv with hv | hv
      · exact visits_strict hd hC hΓ test hwt v hv
      · exact visits_strict hd hC ((hΓ.append _).append _) body hwb v hv
  | .letIn span bindings body, hw, v, hv => by
      rcases List.mem_cons.mp hv with rfl | hv
      · exact ⟨hΓ, hw⟩
      obtain ⟨hwi, hwb⟩ := Expr.writes_letIn.mp hw
      rcases List.mem_append.mp hv with hv | hv
      · exact visitsBindings_strict hd hC hΓ.nested bindings hwi v hv
      · exact visits_strict hd hC (hΓ.nested.bindings hd hC hwi) body hwb v hv
  | .caseOf span scrutinee arms, hw, v, hv => by
      rcases List.mem_cons.mp hv with rfl | hv
      · exact ⟨hΓ, hw⟩
      obtain ⟨hws, hwa⟩ := Expr.writes_caseOf.mp hw
      rcases List.mem_append.mp hv with hv | hv
      · exact visits_strict hd hC hΓ scrutinee hws v hv
      · exact visitsArms_strict hd hC (hΓ.append _) arms hwa v hv
  | .block span body, hw, v, hv => by
      rcases List.mem_cons.mp hv with rfl | hv
      · exact ⟨hΓ, hw⟩
      · exact visitsBlock_strict hd hC hΓ body (Expr.writes_block.mp hw) v hv
  | .binary span op left right, hw, v, hv => by
      rcases List.mem_cons.mp hv with rfl | hv
      · exact ⟨hΓ, hw⟩
      obtain ⟨hwl, hwr⟩ := Expr.writes_binary.mp hw
      rcases List.mem_append.mp hv with hv | hv
      · exact visits_strict hd hC hΓ left hwl v hv
      · exact visits_strict hd hC (hΓ.append _) right hwr v hv
  | .unary span op operand, hw, v, hv => by
      rcases List.mem_cons.mp hv with rfl | hv
      · exact ⟨hΓ, hw⟩
      · exact visits_strict hd hC hΓ operand (Expr.writes_unary.mp hw) v hv
  | .paren span inner, hw, v, hv => by
      rcases List.mem_cons.mp hv with rfl | hv
      · exact ⟨hΓ, hw⟩
      · exact visits_strict hd hC hΓ inner (Expr.writes_paren.mp hw) v hv
  | .new .., hw, v, hv | .ident .., hw, v, hv | .int .., hw, v, hv | .str .., hw, v, hv
  | .bool .., hw, v, hv => by
      obtain rfl := List.mem_singleton.mp hv
      exact ⟨hΓ, hw⟩

theorem visitsReceiver_strict (hd : ctx.Definite) (hC : C ∈ ctx.concreteTypes) {rs : List Report}
    {Γ : Env} (hΓ : Γ.StrictAfter ctx C rs) : (receiver : Option Expr) →
      (∀ e ∈ receiver, e.Writes TypeName.Definite) →
      ∀ v ∈ visitsReceiver rs Γ receiver, v.Strict ctx C
  | none, _, _, hv => absurd hv List.not_mem_nil
  | some e, hw, v, hv => visits_strict hd hC hΓ e (hw e rfl) v hv

theorem visitsArgs_strict (hd : ctx.Definite) (hC : C ∈ ctx.concreteTypes) {rs : List Report}
    {Γ : Env} (hΓ : Γ.StrictAfter ctx C rs) : (es : List Expr) → (ts : List TypeName) →
      (∀ e ∈ es, e.Writes TypeName.Definite) → ∀ v ∈ visitsArgs rs Γ es ts, v.Strict ctx C
  | [], _, _, _, hv => absurd hv (by simp [visitsArgs])
  | e :: es, [], hw, v, hv => by
      obtain ⟨hwe, hw⟩ := List.forall_mem_cons.mp hw
      rcases List.mem_append.mp hv with hv | hv
      · exact visits_strict hd hC hΓ e hwe v hv
      · exact visitsArgs_strict hd hC (hΓ.append _) es [] hw v hv
  | e :: es, t :: ts, hw, v, hv => by
      obtain ⟨hwe, hw⟩ := List.forall_mem_cons.mp hw
      rcases List.mem_append.mp hv with hv | hv
      · exact visits_strict hd hC hΓ e hwe v hv
      · exact visitsArgs_strict hd hC ((hΓ.append _).append _) es ts hw v hv

theorem visitsBlock_strict (hd : ctx.Definite) (hC : C ∈ ctx.concreteTypes) {rs : List Report}
    {Γ : Env} (hΓ : Γ.StrictAfter ctx C rs) : (es : List Expr) →
      (∀ e ∈ es, e.Writes TypeName.Definite) → ∀ v ∈ visitsBlock rs Γ es, v.Strict ctx C
  | [], _, _, hv => absurd hv (by simp [visitsBlock])
  | e :: es, hw, v, hv => by
      obtain ⟨hwe, hw⟩ := List.forall_mem_cons.mp hw
      rcases List.mem_append.mp hv with hv | hv
      · exact visits_strict hd hC hΓ e hwe v hv
      · exact visitsBlock_strict hd hC (hΓ.append _) es hw v hv

theorem visitsInit_strict (hd : ctx.Definite) (hC : C ∈ ctx.concreteTypes) {rs : List Report}
    {Γ : Env} (hΓ : Γ.StrictAfter ctx C rs) : (init : Option Expr) →
      (∀ e ∈ init, e.Writes TypeName.Definite) → ∀ v ∈ visitsInit rs Γ init, v.Strict ctx C
  | none, _, _, hv => absurd hv List.not_mem_nil
  | some e, hw, v, hv => visits_strict hd hC hΓ e (hw e rfl) v hv

theorem visitsBindings_strict (hd : ctx.Definite) (hC : C ∈ ctx.concreteTypes) {rs : List Report}
    {Γ : Env} (hΓ : Γ.StrictAfter ctx C rs) : (bindings : List (Binder × Option Expr)) →
      (∀ b ∈ bindings, b.1.ty.Definite ∧ ∀ e ∈ b.2, e.Writes TypeName.Definite) →
      ∀ v ∈ visitsBindings rs Γ bindings, v.Strict ctx C
  | [], _, _, hv => absurd hv (by simp [visitsBindings])
  | (b, init) :: bindings, hw, v, hv => by
      obtain ⟨⟨hty, hwi⟩, hw⟩ := List.forall_mem_cons.mp hw
      rcases List.mem_append.mp hv with hv | hv
      · exact visitsInit_strict hd hC (hΓ.append _) init hwi v hv
      · exact visitsBindings_strict hd hC ((hΓ.declare hd.toRegular hC hty hΓ).append _) bindings hw v hv

theorem visitsArms_strict (hd : ctx.Definite) (hC : C ∈ ctx.concreteTypes) {rs : List Report}
    {Γ : Env} (hΓ : Γ.StrictAfter ctx C rs) : (arms : List (Binder × Expr)) →
      (∀ a ∈ arms, a.1.ty.Definite ∧ a.2.Writes TypeName.Definite) →
      ∀ v ∈ visitsArms rs Γ arms, v.Strict ctx C
  | [], _, _, hv => absurd hv (by simp [visitsArms])
  | (b, body) :: arms, hw, v, hv => by
      obtain ⟨⟨hty, hwb⟩, hw⟩ := List.forall_mem_cons.mp hw
      rcases List.mem_append.mp hv with hv | hv
      · exact visits_strict hd hC (hΓ.declare hd.toRegular hC hty hΓ.nested) body hwb v hv
      · exact visitsArms_strict hd hC ((hΓ.append _).append _) arms hw v hv

end

/-- Where nothing was reported by the end of a visit, the rules give its part exactly the type that the
visit ends with. -/
theorem Visit.Strict.hasType_iff {v : Visit} (hv : v.Strict ctx C) (hd : ctx.Definite)
    (hC : C ∈ ctx.concreteTypes) (h : v.reports = []) (T : TypeName) :
    HasType ctx C v.env.scope.lookup? v.expr T ↔ T = v.type := by
  obtain ⟨hbefore, hclean⟩ := List.append_eq_nil_iff.mp h
  obtain ⟨V, hV⟩ := hv.1 hbefore
  rw [hV.scope]
  constructor
  · intro hT
    unfold Visit.type
    rw [hT.typeOf_eq hd hC hV]
    rfl
  · rintro rfl
    exact typeOf_sound hd hC hV v.expr hv.2 hclean

end Strict

end CoolTyping
