import CoolTyping.Proofs.ClassTables
import CoolTyping.Proofs.WrittenTypes

/-!
# The types that a program without errors names

The strict check looks up every type that a program names. Where it reports nothing, all of them exist.
-/

namespace CoolTyping

open Reporting

/-- The type exists. -/
def Env.Known (Γ : Env) (ty : TypeName) : Prop := Γ.context.contains ty = true

theorem Env.known_of_declaredAt {Γ : Env} {ty : TypeName} {span : Span}
    (h : (Γ.declaredAt ty span).reports = []) : Γ.Known ty := by
  unfold Env.declaredAt at h
  simp only [reports_bind, List.append_eq_nil_iff] at h
  exact ClassTable.contains_of_declaredType h.1

/-! ## Expressions -/

theorem typeBindings_context {Γ : Env} (bindings : List (Binder × Option Expr)) :
    (typeBindings Γ bindings).value.context = Γ.context := by
  induction bindings generalizing Γ with
  | nil => rfl
  | cons b bindings ih => exact ih

mutual

theorem typeOf_known (Γ : Env) : (e : Expr) → (typeOf Γ e).reports = [] → e.Writes Γ.Known
  | .assign _ _ value, h => by
      simp only [typeOf, reports_bind, List.append_eq_nil_iff] at h
      exact Expr.writes_assign.mpr (typeOf_known Γ value h.1)
  | .dispatch _ receiver _ args, h => by
      simp only [typeOf, reports_bind, List.append_eq_nil_iff] at h
      refine Expr.writes_dispatch.mpr ⟨typeReceiver_known Γ receiver h.1, ?_⟩
      have hargs := h.2
      split at hargs
      · simp only [reports_bind, List.append_eq_nil_iff] at hargs
        exact typeArgs_known Γ args _ hargs.1
      · simp only [reports_bind, List.append_eq_nil_iff] at hargs
        exact typeArgs_known Γ args _ hargs.2.1
  | .staticDispatch _ receiver _ _ args, h => by
      simp only [typeOf, reports_bind, List.append_eq_nil_iff] at h
      exact Expr.writes_staticDispatch.mpr ⟨Env.known_of_declaredAt h.2.1, typeOf_known Γ receiver h.1,
        typeArgs_known Γ args _ h.2.2.2.2.1⟩
  | .cond _ test thenBranch elseBranch, h => by
      simp only [typeOf, reports_bind, List.append_eq_nil_iff] at h
      exact Expr.writes_cond.mpr ⟨typeOf_known Γ test h.1, typeOf_known Γ thenBranch h.2.2.1,
        typeOf_known Γ elseBranch h.2.2.2.1⟩
  | .loop _ test body, h => by
      simp only [typeOf, reports_bind, List.append_eq_nil_iff] at h
      exact Expr.writes_loop.mpr ⟨typeOf_known Γ test h.1, typeOf_known Γ body h.2.2.1⟩
  | .letIn _ bindings body, h => by
      simp only [typeOf, reports_bind, List.append_eq_nil_iff] at h
      have hbody := typeOf_known _ body h.2
      unfold Env.Known at hbody
      rw [typeBindings_context] at hbody
      exact Expr.writes_letIn.mpr ⟨typeBindings_known Γ.nested bindings h.1, hbody⟩
  | .caseOf _ scrutinee arms, h => by
      simp only [typeOf, reports_bind, List.append_eq_nil_iff] at h
      exact Expr.writes_caseOf.mpr ⟨typeOf_known Γ scrutinee h.1, typeArms_known Γ arms h.2.1⟩
  | .block _ body, h => Expr.writes_block.mpr (typeBlock_known Γ _ body h)
  | .binary _ _ left right, h => by
      simp only [typeOf, reports_bind, List.append_eq_nil_iff] at h
      exact Expr.writes_binary.mpr ⟨typeOf_known Γ left h.1, typeOf_known Γ right h.2.1⟩
  | .unary _ _ operand, h => by
      simp only [typeOf, reports_bind, List.append_eq_nil_iff] at h
      exact Expr.writes_unary.mpr (typeOf_known Γ operand h.1)
  | .new _ _, h => Expr.writes_new.mpr (Env.known_of_declaredAt h)
  | .paren _ inner, h => Expr.writes_paren.mpr (typeOf_known Γ inner h)
  | .ident .., _ => Expr.writes_ident
  | .int .., _ => Expr.writes_int
  | .str .., _ => Expr.writes_str
  | .bool .., _ => Expr.writes_bool

theorem typeReceiver_known (Γ : Env) : (receiver : Option Expr) →
    (typeReceiver Γ receiver).reports = [] → ∀ e ∈ receiver, e.Writes Γ.Known
  | some e, h => by
      intro e' he'
      cases he'
      exact typeOf_known Γ e h
  | none, _ => by simp

theorem typeArgs_known (Γ : Env) : (es : List Expr) → (ts : List TypeName) →
    (typeArgs Γ es ts).reports = [] → ∀ e ∈ es, e.Writes Γ.Known
  | [], _, _ => by simp
  | e :: es, [], h => by
      simp only [typeArgs, reports_bind, List.append_eq_nil_iff] at h
      exact List.forall_mem_cons.mpr ⟨typeOf_known Γ e h.1, typeArgs_known Γ es [] h.2⟩
  | e :: es, t :: ts, h => by
      simp only [typeArgs, reports_bind, List.append_eq_nil_iff] at h
      exact List.forall_mem_cons.mpr ⟨typeOf_known Γ e h.1, typeArgs_known Γ es ts h.2.2⟩

theorem typeBlock_known (Γ : Env) (last : TypeName) : (es : List Expr) →
    (typeBlock Γ last es).reports = [] → ∀ e ∈ es, e.Writes Γ.Known
  | [], _ => by simp
  | e :: es, h => by
      simp only [typeBlock, reports_bind, List.append_eq_nil_iff] at h
      exact List.forall_mem_cons.mpr ⟨typeOf_known Γ e h.1, typeBlock_known Γ _ es h.2⟩

theorem checkInit_known (Γ : Env) {t : TypeName} : (init : Option Expr) →
    (checkInit Γ t init).reports = [] → ∀ e ∈ init, e.Writes Γ.Known
  | some e, h => by
      simp only [checkInit, reports_bind, List.append_eq_nil_iff] at h
      intro e' he'
      cases he'
      exact typeOf_known Γ e h.1
  | none, _ => by simp

theorem typeBindings_known (Γ : Env) : (bindings : List (Binder × Option Expr)) →
    (typeBindings Γ bindings).reports = [] →
      ∀ b ∈ bindings, Γ.Known b.1.ty ∧ ∀ e ∈ b.2, e.Writes Γ.Known
  | [], _ => by simp
  | (b, init) :: bindings, h => by
      simp only [typeBindings, reports_bind, List.append_eq_nil_iff] at h
      refine List.forall_mem_cons.mpr ⟨⟨Env.known_of_declaredAt h.1, checkInit_known Γ init h.2.1⟩, ?_⟩
      exact typeBindings_known (Γ.declare b.name _) bindings h.2.2

theorem typeArms_known (Γ : Env) : (arms : List (Binder × Expr)) →
    (typeArms Γ arms).reports = [] → ∀ a ∈ arms, Γ.Known a.1.ty ∧ a.2.Writes Γ.Known
  | [], _ => by simp
  | (b, body) :: arms, h => by
      simp only [typeArms, reports_bind, List.append_eq_nil_iff] at h
      refine List.forall_mem_cons.mpr ⟨⟨Env.known_of_declaredAt h.1, ?_⟩, ?_⟩
      · exact typeOf_known (Γ.nested.declare b.name _) body h.2.1
      · exact typeArms_known Γ arms h.2.2.1

end

/-! ## Classes -/

theorem foldl_declare_context {α : Type} (f : Env → α → Env)
    (hf : ∀ Γ a, (f Γ a).context = Γ.context) (as : List α) (Γ : Env) :
    (as.foldl f Γ).context = Γ.context := by
  induction as generalizing Γ with
  | nil => rfl
  | cons a as ih => rw [List.foldl_cons, ih, hf]

theorem classEnv_context (ctx : Context) (name : TypeName) : (classEnv ctx name).context = ctx := by
  unfold classEnv
  rw [foldl_declare_context]
  exact fun _ _ => rfl

theorem methodEnv_context (Γ : Env) (m : MethodDecl) : (methodEnv Γ m).context = Γ.context := by
  unfold methodEnv
  rw [foldl_declare_context]
  · rfl
  · exact fun _ _ => rfl

/-- All types that the registered classes name in their features exist. -/
theorem ClassTable.writes_of_check {p : Program} (hb : (build p).reports = [])
    (hc : (build p).value.check.reports = []) :
    ∀ c ∈ (build p).value.classes, ∀ f ∈ c.features,
      f.Writes fun ty => (build p).value.context.contains ty = true := by
  intro c hmem f hf
  have hclean := build_clean hb c hmem
  have hfeature : (checkFeature (classEnv (build p).value.context c.name) f).reports = [] := by
    simp only [check, checkClass, reports_forM, List.flatMap_eq_nil_iff] at hc
    exact hc c hmem f hf
  cases f with
  | attr a =>
      have ha : a ∈ c.attributes := List.mem_filterMap.mpr ⟨_, hf, rfl⟩
      have hinit := checkInit_known _ a.init hfeature
      unfold Env.Known at hinit
      rw [classEnv_context] at hinit
      exact ⟨hclean.attributes a ha, hinit⟩
  | method m =>
      have hm : m ∈ c.methods := List.mem_filterMap.mpr ⟨_, hf, rfl⟩
      simp only [checkFeature, reports_bind, List.append_eq_nil_iff] at hfeature
      have hbody := typeOf_known _ m.body hfeature.1
      unfold Env.Known at hbody
      rw [methodEnv_context, classEnv_context] at hbody
      exact ⟨hclean.params m hm, hclean.results m hm, hbody⟩

end CoolTyping
