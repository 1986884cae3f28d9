import CoolTyping.Proofs.Visits
import Mathlib

/-!
# The strict check decides the typing rules

A program without placeholders whose class table was built without a report is checked without a report
exactly if the rules type all its classes. Then every part has just the type that the check gave it.
-/

namespace CoolTyping

open Reporting

/-! ## What a class sees -/

namespace Context

variable {ctx : Context} {t : TypeName}

theorem mem_allAttributes {a : Attribute} :
    a ∈ ctx.allAttributes t ↔ ∃ D, ctx.Descends t D ∧ a ∈ ctx.ownAttributes D := by
  simp [allAttributes, List.mem_flatMap, mem_ancestors]

/-- An attribute that an ancestor declares is found. -/
theorem attribute?_ne_none {D : TypeName} {a : Attribute} (hD : ctx.Descends t D)
    (ha : a ∈ ctx.ownAttributes D) : ctx.attribute? t a.name ≠ none := by
  intro hnone
  have hD := List.findSome?_eq_none_iff.mp hnone D (mem_ancestors.mpr hD)
  rw [Option.map_eq_none_iff, ownAttribute?, List.find?_eq_none] at hD
  exact hD a ha (by simp)

theorem descends_total {a b : TypeName} (ha : ctx.Descends t a) (hb : ctx.Descends t b) :
    ctx.Descends a b ∨ ctx.Descends b a := by
  obtain ⟨i, hi⟩ := descends_iff.mp ha
  obtain ⟨j, hj⟩ := descends_iff.mp hb
  rcases Nat.le_total i j with hij | hji
  · exact Or.inl (descends_or_of_above hi hj hij)
  · exact Or.inr (descends_or_of_above hj hi hji)

end Context

namespace ClassTable.Fitting

variable {cs : List ClassDecl} {C D D' : TypeName} {a b : Attribute}

/-- Where an attribute is declared, no ancestor declares one of that name. -/
theorem eq_of_descends (h : Fitting cs) (hDD' : (Context.ofClasses cs).Descends D D')
    (ha : a ∈ (Context.ofClasses cs).ownAttributes D)
    (hb : b ∈ (Context.ofClasses cs).ownAttributes D') (hname : a.name = b.name) : D = D' := by
  rcases Relation.ReflTransGen.cases_head hDD' with rfl | ⟨p, hp, hpD'⟩
  · rfl
  obtain ⟨c, hc, rfl, _⟩ := mem_ownAttributes ha
  have hshadow := h.unshadowed c hc p hp
  unfold shadowing at hshadow
  have hnone := List.filterMap_eq_nil_iff.mp hshadow a ha
  rw [Option.map_eq_none_iff, hname] at hnone
  exact absurd hnone (Context.attribute?_ne_none hpD' hb)

theorem attribute_unique (h : Fitting cs) (hD : (Context.ofClasses cs).Descends C D)
    (hD' : (Context.ofClasses cs).Descends C D') (ha : a ∈ (Context.ofClasses cs).ownAttributes D)
    (hb : b ∈ (Context.ofClasses cs).ownAttributes D') (hname : a.name = b.name) : a = b := by
  have heq : D = D' := by
    rcases Context.descends_total hD hD' with hle | hle
    · exact h.eq_of_descends hle ha hb hname
    · exact (h.eq_of_descends hle hb ha hname.symm).symm
  subst heq
  obtain ⟨c, hc, rfl, d, hd, rfl⟩ := mem_ownAttributes ha
  obtain ⟨c', hc', hcc', d', hd', rfl⟩ := mem_ownAttributes hb
  obtain rfl := List.inj_on_of_nodup_map h.names.distinct hc' hc hcc'
  exact congrArg _ (List.inj_on_of_nodup_map (h.features c' hc').attributeNames hd hd' hname)

end ClassTable.Fitting

/-- The type of the last of some variables that has the name, or else what was in sight before. -/
theorem lookup?_foldl_declare {f : Attribute → TypeName} (as : List Attribute) (Γ : Env) (x : String) :
    (as.foldl (fun Γ a => Γ.declare a.name (f a)) Γ).scope.lookup? x =
      ((as.reverse.find? (·.name == x)).map f).or (Γ.scope.lookup? x) := by
  induction as generalizing Γ with
  | nil => simp
  | cons a as ih =>
      rw [List.foldl_cons, ih, List.reverse_cons, List.find?_append, Env.declare, Scope.lookup?_declare,
        Vars.bind]
      cases as.reverse.find? (·.name == x) with
      | some b => simp
      | none =>
          by_cases hx : x = a.name
          · simp [hx]
          · simp [hx, Ne.symm hx]

theorem foldl_declare_current {α : Type} (f : Env → α → Env)
    (hf : ∀ Γ a, (f Γ a).current = Γ.current) (as : List α) (Γ : Env) :
    (as.foldl f Γ).current = Γ.current := by
  induction as generalizing Γ with
  | nil => rfl
  | cons a as ih => rw [List.foldl_cons, ih, hf]

theorem classEnv_current (ctx : Context) (name : TypeName) : (classEnv ctx name).current = name := by
  unfold classEnv
  rw [foldl_declare_current]
  exact fun _ _ => rfl

/-- A known type that is no wildcard is concrete, or `SELF_TYPE`. -/
theorem Context.Regular.isType_of_contains {ctx : Context} (h : ctx.Regular) {t : TypeName}
    (ht : ctx.contains t = true) (hd : t.Definite) : t = TypeName.selfType ∨ t ∈ ctx.concreteTypes := by
  rcases h.known.mp ht with hc | rfl | rfl | rfl
  · exact Or.inr hc
  · exact absurd rfl hd.1
  · exact Or.inl rfl
  · exact absurd rfl hd.2

namespace ClassTable.Fitting

variable {cs : List ClassDecl} {c : ClassDecl}

/-- In a class just what it sees is in sight, if the attributes have types. -/
theorem classEnv_sees (h : Fitting cs) (hr : (Context.ofClasses cs).Regular)
    (hattr : ∀ {t a}, a ∈ (Context.ofClasses cs).ownAttributes t →
      a.ty = TypeName.selfType ∨ a.ty ∈ (Context.ofClasses cs).concreteTypes) (C x : String) (T : TypeName) :
    (classEnv (Context.ofClasses cs) C).scope.lookup? x = some T ↔ Sees (Context.ofClasses cs) C x T := by
  unfold classEnv
  dsimp only
  rw [lookup?_foldl_declare, Scope.lookup?_declare, Option.or_eq_some_iff]
  constructor
  · rintro (hfound | ⟨hnone, hself⟩)
    · obtain ⟨a, ha, rfl⟩ := Option.map_eq_some_iff.mp hfound
      have hname : a.name = x := by simpa using List.find?_some ha
      obtain ⟨D, hD, haD⟩ := Context.mem_allAttributes.mp
        (List.mem_reverse.mp (List.mem_of_find?_eq_some ha))
      exact hname ▸ .attr hD haD (denotes_resolveSelf hr (hattr haD))
    · rw [Option.map_eq_none_iff, List.find?_eq_none] at hnone
      unfold Vars.bind at hself
      split at hself
      · rename_i hx
        cases hself
        subst hx
        refine .self fun D hD a ha hname => hnone a ?_ (by simpa using hname)
        exact List.mem_reverse.mpr (Context.mem_allAttributes.mpr ⟨D, hD, ha⟩)
      · cases hself
  · intro hsees
    cases hsees with
    | @attr D a T hD ha hT =>
        left
        have hmem := List.mem_reverse.mpr (Context.mem_allAttributes.mpr ⟨D, hD, ha⟩)
        cases hfind : (Context.allAttributes _ C).reverse.find? (·.name == a.name) with
        | none => exact absurd (List.find?_eq_none.mp hfind a hmem) (by simp)
        | some b =>
            have hname : b.name = a.name := by simpa using List.find?_some hfind
            obtain ⟨D', hD', hb⟩ := Context.mem_allAttributes.mp
              (List.mem_reverse.mp (List.mem_of_find?_eq_some hfind))
            obtain rfl := h.attribute_unique hD' hD hb ha hname
            exact congrArg some (hT.resolveSelf_eq hr)
    | self hnone =>
        right
        rw [Option.map_eq_none_iff, List.find?_eq_none]
        refine ⟨fun a ha hname => ?_, by simp [Vars.bind]⟩
        obtain ⟨D, hD, haD⟩ := Context.mem_allAttributes.mp (List.mem_reverse.mp ha)
        exact hnone D hD a haD (by simpa using hname)

theorem classEnv_strict (h : Fitting cs) (hr : (Context.ofClasses cs).Regular)
    (hattr : ∀ {t a}, a ∈ (Context.ofClasses cs).ownAttributes t →
      a.ty = TypeName.selfType ∨ a.ty ∈ (Context.ofClasses cs).concreteTypes)
    (hc : c.name ∈ (Context.ofClasses cs).concreteTypes) :
    (classEnv (Context.ofClasses cs) c.name).Strict (Context.ofClasses cs) c.name
      (classEnv (Context.ofClasses cs) c.name).scope.lookup? where
  context := classEnv_context _ _
  current := classEnv_current _ _
  scope := rfl
  concrete x T hx := by
    cases (h.classEnv_sees hr hattr c.name x T).mp hx with
    | attr _ _ hT => exact hT.isConcrete hc
    | self _ => exact hc

end ClassTable.Fitting

/-- Classes that fit together and name no wildcard. -/
structure ClassTable.Definite (cs : List ClassDecl) : Prop extends Fitting cs where
  writes : ∀ c ∈ cs, c.Writes TypeName.Definite

namespace ClassTable.Definite

variable {cs : List ClassDecl} {c : ClassDecl} {t : TypeName} {Γ : Env} {V : Vars}

theorem regular (h : Definite cs) : (Context.ofClasses cs).Regular := by
  refine h.toFitting.regular fun c hc herror => ?_
  exact ((h.writes c hc).parent _ herror).2 rfl

theorem class_concrete (h : Definite cs) (hc : c ∈ cs) :
    c.name ∈ (Context.ofClasses cs).concreteTypes :=
  h.wellFormed.class_concrete (by rwa [classes_all])

theorem attribute_isType (h : Definite cs) {a : Attribute}
    (ha : a ∈ (Context.ofClasses cs).ownAttributes t) :
    a.ty = TypeName.selfType ∨ a.ty ∈ (Context.ofClasses cs).concreteTypes := by
  obtain ⟨c, hc, rfl, d, hd, rfl⟩ := mem_ownAttributes ha
  obtain ⟨f, hf, hfd⟩ := List.mem_filterMap.mp hd
  cases f with
  | method m => cases hfd
  | attr e =>
      cases hfd
      exact h.regular.isType_of_contains ((h.features c hc).attributes d hd) ((h.writes c hc).features _ hf).1

theorem writes_method (h : Definite cs) (hc : c ∈ cs) {d : MethodDecl} (hd : d ∈ c.methods) :
    (∀ p ∈ d.params, p.ty.Definite) ∧ d.ret.Definite ∧ d.body.Writes TypeName.Definite := by
  obtain ⟨f, hf, hfd⟩ := List.mem_filterMap.mp hd
  cases f with
  | attr a => cases hfd
  | method m =>
      cases hfd
      exact (h.writes c hc).features _ hf

theorem definite_context (h : Definite cs) : (Context.ofClasses cs).Definite where
  toRegular := h.regular
  params {t m} hm ty hty := by
    obtain ⟨p, hp, rfl⟩ := List.mem_map.mp hty
    rcases mem_ownMethods hm with hbasic | ⟨c, hc, _, d, hd, rfl⟩
    · have hne := h.regular.proper (h.regular.basic (hbasic.2 p hp))
      exact ⟨hne.1, hne.2.2⟩
    · obtain ⟨q, hq, rfl⟩ := List.mem_map.mp hp
      exact (h.writes_method hc hd).1 q hq
  results {t m} hm := by
    rcases mem_ownMethods hm with hbasic | ⟨c, hc, _, d, hd, rfl⟩
    · exact hbasic.1.imp_right h.regular.basic
    · exact h.regular.isType_of_contains ((h.features c hc).results d hd) (h.writes_method hc hd).2.1

theorem classEnv_sees (h : Definite cs) (C x : String) (T : TypeName) :
    (classEnv (Context.ofClasses cs) C).scope.lookup? x = some T ↔ Sees (Context.ofClasses cs) C x T :=
  h.toFitting.classEnv_sees h.regular h.attribute_isType C x T

theorem classEnv_strict (h : Definite cs) (hc : c ∈ cs) :
    (classEnv (Context.ofClasses cs) c.name).Strict (Context.ofClasses cs) c.name
      (classEnv (Context.ofClasses cs) c.name).scope.lookup? :=
  h.toFitting.classEnv_strict h.regular h.attribute_isType (h.class_concrete hc)

end ClassTable.Definite

/-! ## Features -/

section Features

variable {ctx : Context} {C : TypeName} {Γ : Env} {V W : Vars}

theorem Env.Strict.declared_eq (hΓ : Γ.Strict ctx C V) (hr : ctx.Regular) {t T : TypeName}
    (h : Denotes ctx C t T) : Γ.declared t = T := by
  have hknown : ctx.contains t = true := by
    cases h with
    | self => exact hr.known.mpr (Or.inr (Or.inr (Or.inl rfl)))
    | concrete h => exact hr.contains h
  rw [Env.declared, hΓ.context, hΓ.current, if_pos hknown, h.resolveSelf_eq hr]

theorem HasParams.strict (hr : ctx.Regular) (hC : C ∈ ctx.concreteTypes) {Γ : Env} {V W : Vars}
    {params : List Param} : HasParams ctx C V params W → Γ.Strict ctx C V →
      (params.foldl (fun Γ p => Γ.declare p.name (Γ.declared p.ty)) Γ).Strict ctx C W
  | .nil, hΓ => hΓ
  | .cons ht hrest, hΓ => by
      rw [List.foldl_cons, hΓ.declared_eq hr ht]
      exact hrest.strict hr hC (hΓ.declare _ (ht.isConcrete hC))

theorem exists_hasParams (hr : ctx.Regular) (V : Vars) (params : List Param)
    (h : ∀ p ∈ params, p.ty = TypeName.selfType ∨ p.ty ∈ ctx.concreteTypes) :
    ∃ W, HasParams ctx C V params W := by
  induction params generalizing V with
  | nil => exact ⟨V, .nil⟩
  | cons p ps ih =>
      obtain ⟨hp, hps⟩ := List.forall_mem_cons.mp h
      obtain ⟨W, hW⟩ := ih (V.bind p.name (p.ty.resolveSelf C)) hps
      exact ⟨W, .cons (denotes_resolveSelf hr hp) hW⟩

theorem HasParams.methodEnv_strict (hr : ctx.Regular) (hC : C ∈ ctx.concreteTypes) {m : MethodDecl}
    (h : HasParams ctx C V m.params W) (hΓ : Γ.Strict ctx C V) :
    (methodEnv Γ m).Strict ctx C W :=
  h.strict hr hC (Γ := { Γ.nested with place := m.name })
    ⟨hΓ.context, hΓ.current, hΓ.scope, hΓ.concrete⟩

end Features

namespace ClassTable

variable {cs : List ClassDecl} {c : ClassDecl} {f : Feature}

namespace Definite

theorem param_isType (h : Definite cs) (hc : c ∈ cs) {m : MethodDecl} (hm : m ∈ c.methods) :
    ∀ p ∈ m.params, p.ty = TypeName.selfType ∨ p.ty ∈ (Context.ofClasses cs).concreteTypes :=
  fun p hp => h.regular.isType_of_contains ((h.features c hc).params m hm p hp) ((h.writes_method hc hm).1 p hp)

theorem result_isType (h : Definite cs) (hc : c ∈ cs) {m : MethodDecl} (hm : m ∈ c.methods) :
    m.ret = TypeName.selfType ∨ m.ret ∈ (Context.ofClasses cs).concreteTypes :=
  h.regular.isType_of_contains ((h.features c hc).results m hm) (h.writes_method hc hm).2.1

/-- A feature is checked without a report exactly if it is typed. -/
theorem checkFeature_clean (h : Definite cs) (hc : c ∈ cs) (hf : f ∈ c.features) :
    (checkFeature (classEnv (Context.ofClasses cs) c.name) f).reports = [] ↔
      FeatureTyped (Context.ofClasses cs) c.name
        (classEnv (Context.ofClasses cs) c.name).scope.lookup? f := by
  have hd := h.definite_context
  have hC := h.class_concrete hc
  have hΓ := h.classEnv_strict hc
  cases f with
  | attr a =>
      have ha : a ∈ c.attributes := List.mem_filterMap.mpr ⟨_, hf, rfl⟩
      have hwritten := (h.writes c hc).features _ hf
      have hT := denotes_resolveSelf (C := c.name) hd.toRegular
        (h.regular.isType_of_contains ((h.features c hc).attributes a ha) hwritten.1)
      rw [checkFeature, hΓ.declared_eq hd.toRegular hT]
      constructor
      · intro hclean
        have hinit := checkInit_sound hd hC hΓ (hT.isConcrete hC) a.init hwritten.2 hclean
        cases hi : a.init with
        | none => exact .plain hi
        | some e =>
            obtain ⟨S, hS, hle⟩ := hinit e hi
            exact .init hi hS hT hle
      · intro htyped
        cases htyped with
        | plain hi =>
            rw [hi, checkInit]
            rfl
        | init hi hS hT' hle =>
            obtain rfl := (hT.resolveSelf_eq hd.toRegular).symm.trans (hT'.resolveSelf_eq hd.toRegular)
            rw [hi, checkInit, hS.typeOf_eq hd hC hΓ, pure_bind]
            have hcS := hS.isConcrete hd.toRegular hC hΓ.concrete
            exact (hΓ.expect_clean hd.toRegular hcS (hd.isWildcard (hT.isConcrete hC))).mpr hle
  | method m =>
      have hm : m ∈ c.methods := List.mem_filterMap.mpr ⟨_, hf, rfl⟩
      have hT := denotes_resolveSelf (C := c.name) hd.toRegular (h.result_isType hc hm)
      rw [checkFeature, hΓ.declared_eq hd.toRegular hT, reports_bind, List.append_eq_nil_iff]
      constructor
      · rintro ⟨hbody, hexpect⟩
        obtain ⟨W, hW⟩ := exists_hasParams hd.toRegular
          (classEnv (Context.ofClasses cs) c.name).scope.lookup? m.params (h.param_isType hc hm)
        have hΔ := hW.methodEnv_strict hd.toRegular hC hΓ
        have hS := typeOf_sound hd hC hΔ m.body (h.writes_method hc hm).2.2 hbody
        have hcS := hS.isConcrete hd.toRegular hC hΔ.concrete
        exact .method hW hS hT
          ((hΓ.expect_clean hd.toRegular hcS (hd.isWildcard (hT.isConcrete hC))).mp hexpect)
      · intro htyped
        cases htyped with
        | method hW hS hT' hle =>
            obtain rfl := (hT.resolveSelf_eq hd.toRegular).symm.trans (hT'.resolveSelf_eq hd.toRegular)
            have hΔ := hW.methodEnv_strict hd.toRegular hC hΓ
            have hcS := hS.isConcrete hd.toRegular hC hΔ.concrete
            rw [hS.typeOf_eq hd hC hΔ]
            exact ⟨rfl, (hΓ.expect_clean hd.toRegular hcS (hd.isWildcard (hT.isConcrete hC))).mpr hle⟩

theorem checkClass_clean (h : Definite cs) (hc : c ∈ cs) :
    (checkClass (Context.ofClasses cs) c).reports = [] ↔ ClassTyped (Context.ofClasses cs) c := by
  rw [checkClass, reports_forM, List.flatMap_eq_nil_iff]
  constructor
  · intro hclean
    exact ⟨_, h.classEnv_sees c.name, fun f hf => (h.checkFeature_clean hc hf).mp (hclean f hf)⟩
  · rintro ⟨V, hV, htyped⟩ f hf
    have heq : V = (classEnv (Context.ofClasses cs) c.name).scope.lookup? := by
      funext x
      refine Option.ext fun T => ?_
      rw [hV, h.classEnv_sees]
    exact (h.checkFeature_clean hc hf).mpr (heq ▸ htyped f hf)

end Definite

end ClassTable

/-! ## The course of the whole check -/

section Course

variable {α : Type} {reports : α → List Report} {visit : List Report → α → List Visit}

/-- The visits of one item after the other. -/
def visitsEach (reports : α → List Report) (visit : List Report → α → List Visit) :
    List Report → List α → List Visit
  | _, [] => []
  | rs, a :: as => visit rs a ++ visitsEach reports visit (rs ++ reports a) as

theorem visitsEach_walk {walk : α → List Expr} (h : ∀ rs a, (visit rs a).map (·.expr) = walk a)
    (rs : List Report) (as : List α) :
    (visitsEach reports visit rs as).map (·.expr) = as.flatMap walk := by
  induction as generalizing rs with
  | nil => rfl
  | cons a as ih => rw [visitsEach, List.map_append, h, ih, List.flatMap_cons]

theorem visitsEach_reports (h : ∀ rs a, ∀ v ∈ visit rs a, v.reports <+: rs ++ reports a)
    (rs : List Report) (as : List α) : ∀ v ∈ visitsEach reports visit rs as,
      v.reports <+: rs ++ as.flatMap reports := by
  induction as generalizing rs with
  | nil => exact fun _ hv => absurd hv List.not_mem_nil
  | cons a as ih =>
      intro v hv
      rcases List.mem_append.mp hv with hv | hv
      · refine (h rs a v hv).trans ?_
        simp
      · refine (ih _ v hv).trans ?_
        simp

theorem mem_visitsEach {rs : List Report} {as : List α} {v : Visit}
    (hv : v ∈ visitsEach reports visit rs as) : ∃ rs', ∃ a ∈ as, v ∈ visit rs' a := by
  induction as generalizing rs with
  | nil => exact absurd hv List.not_mem_nil
  | cons a as ih =>
      rcases List.mem_append.mp hv with hv | hv
      · exact ⟨rs, a, List.mem_cons_self, hv⟩
      · obtain ⟨rs', b, hb, hv⟩ := ih hv
        exact ⟨rs', b, List.mem_cons_of_mem _ hb, hv⟩

end Course

/-- The visits of the expression of a feature. -/
def Feature.visits (rs : List Report) (Γ : Env) : Feature → List Visit
  | .attr a => visitsInit rs Γ a.init
  | .method m => CoolTyping.visits rs (methodEnv Γ m) m.body

theorem Feature.visits_walk (rs : List Report) (Γ : Env) (f : Feature) :
    (f.visits rs Γ).map (·.expr) = f.expr?.elim [] Expr.walk := by
  cases f with
  | method m => exact CoolTyping.visits_walk rs _ m.body
  | attr a =>
      dsimp only [visits, expr?]
      cases a.init with
      | none => rfl
      | some e => exact CoolTyping.visits_walk rs Γ e

theorem Feature.visits_reports (rs : List Report) (Γ : Env) (f : Feature) :
    ∀ v ∈ f.visits rs Γ, v.reports <+: rs ++ (checkFeature Γ f).reports := by
  intro v hv
  cases f with
  | attr a => exact visitsInit_reports rs Γ _ a.init v hv
  | method m =>
      refine (CoolTyping.visits_reports rs _ m.body v hv).trans ?_
      simp [checkFeature]

namespace ClassTable

/-- The visits of the check of all registered classes. -/
def visits (t : ClassTable) : List Visit :=
  visitsEach (fun c => (checkClass t.context c).reports) (fun rs c =>
    visitsEach (fun f => (checkFeature (classEnv t.context c.name) f).reports)
      (fun rs f => f.visits rs (classEnv t.context c.name)) rs c.features) [] t.classes

theorem visits_walk (t : ClassTable) : t.visits.map (·.expr) =
    t.classes.flatMap fun c => c.features.flatMap fun f => f.expr?.elim [] Expr.walk := by
  refine visitsEach_walk (fun rs c => ?_) [] t.classes
  exact visitsEach_walk (fun rs f => f.visits_walk rs _) rs c.features

theorem visits_reports (t : ClassTable) : ∀ v ∈ t.visits, v.reports <+: t.check.reports := by
  intro v hv
  unfold check
  rw [reports_forM]
  refine visitsEach_reports (fun rs c v hv => ?_) [] t.classes v hv
  unfold checkClass
  rw [reports_forM]
  exact visitsEach_reports (fun rs f => f.visits_reports rs _) rs c.features v hv

theorem Definite.visits_strict {cs : List ClassDecl} (h : Definite cs) {v : Visit}
    (hv : v ∈ visits ⟨Context.ofClasses cs, cs.map some⟩) :
    ∃ c ∈ cs, v.Strict (Context.ofClasses cs) c.name := by
  obtain ⟨_, c, hc, hv⟩ := mem_visitsEach hv
  rw [classes_all] at hc
  obtain ⟨rs, f, hf, hv⟩ := mem_visitsEach hv
  have hd := h.definite_context
  have hC := h.class_concrete hc
  have hΓ := h.classEnv_strict hc
  have hwritten := (h.writes c hc).features f hf
  refine ⟨c, hc, ?_⟩
  cases f with
  | attr a => exact visitsInit_strict hd hC (fun _ => ⟨_, hΓ⟩) a.init hwritten.2 v hv
  | method m =>
      have hm : m ∈ c.methods := List.mem_filterMap.mpr ⟨_, hf, rfl⟩
      obtain ⟨W, hW⟩ := exists_hasParams hd.toRegular
        (classEnv (Context.ofClasses cs) c.name).scope.lookup? m.params (h.param_isType hc hm)
      exact CoolTyping.visits_strict hd hC (fun _ => ⟨W, hW.methodEnv_strict hd.toRegular hC hΓ⟩) m.body
        hwritten.2.2 v hv

theorem definite_of_build {source : String} {p : Program} (hp : parse source = .ok p)
    (hauto : ∀ c ∈ p.classes, c.Writes (· ≠ TypeName.auto)) (hb : (build p).diagnostics = []) :
    Definite p.classes where
  toFitting := (build_fitting (diagnostics_eq_nil.mp hb)).1
  writes c hc := by
    have hcapital := parse_capitalized hp c hc
    have hauto := hauto c hc
    refine ⟨⟨hauto.name, hcapital.name.ne_error⟩, fun q hq => ?_, fun f hf => ?_⟩
    · exact ⟨hauto.parent q hq, (hcapital.parent q hq).ne_error⟩
    · exact ((hauto.features f hf).and (hcapital.features f hf)).mono fun _ h => ⟨h.1, h.2.ne_error⟩

/-- The strict check decides the typing rules. In a program without placeholders, whose class table was
built without a report, it reports nothing exactly if all classes are typed. It visits every part of every
feature, and if nothing is reported, each visit ends with the only type that the rules give to the part. A
visit ends with `<error>` only after a report. -/
theorem check_decides_typing {source : String} {p : Program} (hp : parse source = .ok p)
    (hauto : ∀ c ∈ p.classes, c.Writes (· ≠ TypeName.auto)) (hb : (build p).diagnostics = []) :
    let t := (build p).value
    (t.check.diagnostics = [] ↔ ∀ c ∈ p.classes, ClassTyped t.context c) ∧
    t.visits.map (·.expr) =
      p.classes.flatMap (fun c => c.features.flatMap fun f => f.expr?.elim [] Expr.walk) ∧
    (t.check.diagnostics = [] → ∀ v ∈ t.visits, ∀ T,
      HasType t.context v.env.current v.env.scope.lookup? v.expr T ↔ T = v.type) ∧
    ∀ v ∈ t.visits, v.reports <+: t.check.reports ∧ (v.type = TypeName.error → v.reports ≠ []) := by
  intro t
  have hdef := definite_of_build hp hauto hb
  have ht : t = ⟨Context.ofClasses p.classes, p.classes.map some⟩ := by
    simp only [t, hdef.build_eq]
  have hclasses : t.classes = p.classes := by rw [ht, classes_all]
  have hcontext : t.context = Context.ofClasses p.classes := by rw [ht]
  have htyped : ∀ v ∈ t.visits, v.reports = [] → v.type ∈ t.context.concreteTypes ∧
      ∀ T, HasType t.context v.env.current v.env.scope.lookup? v.expr T ↔ T = v.type := by
    intro v hv hclean
    rw [ht] at hv
    obtain ⟨c, hc, hstrict⟩ := hdef.visits_strict hv
    obtain ⟨V, hV⟩ := hstrict.1 (List.append_eq_nil_iff.mp hclean).1
    have hiff := hstrict.hasType_iff hdef.definite_context (hdef.class_concrete hc) hclean
    have htype := (hiff v.type).mpr rfl
    rw [hV.scope] at htype
    rw [hcontext, hV.current]
    exact ⟨htype.isConcrete hdef.regular (hdef.class_concrete hc) hV.concrete, hiff⟩
  refine ⟨?_, ?_, fun hclean v hv => ?_, fun v hv => ⟨t.visits_reports v hv, fun herror hclean => ?_⟩⟩
  · rw [diagnostics_eq_nil, check, reports_forM, List.flatMap_eq_nil_iff, hclasses, hcontext]
    exact forall₂_congr fun c hc => hdef.checkClass_clean hc
  · rw [visits_walk, hclasses]
  · have hprefix := t.visits_reports v hv
    rw [diagnostics_eq_nil.mp hclean, List.prefix_nil] at hprefix
    exact (htyped v hv hprefix).2
  · have hconcrete := (htyped v hv hclean).1
    rw [herror, hcontext] at hconcrete
    exact (hdef.regular.proper hconcrete).2.2 rfl

end ClassTable

/-- The text of two classes: a method of the second one tells by a `case` what its argument is, calls a
method on it with and without naming the ancestor, and gives back the join of the results. -/
def pickerText : String :=
  "class A \x7b n : Int <- 1; me() : SELF_TYPE \x7b self \x7d; \x7d; class B inherits A \x7b " ++
    "pick(x : A) : A \x7b case x of a : A => a.me(); " ++
    "b : B => let c : B <- b in c@A.me(); esac \x7d; \x7d;"

def picker : Program :=
  ⟨[⟨0, "A", none, [
      .attr ⟨"n", TypeName.int, some (.int ⟨21, 22⟩ 1), ⟨10, 22⟩⟩,
      .method ⟨1, "me", [], TypeName.selfType, .ident ⟨43, 47⟩ "self", ⟨24, 49⟩⟩], ⟨0, 53⟩⟩,
    ⟨2, "B", some "A", [
      .method ⟨3, "pick", [⟨"x", "A", ⟨80, 85⟩⟩], "A",
        .caseOf ⟨93, 161⟩ (.ident ⟨98, 99⟩ "x") [
          (⟨4, "a", "A", ⟨103, 119⟩⟩,
            .dispatch ⟨112, 118⟩ (some (.ident ⟨112, 113⟩ "a")) "me" []),
          (⟨6, "b", "B", ⟨120, 156⟩⟩,
            .letIn ⟨129, 155⟩ [(⟨5, "c", "B", ⟨133, 143⟩⟩, some (.ident ⟨142, 143⟩ "b"))]
              (.staticDispatch ⟨147, 155⟩ (.ident ⟨147, 148⟩ "c") "A" "me" []))],
        ⟨75, 163⟩⟩], ⟨54, 167⟩⟩]⟩

theorem picker_typed :
    let t := (ClassTable.build picker).value
    parse pickerText = .ok picker ∧ (∀ c ∈ picker.classes, c.Writes (· ≠ TypeName.auto)) ∧
      (ClassTable.build picker).diagnostics = [] ∧ t.check.diagnostics = [] ∧
      (∀ c ∈ picker.classes, ClassTyped t.context c) ∧
      t.visits.map (·.type) = ["Int", "A", "A", "A", "A", "A", "B", "B", "B", "B"] ∧
      ∀ v ∈ t.visits, HasType t.context v.env.current v.env.scope.lookup? v.expr v.type := by
  have hp : parse pickerText = .ok picker := by cbv
  have hauto : ∀ c ∈ picker.classes, c.Writes (· ≠ TypeName.auto) := by decide +kernel
  have hb : (ClassTable.build picker).diagnostics = [] := by decide +kernel
  have hc : (ClassTable.build picker).value.check.diagnostics = [] := by decide +kernel
  have hdecides := ClassTable.check_decides_typing hp hauto hb
  exact ⟨hp, hauto, hb, hc, hdecides.1.mp hc, by decide +kernel,
    fun v hv => (hdecides.2.2.1 hc v hv v.type).mpr rfl⟩

end CoolTyping
