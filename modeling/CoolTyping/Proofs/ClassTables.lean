import CoolTyping.Typing
import Mathlib.Data.List.Nodup

/-!
# What a class table holds

The four rounds in which a class table is built leave the names and kinds of its types as they were
registered. Every method is a basic one or that of a class. Where nothing was reported, all types that
the features declare exist, and no class has two methods of the same name.
-/

namespace CoolTyping

namespace Context

variable {ctx : Context} {t : TypeName}

/-! ## Names and kinds -/

/-- The names of the types, with their kinds. -/
def labels (ctx : Context) : List (TypeName × TypeKind) := ctx.types.map fun i => (i.name, i.kind)

theorem names_eq (ctx : Context) : ctx.names = ctx.labels.map (·.1) := by
  simp [names, labels, Function.comp_def]

theorem contains_iff : ctx.contains t = true ↔ t ∈ ctx.names := by
  simp [contains, names]

theorem mem_names : t ∈ ctx.names ↔ ∃ kind, (t, kind) ∈ ctx.labels := by
  simp [names_eq]

theorem contains_congr {ctx' : Context} (h : ctx'.labels = ctx.labels) :
    ctx'.contains t = true ↔ ctx.contains t = true := by
  rw [contains_iff, contains_iff, names_eq, names_eq, h]

theorem mem_concreteTypes :
    t ∈ ctx.concreteTypes ↔ ∃ kind, (t, kind) ∈ ctx.labels ∧ kind.isConcrete = true := by
  simp only [concreteTypes, labels, List.mem_map, List.mem_filter, Prod.mk.injEq]
  constructor
  · rintro ⟨i, ⟨hi, hk⟩, rfl⟩
    exact ⟨i.kind, ⟨i, hi, rfl, rfl⟩, hk⟩
  · rintro ⟨_, ⟨i, hi, rfl, rfl⟩, hk⟩
    exact ⟨i, ⟨hi, hk⟩, rfl⟩

theorem concreteTypes_sublist (ctx : Context) : ctx.concreteTypes.Sublist ctx.names :=
  List.filter_sublist.map _

theorem labels_modify {f : TypeInfo → TypeInfo}
    (hf : ∀ i, (f i).name = i.name ∧ (f i).kind = i.kind) : (ctx.modify t f).labels = ctx.labels := by
  simp only [labels, modify, List.map_map]
  refine List.map_congr_left fun i _ => ?_
  simp only [Function.comp_apply]
  split
  · rw [(hf i).1, (hf i).2]
  · rfl

theorem create_eq_ok {ctx' : Context} {name : TypeName} (h : ctx.create name = .ok ctx') :
    ctx.contains name = false ∧
      ctx' = ⟨ctx.types ++ [⟨name, .declared, some TypeName.object, [], []⟩]⟩ := by
  unfold create at h
  split at h
  · cases h
  rename_i hfresh
  cases h
  exact ⟨by simpa using hfresh, rfl⟩

theorem create_distinct {ctx' : Context} {name : TypeName} (hd : ctx.names.Nodup)
    (h : ctx.create name = .ok ctx') : ctx'.names.Nodup := by
  obtain ⟨hfresh, rfl⟩ := create_eq_ok h
  have hnew : name ∉ ctx.names := by
    rw [← contains_iff, hfresh]
    exact Bool.false_ne_true
  rw [names, List.map_append]
  exact hd.append (List.nodup_singleton _) (List.disjoint_singleton.mpr hnew)

/-! ## Methods -/

/-- `M` holds of all methods, with the types that they are declared in. -/
def MethodsIn (ctx : Context) (M : TypeName → Signature → Prop) : Prop :=
  ∀ i ∈ ctx.types, ∀ m ∈ i.methods, M i.name m

variable {M : TypeName → Signature → Prop}

theorem MethodsIn.modify {f : TypeInfo → TypeInfo} (h : ctx.MethodsIn M)
    (hname : ∀ i, (f i).name = i.name)
    (hf : ∀ i, i.name = t → ∀ m ∈ (f i).methods, m ∈ i.methods ∨ M t m) :
    (ctx.modify t f).MethodsIn M := by
  intro j hj m hm
  obtain ⟨i, hi, rfl⟩ := List.mem_map.mp hj
  by_cases ht : i.name = t
  · simp only [ht, beq_self_eq_true, ↓reduceIte] at hm ⊢
    rw [hname, ht]
    rcases hf i ht m hm with hm | hm
    · exact ht ▸ h i hi m hm
    · exact hm
  · have hne : (i.name == t) = false := by simpa using ht
    simp only [hne, Bool.false_eq_true, ↓reduceIte] at hm ⊢
    exact h i hi m hm

/-- A method that is found is one that its owner declares. -/
theorem mem_ownMethods_of_method? {owner : TypeName} {name : String} {m : Signature}
    (hm : ctx.method? t name = some (owner, m)) : m ∈ ctx.ownMethods owner ∧ m.name = name := by
  obtain ⟨o, _, ho⟩ := List.exists_of_findSome?_eq_some hm
  obtain ⟨m', hm', heq⟩ := Option.map_eq_some_iff.mp ho
  cases heq
  exact ⟨List.mem_of_find?_eq_some hm', by simpa using List.find?_some hm'⟩

theorem MethodsIn.of_method? {owner : TypeName} {name : String} {m : Signature}
    (h : ctx.MethodsIn M) (hm : ctx.method? t name = some (owner, m)) :
    M owner m ∧ m.name = name := by
  obtain ⟨hmem, hname⟩ := mem_ownMethods_of_method? hm
  unfold ownMethods at hmem
  cases hi : ctx.info? owner with
  | none => rw [hi] at hmem; exact absurd hmem List.not_mem_nil
  | some i =>
      rw [hi] at hmem
      have howner : i.name = owner := by simpa using List.find?_some hi
      exact ⟨howner ▸ h i (List.mem_of_find?_eq_some hi) m hmem, hname⟩

theorem info?_modify_eq {f : TypeInfo → TypeInfo} (hname : ∀ i, (f i).name = i.name) (x : TypeName) :
    (ctx.modify t f).info? x = if x = t then (ctx.info? x).map f else ctx.info? x := by
  obtain ⟨types⟩ := ctx
  unfold info? modify
  dsimp only
  induction types with
  | nil => simp
  | cons i is ih =>
      by_cases hix : i.name = x
      · by_cases hx : x = t <;> simp [hix, hx, hname]
      · by_cases ht : i.name = t
        · have hx : x ≠ t := fun h => hix (ht.trans h.symm)
          simpa [ht, hx, hname, Ne.symm hx] using ih
        · simpa [ht, hix] using ih

theorem info?_modify {f : TypeInfo → TypeInfo} (hname : ∀ i, (f i).name = i.name) :
    (ctx.modify t f).info? t = (ctx.info? t).map f := by
  rw [info?_modify_eq hname, if_pos rfl]

theorem isSome_info? (h : ctx.contains t = true) : (ctx.info? t).isSome = true := by
  simpa [info?, contains] using h

/-- A method that was added is found, unless there is one of that name before it. -/
theorem ownMethod?_addMethod (m : Signature) (name : String) (h : ctx.contains t = true) :
    (ctx.addMethod t m).ownMethod? t name =
      (ctx.ownMethod? t name).or (if m.name = name then some m else none) := by
  obtain ⟨i, hi⟩ := Option.isSome_iff_exists.mp (isSome_info? h)
  unfold ownMethod? ownMethods addMethod
  rw [info?_modify, hi]
  · simp [List.find?_append]
  · exact fun _ => rfl

/-- A basic method is declared with basic types. -/
def IsBasicMethod (m : Signature) : Prop :=
  (m.ret = TypeName.selfType ∨ m.ret ∈ basic.concreteTypes) ∧
    ∀ p ∈ m.params, p.2 ∈ basic.concreteTypes

theorem basic_methodsIn : basic.MethodsIn fun _ => IsBasicMethod := by
  unfold MethodsIn IsBasicMethod
  decide

theorem basic_names_nodup : basic.names.Nodup := by decide

/-- The basic types that no placeholder may stand for. -/
theorem mem_basic_labels {kind : TypeKind} (h : (t, kind) ∈ basic.labels)
    (hk : kind.isConcrete = false) : t = TypeName.auto ∨ t = TypeName.selfType ∨ t = TypeName.error := by
  have hall : ∀ x ∈ basic.labels, x.2.isConcrete = false →
      x.1 = TypeName.auto ∨ x.1 = TypeName.selfType ∨ x.1 = TypeName.error := by decide
  exact hall _ h hk

end Context

namespace ClassTable

open Reporting

/-! ## Registration -/

/-- The label that a class is registered with. -/
def label (c : ClassDecl) : TypeName × TypeKind := (c.name, .declared)

/-- What holds of the context `ctx` once the classes `cs` were registered in `base`. -/
structure Registered (base : Context) (cs : List ClassDecl) (ctx : Context) : Prop where
  labels : ctx.labels = base.labels ++ cs.map label
  distinct : ctx.names.Nodup
  methods : ∀ M, base.MethodsIn M → ctx.MethodsIn M

theorem Registered.create {base ctx : Context} {c : ClassDecl} (hd : base.names.Nodup)
    (h : base.create c.name = .ok ctx) : Registered base [c] ctx := by
  have hdistinct := Context.create_distinct hd h
  obtain ⟨_, rfl⟩ := Context.create_eq_ok h
  refine ⟨by simp [Context.labels, label], hdistinct, fun M hM i hi => ?_⟩
  rcases List.mem_append.mp hi with hi | hi
  · exact hM i hi
  · obtain rfl := List.mem_singleton.mp hi
    exact fun m hm => absurd hm List.not_mem_nil

theorem Registered.trans {base ctx ctx' : Context} {cs cs' : List ClassDecl}
    (h : Registered base cs ctx) (h' : Registered ctx cs' ctx') :
    Registered base (cs ++ cs') ctx' :=
  ⟨by rw [h'.labels, h.labels, List.map_append, List.append_assoc], h'.distinct,
    fun M hM => h'.methods M (h.methods M hM)⟩

theorem register_registered {base : Context} (hd : base.names.Nodup) (cs : List ClassDecl) :
    Registered base (register base cs).value.classes (register base cs).value.context := by
  induction cs generalizing base with
  | nil => exact ⟨(List.append_nil _).symm, hd, fun _ h => h⟩
  | cons c cs ih =>
      unfold register
      cases hc : base.create c.name with
      | error e => exact ih hd
      | ok ctx =>
          have hfirst := Registered.create hd hc
          exact hfirst.trans (ih hfirst.distinct)

theorem classes_register_subset (base : Context) (cs : List ClassDecl) :
    ∀ c ∈ (register base cs).value.classes, c ∈ cs := by
  induction cs generalizing base with
  | nil => exact fun _ hc => absurd hc List.not_mem_nil
  | cons d cs ih =>
      unfold register
      cases base.create d.name with
      | error e => exact fun c hc => List.mem_cons_of_mem _ (ih base c hc)
      | ok ctx =>
          intro c hc
          rcases List.mem_cons.mp hc with rfl | hc
          · exact List.mem_cons_self
          · exact List.mem_cons_of_mem _ (ih ctx c hc)

/-! ## The rounds after registration -/

/-- Where a method of a class table comes from: it is a basic one, or that of a class, with the
parameters of its declaration. -/
def MethodOrigin (cs : List ClassDecl) (owner : TypeName) (m : Signature) : Prop :=
  Context.IsBasicMethod m ∨ ∃ c ∈ cs, c.name = owner ∧ ∃ d ∈ c.methods, d.name = m.name ∧
    m.params.map (·.1) = d.params.map (·.name)

/-- What each round keeps of the context, where `cs` are the classes. -/
structure Kept (cs : List ClassDecl) (before after : Context) : Prop where
  labels : after.labels = before.labels
  methods : before.MethodsIn (MethodOrigin cs) → after.MethodsIn (MethodOrigin cs)

variable {cs : List ClassDecl} {c : ClassDecl} {ctx ctx' : Context}

theorem Kept.refl (cs : List ClassDecl) (ctx : Context) : Kept cs ctx ctx := ⟨rfl, id⟩

theorem Kept.trans {ctx'' : Context} (h : Kept cs ctx ctx') (h' : Kept cs ctx' ctx'') :
    Kept cs ctx ctx'' := ⟨h'.labels.trans h.labels, h'.methods ∘ h.methods⟩

/-- A change that leaves the methods alone. -/
theorem Kept.modify {t : TypeName} {f : TypeInfo → TypeInfo}
    (hf : ∀ i, (f i).name = i.name ∧ (f i).kind = i.kind ∧ (f i).methods = i.methods) :
    Kept cs ctx (ctx.modify t f) := by
  refine ⟨Context.labels_modify fun i => ⟨(hf i).1, (hf i).2.1⟩, fun h => ?_⟩
  refine h.modify (fun i => (hf i).1) fun i _ m hm => Or.inl ?_
  rwa [(hf i).2.2] at hm

theorem Kept.foldlM {α : Type} {f : Context → α → Reporting Context} {as : List α}
    (hf : ∀ ctx, ∀ a ∈ as, Kept cs ctx (f ctx a).value) : Kept cs ctx (as.foldlM f ctx).value :=
  foldlM_value (.refl cs ctx) fun ctx' h a ha => h.trans (hf ctx' a ha)

theorem Kept.foldlM_clean {α : Type} {f : Context → α → Reporting Context} {as : List α}
    (hf : ∀ ctx, ∀ a ∈ as, Kept cs ctx (f ctx a).value) (h : (as.foldlM f ctx).reports = []) :
    ∀ a ∈ as, ∃ ctx', Kept cs ctx ctx' ∧ (f ctx' a).reports = [] :=
  Reporting.foldlM_clean (.refl cs ctx) (fun ctx' h a ha => h.trans (hf ctx' a ha)) h

theorem link_kept (ctx : Context) (c : ClassDecl) (parent : TypeName) :
    Kept cs ctx (link ctx c parent).value := by
  unfold link
  cases h : ctx.setParent c.name parent with
  | error e => exact .refl cs ctx
  | ok ctx' =>
      unfold Context.setParent at h
      split at h
      · cases h
      split at h
      · cases h
      cases h
      exact .modify fun _ => ⟨rfl, rfl, rfl⟩

theorem linkParent_kept (ctx : Context) (c : ClassDecl) : Kept cs ctx (linkParent ctx c).value := by
  unfold linkParent
  cases c.parent with
  | none => exact .refl cs ctx
  | some parent =>
      dsimp only
      cases ctx.resolve parent with
      | ok parent => exact link_kept ctx c parent
      | error e => exact link_kept ctx c TypeName.error

theorem defineAttribute_kept (cs : List ClassDecl) (owner : TypeName) (ctx : Context)
    (a : AttrDecl) : Kept cs ctx (defineAttribute owner ctx a).value := by
  unfold defineAttribute
  rw [value_bind]
  split
  · exact .refl cs ctx
  · exact .modify fun _ => ⟨rfl, rfl, rfl⟩

/-- A method is added with the parameters of its declaration, unless the class has one of that
name. -/
theorem defineMethod_value (owner : TypeName) (ctx : Context) (d : MethodDecl) :
    ∃ m : Signature, m.name = d.name ∧ m.params.map (·.1) = d.params.map (·.name) ∧
      (defineMethod owner ctx d).value =
        if (ctx.ownMethod? owner d.name).isSome then ctx else ctx.addMethod owner m := by
  let params := (d.params.mapM fun p =>
    do return (p.name, ← declaredType ctx p.ty p.span) : Reporting (List (String × TypeName))).value
  refine ⟨⟨d.name, params, (declaredType ctx d.ret d.span).value⟩, rfl, ?_, ?_⟩
  · simp only [params, value_mapM, List.map_map]
    rfl
  · unfold defineMethod
    rw [value_bind, value_bind]
    split
    · rfl
    · rfl

theorem defineMethod_kept (hc : c ∈ cs) (ctx : Context) {d : MethodDecl} (hd : d ∈ c.methods) :
    Kept cs ctx (defineMethod c.name ctx d).value := by
  obtain ⟨m, hname, hparams, hvalue⟩ := defineMethod_value c.name ctx d
  rw [hvalue]
  split
  · exact .refl cs ctx
  · refine ⟨Context.labels_modify fun _ => ⟨rfl, rfl⟩, fun h => ?_⟩
    refine h.modify (fun _ => rfl) fun i _ m' hm => ?_
    rcases List.mem_append.mp hm with hm | hm
    · exact Or.inl hm
    · obtain rfl := List.mem_singleton.mp hm
      exact Or.inr (Or.inr ⟨c, hc, rfl, d, hd, hname.symm, hparams⟩)

theorem defineFeatures_kept (hc : c ∈ cs) (ctx : Context) :
    Kept cs ctx (defineFeatures ctx c).value := by
  unfold defineFeatures
  rw [value_bind]
  refine Kept.trans (.foldlM fun ctx a _ => ?_) (.foldlM fun ctx d hd => ?_)
  · exact defineAttribute_kept _ c.name ctx a
  · exact defineMethod_kept hc ctx hd

theorem checkInherited_kept (ctx : Context) (c : ClassDecl) :
    Kept cs ctx (checkInherited ctx c).value := by
  unfold checkInherited
  cases ctx.parent? c.name with
  | none => exact .refl cs ctx
  | some parent => exact .modify fun _ => ⟨rfl, rfl, rfl⟩

/-! ## Every class table -/

/-- What holds of the class table of every program. -/
structure WellFormed (t : ClassTable) : Prop where
  labels : t.context.labels = Context.basic.labels ++ t.classes.map label
  distinct : t.context.names.Nodup
  methods : t.context.MethodsIn (MethodOrigin t.classes)

/-- The context once the classes were linked to their parents. -/
def linked (t : ClassTable) : Context := (t.classes.foldlM linkParent t.context).value

/-- The context once the classes were given their features. -/
def featured (t : ClassTable) : Context := (t.classes.foldlM defineFeatures t.linked).value

theorem linked_kept (t : ClassTable) : Kept t.classes t.context t.linked :=
  .foldlM fun ctx c _ => linkParent_kept ctx c

theorem featured_kept (t : ClassTable) : Kept t.classes t.linked t.featured :=
  .foldlM fun ctx _ hc => defineFeatures_kept hc ctx

theorem build_kept (p : Program) :
    Kept (register Context.basic p.classes).value.classes
      (register Context.basic p.classes).value.featured (build p).value.context :=
  .foldlM fun ctx c _ => checkInherited_kept ctx c

theorem build_wellFormed (p : Program) : (build p).value.WellFormed := by
  have hreg := register_registered Context.basic_names_nodup p.classes
  have hkept := ((linked_kept _).trans (featured_kept _)).trans (build_kept p)
  have hlabels := hkept.labels
  refine ⟨hlabels.trans hreg.labels, ?_, hkept.methods (hreg.methods _ ?_)⟩
  · rw [Context.names_eq, hlabels, ← Context.names_eq]
    exact hreg.distinct
  · exact fun i hi m hm => Or.inl (Context.basic_methodsIn i hi m hm)

namespace WellFormed

variable {t : ClassTable} {ty : TypeName}

theorem basic_concrete (h : t.WellFormed) (hb : ty ∈ Context.basic.concreteTypes) :
    ty ∈ t.context.concreteTypes := by
  obtain ⟨kind, hl, hk⟩ := Context.mem_concreteTypes.mp hb
  exact Context.mem_concreteTypes.mpr ⟨kind, h.labels ▸ List.mem_append_left _ hl, hk⟩

theorem class_concrete (h : t.WellFormed) (hc : c ∈ t.classes) :
    c.name ∈ t.context.concreteTypes := by
  refine Context.mem_concreteTypes.mpr ⟨.declared, ?_, rfl⟩
  rw [h.labels]
  exact List.mem_append_right _ (List.mem_map_of_mem hc)

/-- Three types are not concrete. -/
theorem concrete_of_contains (h : t.WellFormed) (ht : t.context.contains ty = true) :
    ty ∈ t.context.concreteTypes ∨
      ty = TypeName.auto ∨ ty = TypeName.selfType ∨ ty = TypeName.error := by
  obtain ⟨kind, hl⟩ := Context.mem_names.mp (Context.contains_iff.mp ht)
  cases hk : kind.isConcrete with
  | true => exact Or.inl (Context.mem_concreteTypes.mpr ⟨kind, hl, hk⟩)
  | false =>
      rw [h.labels] at hl
      rcases List.mem_append.mp hl with hl | hl
      · exact Or.inr (Context.mem_basic_labels hl hk)
      · obtain ⟨c, _, hc⟩ := List.mem_map.mp hl
        cases hc
        cases hk

theorem known_iff (h : t.WellFormed) : t.context.contains ty = true ↔ ty ∈ t.context.concreteTypes ∨
    ty = TypeName.auto ∨ ty = TypeName.selfType ∨ ty = TypeName.error := by
  refine ⟨h.concrete_of_contains, fun hty => Context.contains_iff.mpr ?_⟩
  have hbasic : ∀ {x}, x ∈ Context.basic.names → x ∈ t.context.names := by
    intro x hx
    obtain ⟨kind, hl⟩ := Context.mem_names.mp hx
    exact Context.mem_names.mpr ⟨kind, h.labels ▸ List.mem_append_left _ hl⟩
  rcases hty with hty | rfl | rfl | rfl
  · exact (Context.concreteTypes_sublist _).subset hty
  all_goals exact hbasic (by decide)

theorem concrete_ne (h : t.WellFormed) (hty : ty ∈ t.context.concreteTypes) :
    ty ≠ TypeName.auto ∧ ty ≠ TypeName.selfType ∧ ty ≠ TypeName.error := by
  have hdistinct := h.distinct
  rw [Context.names_eq] at hdistinct
  obtain ⟨kind, hl, hk⟩ := Context.mem_concreteTypes.mp hty
  have hne : ∀ x ∈ Context.basic.labels, x.2.isConcrete = false → ty ≠ x.1 := by
    rintro x hx hx' rfl
    have hmem : x ∈ t.context.labels := h.labels ▸ List.mem_append_left _ hx
    have heq : (x.1, kind) = x := List.inj_on_of_nodup_map hdistinct hl hmem rfl
    rw [← heq] at hx'
    exact Bool.false_ne_true (hx'.symm.trans hk)
  exact ⟨hne (_, .auto) (by decide) rfl, hne (_, .selfType) (by decide) rfl,
    hne (_, .error) (by decide) rfl⟩

theorem concreteTypes_nodup (h : t.WellFormed) : t.context.concreteTypes.Nodup :=
  h.distinct.sublist (Context.concreteTypes_sublist _)

theorem classNames_nodup (h : t.WellFormed) : (t.classes.map (·.name)).Nodup := by
  have hnames := h.distinct
  rw [Context.names_eq, h.labels, List.map_append, List.map_map] at hnames
  exact (List.nodup_append.mp hnames).2.1

theorem class_eq_of_name (h : t.WellFormed) {d : ClassDecl} (hc : c ∈ t.classes)
    (hd : d ∈ t.classes) (hn : c.name = d.name) : c = d :=
  List.inj_on_of_nodup_map h.classNames_nodup hc hd hn

end WellFormed

/-! ## Class tables without reports -/

theorem contains_of_declaredType {name : TypeName} {span : Span}
    (h : (declaredType ctx name span).reports = []) : ctx.contains name = true := by
  unfold declaredType Context.resolve at h
  by_contra hn
  rw [if_neg hn] at h
  cases h

theorem contains_of_defineAttribute {owner : TypeName} {a : AttrDecl}
    (h : (defineAttribute owner ctx a).reports = []) : ctx.contains a.ty = true := by
  unfold defineAttribute at h
  rw [reports_bind, List.append_eq_nil_iff] at h
  exact contains_of_declaredType h.1

/-- What a method without reports says about its declaration. -/
structure MethodClean (ctx : Context) (owner : TypeName) (d : MethodDecl) : Prop where
  params : ∀ p ∈ d.params, ctx.contains p.ty = true
  ret : ctx.contains d.ret = true
  fresh : ctx.ownMethod? owner d.name = none

theorem defineMethod_clean {owner : TypeName} {d : MethodDecl}
    (h : (defineMethod owner ctx d).reports = []) : MethodClean ctx owner d := by
  unfold defineMethod at h
  rw [reports_bind, reports_bind, List.append_eq_nil_iff, List.append_eq_nil_iff, reports_mapM,
    List.flatMap_eq_nil_iff] at h
  obtain ⟨hparams, hret, hdup⟩ := h
  refine ⟨fun p hp => ?_, contains_of_declaredType hret, ?_⟩
  · have hp := hparams p hp
    rw [reports_bind, List.append_eq_nil_iff] at hp
    exact contains_of_declaredType hp.1
  · by_contra hsome
    rw [← ne_eq, Option.ne_none_iff_isSome] at hsome
    rw [if_pos hsome] at hdup
    cases hdup

/-- Of two methods of the same name the later one is reported. -/
theorem methodNames_nodup {owner : TypeName} {ds : List MethodDecl}
    (ho : ctx.contains owner = true) (h : (ds.foldlM (defineMethod owner) ctx).reports = []) :
    (ds.map (·.name)).Nodup ∧ ∀ d ∈ ds, ctx.ownMethod? owner d.name = none := by
  induction ds generalizing ctx with
  | nil => exact ⟨List.nodup_nil, fun _ hd => absurd hd List.not_mem_nil⟩
  | cons d ds ih =>
      rw [List.foldlM_cons, reports_bind, List.append_eq_nil_iff] at h
      have hfresh := (defineMethod_clean h.1).fresh
      obtain ⟨m, hname, _, hnext⟩ := defineMethod_value owner ctx d
      rw [hfresh, Option.isSome_none, if_neg Bool.false_ne_true] at hnext
      have hlabels : (ctx.addMethod owner m).labels = ctx.labels :=
        Context.labels_modify fun _ => ⟨rfl, rfl⟩
      rw [hnext] at h
      obtain ⟨hnodup, hrest⟩ := ih ((Context.contains_congr hlabels).mpr ho) h.2
      have hlater : ∀ e ∈ ds, e.name ≠ d.name ∧ ctx.ownMethod? owner e.name = none := by
        intro e he
        have hnone := hrest e he
        rw [Context.ownMethod?_addMethod m e.name ho, Option.or_eq_none_iff, hname] at hnone
        exact ⟨fun heq => by simp [heq] at hnone, hnone.1⟩
      refine ⟨List.nodup_cons.mpr ⟨fun hmem => ?_, hnodup⟩, ?_⟩
      · obtain ⟨e, he, heq⟩ := List.mem_map.mp hmem
        exact (hlater e he).1 heq
      · exact List.forall_mem_cons.mpr ⟨hfresh, fun e he => (hlater e he).2⟩

/-- The types that the features of a class declare exist, and its methods have different names. -/
structure ClassClean (ctx : Context) (c : ClassDecl) : Prop where
  attributes : ∀ a ∈ c.attributes, ctx.contains a.ty = true
  params : ∀ m ∈ c.methods, ∀ p ∈ m.params, ctx.contains p.ty = true
  results : ∀ m ∈ c.methods, ctx.contains m.ret = true
  methodNames : (c.methods.map (·.name)).Nodup

theorem ClassClean.congr (h : ClassClean ctx c) (hl : ctx.labels = ctx'.labels) :
    ClassClean ctx' c where
  attributes a ha := (Context.contains_congr hl).mp (h.attributes a ha)
  params m hm p hp := (Context.contains_congr hl).mp (h.params m hm p hp)
  results m hm := (Context.contains_congr hl).mp (h.results m hm)
  methodNames := h.methodNames

theorem defineFeatures_clean (hc : ctx.contains c.name = true)
    (h : (defineFeatures ctx c).reports = []) : ClassClean ctx c := by
  unfold defineFeatures at h
  rw [reports_bind, List.append_eq_nil_iff] at h
  obtain ⟨hattributes, hmethods⟩ := h
  have hkept : Kept [c] ctx (c.attributes.foldlM (defineAttribute c.name) ctx).value :=
    .foldlM fun ctx a _ => defineAttribute_kept _ c.name ctx a
  have hmethod : ∀ m ∈ c.methods, (∀ p ∈ m.params, ctx.contains p.ty = true) ∧
      ctx.contains m.ret = true := by
    intro m hm
    obtain ⟨ctx', hkept', hclean⟩ :=
      Kept.foldlM_clean (fun ctx d hd => defineMethod_kept List.mem_cons_self ctx hd) hmethods m hm
    have hlabels := (hkept.trans hkept').labels
    have hclean := defineMethod_clean hclean
    exact ⟨fun p hp => (Context.contains_congr hlabels).mp (hclean.params p hp),
      (Context.contains_congr hlabels).mp hclean.ret⟩
  refine ⟨fun a ha => ?_, fun m hm => (hmethod m hm).1, fun m hm => (hmethod m hm).2, ?_⟩
  · obtain ⟨ctx', hkept', hclean⟩ :=
      Kept.foldlM_clean (fun ctx a _ => defineAttribute_kept [c] c.name ctx a) hattributes a ha
    exact (Context.contains_congr hkept'.labels).mp (contains_of_defineAttribute hclean)
  · exact (methodNames_nodup ((Context.contains_congr hkept.labels).mpr hc) hmethods).1

/-- Where building a class table reports nothing, the features of all classes are in order. -/
theorem build_clean {p : Program} (h : (build p).reports = []) :
    ∀ c ∈ (build p).value.classes, ClassClean (build p).value.context c := by
  unfold build at h
  simp only [reports_bind, List.append_eq_nil_iff] at h
  intro c hc
  obtain ⟨ctx, hkept, hclean⟩ :=
    Kept.foldlM_clean (fun ctx _ hc => defineFeatures_kept hc ctx) h.2.2.1 c hc
  -- Labels stay from round to round, so a type that exists in this one exists in the last.
  have hlabels : ctx.labels = (build p).value.context.labels :=
    hkept.labels.trans ((featured_kept _).trans (build_kept p)).labels.symm
  have hname : ctx.contains c.name = true := by
    rw [Context.contains_congr hlabels, Context.contains_iff]
    exact (Context.concreteTypes_sublist _).subset ((build_wellFormed p).class_concrete hc)
  exact (defineFeatures_clean hname hclean).congr hlabels

theorem reports_of_typecheck {p : Program} (h : (typecheck p).diagnostics = []) :
    (build p).reports = [] ∧ (build p).value.check.reports = [] := by
  have hall := diagnostics_eq_nil.mp h
  unfold typecheck at hall
  simpa only [reports_bind, reports_pure, List.append_nil, List.append_eq_nil_iff] using hall

end ClassTable

end CoolTyping
