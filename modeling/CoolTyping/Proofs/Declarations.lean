import CoolTyping.Proofs.Inheritance

/-!
# Class tables as declared

Where building a class table reports nothing, the table holds the basic types and every class just as it
is declared: with its parent, its attributes and its methods. Each round of the building replaces what is
held about one class after the other, so it is enough to know what a round does to a single one.
-/

namespace CoolTyping

/-- The method as its callers see it. -/
def MethodDecl.signature (d : MethodDecl) : Signature :=
  ⟨d.name, d.params.map fun p => (p.name, p.ty), d.ret⟩

def AttrDecl.attribute (a : AttrDecl) : Attribute := ⟨a.name, a.ty⟩

namespace ClassDecl

def parentName (c : ClassDecl) : TypeName := c.parent.getD TypeName.object

/-- The class as a child of `parent`, before it has any features. -/
def outline (c : ClassDecl) (parent : TypeName) : TypeInfo := ⟨c.name, .declared, some parent, [], []⟩

/-- The class as it is declared. -/
def info (c : ClassDecl) : TypeInfo where
  name := c.name
  kind := .declared
  parent := some c.parentName
  attributes := c.attributes.map AttrDecl.attribute
  methods := c.methods.map MethodDecl.signature

end ClassDecl

/-- The basic types and the classes as they are declared. -/
def Context.ofClasses (cs : List ClassDecl) : Context := ⟨basic.types ++ cs.map ClassDecl.info⟩

/-! ## One type among others -/

namespace Context

/-- None of the types is called `t`. -/
def Apart (t : TypeName) (is : List TypeInfo) : Prop := ∀ i ∈ is, i.name ≠ t

variable {xs ys : List TypeInfo} {i : TypeInfo} {f : TypeInfo → TypeInfo}

theorem info?_split (hx : Apart i.name xs) : (⟨xs ++ i :: ys⟩ : Context).info? i.name = some i := by
  unfold info?
  rw [List.find?_append, List.find?_eq_none.mpr fun j hj => by simpa using hx j hj]
  simp

theorem map_apart {t : TypeName} (hx : Apart t xs) :
    xs.map (fun i => if i.name == t then f i else i) = xs := by
  conv_rhs => rw [← List.map_id xs]
  refine List.map_congr_left fun j hj => ?_
  rw [if_neg (by simpa using hx j hj), id]

theorem modify_split (hx : Apart i.name xs) (hy : Apart i.name ys) :
    (⟨xs ++ i :: ys⟩ : Context).modify i.name f = ⟨xs ++ f i :: ys⟩ := by
  unfold modify
  simp only [List.map_append, List.map_cons, map_apart hx, map_apart hy, beq_self_eq_true, ↓reduceIte]

theorem ownAttribute?_split (hx : Apart i.name xs) (name : String) :
    (⟨xs ++ i :: ys⟩ : Context).ownAttribute? i.name name = i.attributes.find? (·.name == name) := by
  rw [ownAttribute?, ownAttributes, info?_split hx]
  rfl

theorem ownMethod?_split (hx : Apart i.name xs) (name : String) :
    (⟨xs ++ i :: ys⟩ : Context).ownMethod? i.name name = i.methods.find? (·.name == name) := by
  rw [ownMethod?, ownMethods, info?_split hx]
  rfl

end Context

namespace ClassTable

open Reporting

variable {c : ClassDecl} {cs : List ClassDecl} {ctx : Context} {owner : TypeName}

/-! ## Rounds -/

/-- In a context without repeated names, the types around a class have other names. -/
theorem apart_of_nodup {base : List TypeInfo} {before : ClassDecl → TypeInfo}
    (hname : ∀ c, (before c).name = c.name)
    (hd : (base.map (·.name) ++ (c :: cs).map (·.name)).Nodup) :
    Context.Apart c.name base ∧ Context.Apart c.name (cs.map before) := by
  obtain ⟨_, hcs, hdisjoint⟩ := List.nodup_append.mp hd
  refine ⟨fun i hi => hdisjoint i.name (List.mem_map_of_mem hi) c.name List.mem_cons_self, ?_⟩
  intro i hi heq
  obtain ⟨d, hd, rfl⟩ := List.mem_map.mp hi
  exact (List.nodup_cons.mp hcs).1 (List.mem_map.mpr ⟨d, hd, (hname d).symm.trans heq⟩)

section Rounds

variable {step : Context → ClassDecl → Reporting Context} {before after : ClassDecl → TypeInfo}
  {labels : List (TypeName × TypeKind)} {base : List TypeInfo}

/-- A round goes from class to class. Where it reports nothing and each step replaces `before c` by
`after c`, it replaces all of them. -/
theorem foldlM_each {K : ClassDecl → Prop} (hbefore : ∀ c, ((before c).name, (before c).kind) = label c)
    (hafter : ∀ c, ((after c).name, (after c).kind) = label c)
    (hstep : ∀ xs ys c, Context.Apart c.name xs → Context.Apart c.name ys →
      (⟨xs ++ before c :: ys⟩ : Context).labels = labels →
      (step ⟨xs ++ before c :: ys⟩ c).reports = [] →
        K c ∧ (step ⟨xs ++ before c :: ys⟩ c).value = ⟨xs ++ after c :: ys⟩)
    (hd : (base.map (·.name) ++ cs.map (·.name)).Nodup)
    (hl : (⟨base ++ cs.map before⟩ : Context).labels = labels)
    (h : (cs.foldlM step ⟨base ++ cs.map before⟩).reports = []) :
    (∀ c ∈ cs, K c) ∧ (cs.foldlM step ⟨base ++ cs.map before⟩).value = ⟨base ++ cs.map after⟩ := by
  induction cs generalizing base with
  | nil => exact ⟨by simp, rfl⟩
  | cons c cs ih =>
      have hname : ∀ c, (after c).name = c.name := fun c => congrArg Prod.fst (hafter c)
      obtain ⟨hxs, hys⟩ := apart_of_nodup (fun c => congrArg Prod.fst (hbefore c)) hd
      rw [List.map_cons, List.foldlM_cons, reports_bind, List.append_eq_nil_iff] at h
      obtain ⟨hc, hvalue⟩ := hstep base (cs.map before) c hxs hys hl h.1
      have hrest := h.2
      rw [hvalue, List.append_cons] at hrest
      have hall := ih (by simpa [hname] using hd) (by simpa [Context.labels, hbefore, hafter] using hl) hrest
      refine ⟨List.forall_mem_cons.mpr ⟨hc, hall.1⟩, ?_⟩
      rw [List.map_cons, List.foldlM_cons, value_bind, hvalue, List.append_cons, hall.2, List.map_cons,
        ← List.append_cons]

theorem foldlM_each_eq (hbefore : ∀ c, ((before c).name, (before c).kind) = label c)
    (hafter : ∀ c, ((after c).name, (after c).kind) = label c)
    (hstep : ∀ xs ys, ∀ c ∈ cs, Context.Apart c.name xs → Context.Apart c.name ys →
      (⟨xs ++ before c :: ys⟩ : Context).labels = labels →
        step ⟨xs ++ before c :: ys⟩ c = pure ⟨xs ++ after c :: ys⟩)
    (hd : (base.map (·.name) ++ cs.map (·.name)).Nodup)
    (hl : (⟨base ++ cs.map before⟩ : Context).labels = labels) :
    cs.foldlM step ⟨base ++ cs.map before⟩ = pure ⟨base ++ cs.map after⟩ := by
  induction cs generalizing base with
  | nil => rfl
  | cons c cs ih =>
      have hname : ∀ c, (after c).name = c.name := fun c => congrArg Prod.fst (hafter c)
      obtain ⟨hxs, hys⟩ := apart_of_nodup (fun c => congrArg Prod.fst (hbefore c)) hd
      rw [List.map_cons, List.foldlM_cons, hstep base _ c List.mem_cons_self hxs hys hl, pure_bind,
        List.append_cons, List.map_cons, List.append_cons base (after c) (cs.map after)]
      exact ih (fun xs ys c hc => hstep xs ys c (List.mem_cons_of_mem _ hc)) (by simpa [hname] using hd)
        (by simpa [Context.labels, hbefore, hafter] using hl)

end Rounds

/-! ## Registration -/

/-- Registration reports nothing exactly if all names are new and different. -/
theorem register_clean : (register ctx cs).reports = [] ↔
    (∀ c ∈ cs, ctx.contains c.name = false) ∧ (cs.map (·.name)).Nodup := by
  induction cs generalizing ctx with
  | nil => simp [register]
  | cons c cs ih =>
      unfold register Context.create
      by_cases hc : ctx.contains c.name = true
      · simp [hc]
      · rw [if_neg hc]
        have hcontains : ∀ name, (⟨ctx.types ++ [c.outline TypeName.object]⟩ : Context).contains name = false ↔
            ctx.contains name = false ∧ name ≠ c.name := by
          intro name
          simp [Context.contains, ClassDecl.outline, @ne_comm _ name]
        have hrest := @ih ⟨ctx.types ++ [c.outline TypeName.object]⟩
        simp only [hcontains] at hrest
        simp only [reports_bind, reports_pure, List.append_nil]
        refine hrest.trans ?_
        simp only [forall_and, List.forall_mem_cons, List.map_cons, List.nodup_cons, List.mem_map,
          not_exists, not_and]
        have hc : ctx.contains c.name = false := by simpa using hc
        constructor
        · rintro ⟨⟨hnew, hne⟩, hd⟩
          exact ⟨⟨hc, hnew⟩, hne, hd⟩
        · rintro ⟨⟨_, hnew⟩, hne, hd⟩
          exact ⟨⟨hnew, hne⟩, hd⟩

theorem register_eq (h : (register ctx cs).reports = []) : (register ctx cs).value =
    ⟨⟨ctx.types ++ cs.map (·.outline TypeName.object)⟩, cs.map some⟩ := by
  induction cs generalizing ctx with
  | nil => simp [register]
  | cons c cs ih =>
      unfold register at h ⊢
      cases hc : ctx.create c.name with
      | error e => simp [hc] at h
      | ok ctx' =>
          rw [hc] at h
          simp only [reports_bind, reports_pure, List.append_nil] at h
          simp only [value_bind, value_pure, ih h, List.map_cons]
          unfold Context.create at hc
          split at hc
          · cases hc
          · cases hc
            simp [ClassDecl.outline]

/-! ## Parents -/

/-- The declared parent exists and may have children. -/
def ParentOk (labels : List (TypeName × TypeKind)) (c : ClassDecl) : Prop :=
  ∃ kind, (c.parentName, kind) ∈ labels ∧ kind.inheritable = true

theorem linkParent_eq {xs ys : List TypeInfo} (hx : Context.Apart c.name xs)
    (hy : Context.Apart c.name ys)
    (hobject : (TypeName.object, TypeKind.builtin) ∈
      (⟨xs ++ c.outline TypeName.object :: ys⟩ : Context).labels)
    (h : (linkParent ⟨xs ++ c.outline TypeName.object :: ys⟩ c).reports = []) :
    ParentOk (⟨xs ++ c.outline TypeName.object :: ys⟩ : Context).labels c ∧
      (linkParent ⟨xs ++ c.outline TypeName.object :: ys⟩ c).value =
        ⟨xs ++ c.outline c.parentName :: ys⟩ := by
  unfold linkParent at h ⊢
  unfold ParentOk ClassDecl.parentName
  cases hparent : c.parent with
  | none => exact ⟨⟨.builtin, hobject, rfl⟩, rfl⟩
  | some parent =>
      rw [hparent] at h
      simp only [Context.resolve] at h ⊢
      by_cases hp : (⟨xs ++ c.outline TypeName.object :: ys⟩ : Context).contains parent = true
      · rw [if_pos hp] at h ⊢
        simp only [link] at h ⊢
        cases hset : Context.setParent ⟨xs ++ c.outline TypeName.object :: ys⟩ c.name parent with
        | error e =>
            rw [hset] at h
            cases h
        | ok ctx' =>
            obtain ⟨rfl, _, hkind⟩ := setParent_eq_ok hset
            obtain ⟨i, hi⟩ := Option.isSome_iff_exists.mp (Context.isSome_info? hp)
            rw [hi] at hkind
            have hname : i.name = parent := by simpa using List.find?_some hi
            refine ⟨⟨i.kind, ?_, hkind⟩, ?_⟩
            · rw [Option.getD_some, ← hname]
              exact List.mem_map_of_mem (f := fun i : TypeInfo => (i.name, i.kind))
                (List.mem_of_find?_eq_some hi)
            · exact Context.modify_split (i := c.outline TypeName.object) hx hy
      · simp [hp] at h

/-! ## Features -/

theorem declaredType_eq {name : TypeName} (h : ctx.contains name = true) (span : Span) :
    declaredType ctx name span = pure name := by
  simp [declaredType, Context.resolve, h]

theorem defineAttribute_eq {a : AttrDecl} (ht : ctx.contains a.ty = true)
    (hfresh : ctx.ownAttribute? owner a.name = none) :
    defineAttribute owner ctx a = pure (ctx.addAttribute owner a.attribute) := by
  simp [defineAttribute, declaredType_eq ht, hfresh, AttrDecl.attribute]

theorem fresh_of_defineAttribute {a : AttrDecl} (h : (defineAttribute owner ctx a).reports = []) :
    ctx.ownAttribute? owner a.name = none := by
  unfold defineAttribute at h
  rw [reports_bind, List.append_eq_nil_iff] at h
  by_contra hsome
  rw [← ne_eq, Option.ne_none_iff_isSome] at hsome
  rw [if_pos hsome] at h
  cases h.2

theorem declaredParams_eq {params : List Param} (h : ∀ p ∈ params, ctx.contains p.ty = true) :
    (params.mapM fun p => do return (p.name, ← declaredType ctx p.ty p.span) : Reporting _) =
      pure (params.map fun p => (p.name, p.ty)) := by
  induction params with
  | nil => rfl
  | cons p ps ih =>
      obtain ⟨hp, hps⟩ := List.forall_mem_cons.mp h
      rw [List.mapM_cons, declaredType_eq hp, pure_bind, pure_bind, ih hps, pure_bind, List.map_cons]

theorem defineMethod_eq {d : MethodDecl} (h : MethodClean ctx owner d) :
    defineMethod owner ctx d = pure (ctx.addMethod owner d.signature) := by
  unfold defineMethod
  rw [declaredParams_eq h.params, pure_bind, declaredType_eq h.ret, pure_bind, h.fresh]
  rfl

section Features

variable {xs ys : List TypeInfo} {i : TypeInfo}

/-- What exists, exists when features are added to one of the types. -/
theorem contains_split {j : TypeInfo} {t : TypeName} (h : (⟨xs ++ i :: ys⟩ : Context).contains t = true)
    (hij : j.name = i.name) : (⟨xs ++ j :: ys⟩ : Context).contains t = true := by
  simpa [Context.contains, hij] using h

theorem defineAttributes_clean {as : List AttrDecl} (hx : Context.Apart i.name xs)
    (hy : Context.Apart i.name ys) (hd : (i.attributes.map (·.name)).Nodup)
    (h : (as.foldlM (defineAttribute i.name) ⟨xs ++ i :: ys⟩).reports = []) :
    (i.attributes.map (·.name) ++ as.map (·.name)).Nodup := by
  induction as generalizing i with
  | nil => simpa using hd
  | cons a as ih =>
      rw [List.foldlM_cons, reports_bind, List.append_eq_nil_iff] at h
      have hfresh := fresh_of_defineAttribute h.1
      rw [defineAttribute_eq (contains_of_defineAttribute h.1) hfresh, value_pure, Context.addAttribute,
        Context.modify_split hx hy] at h
      rw [Context.ownAttribute?_split hx, List.find?_eq_none] at hfresh
      have hnew : (i.attributes.map (·.name) ++ [a.name]).Nodup := by
        refine hd.append (List.nodup_singleton _) (List.disjoint_singleton.mpr ?_)
        simpa using hfresh
      have hrest := ih (i := { i with attributes := i.attributes ++ [a.attribute] }) hx hy
        (by simpa [AttrDecl.attribute] using hnew) h.2
      simpa [AttrDecl.attribute] using hrest

theorem defineAttributes_eq {as : List AttrDecl} (hx : Context.Apart i.name xs)
    (hy : Context.Apart i.name ys)
    (ht : ∀ a ∈ as, (⟨xs ++ i :: ys⟩ : Context).contains a.ty = true)
    (hd : (i.attributes.map (·.name) ++ as.map (·.name)).Nodup) :
    as.foldlM (defineAttribute i.name) ⟨xs ++ i :: ys⟩ =
      pure ⟨xs ++ { i with attributes := i.attributes ++ as.map AttrDecl.attribute } :: ys⟩ := by
  induction as generalizing i with
  | nil => simp
  | cons a as ih =>
      have hfresh : (⟨xs ++ i :: ys⟩ : Context).ownAttribute? i.name a.name = none := by
        rw [Context.ownAttribute?_split hx, List.find?_eq_none]
        intro b hb heq
        exact (List.nodup_append.mp hd).2.2 _ (List.mem_map_of_mem hb) a.name List.mem_cons_self
          (by simpa using heq)
      rw [List.foldlM_cons, defineAttribute_eq (ht a List.mem_cons_self) hfresh, pure_bind,
        Context.addAttribute, Context.modify_split hx hy]
      have hrest := ih (i := { i with attributes := i.attributes ++ [a.attribute] }) hx hy
        (fun b hb => contains_split (ht b (List.mem_cons_of_mem _ hb)) rfl)
        (by simpa [AttrDecl.attribute] using hd)
      simpa using hrest

theorem defineMethods_eq {ds : List MethodDecl} (hx : Context.Apart i.name xs)
    (hy : Context.Apart i.name ys)
    (hp : ∀ d ∈ ds, ∀ p ∈ d.params, (⟨xs ++ i :: ys⟩ : Context).contains p.ty = true)
    (hr : ∀ d ∈ ds, (⟨xs ++ i :: ys⟩ : Context).contains d.ret = true)
    (hd : (i.methods.map (·.name) ++ ds.map (·.name)).Nodup) :
    ds.foldlM (defineMethod i.name) ⟨xs ++ i :: ys⟩ =
      pure ⟨xs ++ { i with methods := i.methods ++ ds.map MethodDecl.signature } :: ys⟩ := by
  induction ds generalizing i with
  | nil => simp
  | cons d ds ih =>
      have hfresh : (⟨xs ++ i :: ys⟩ : Context).ownMethod? i.name d.name = none := by
        rw [Context.ownMethod?_split hx, List.find?_eq_none]
        intro m hm heq
        exact (List.nodup_append.mp hd).2.2 _ (List.mem_map_of_mem hm) d.name List.mem_cons_self
          (by simpa using heq)
      rw [List.foldlM_cons, defineMethod_eq ⟨hp d List.mem_cons_self, hr d List.mem_cons_self, hfresh⟩,
        pure_bind, Context.addMethod, Context.modify_split hx hy]
      have hrest := ih (i := { i with methods := i.methods ++ [d.signature] }) hx hy
        (fun e he p hp' => contains_split (hp e (List.mem_cons_of_mem _ he) p hp') rfl)
        (fun e he => contains_split (hr e (List.mem_cons_of_mem _ he)) rfl)
        (by simpa [MethodDecl.signature] using hd)
      simpa using hrest

end Features

/-- A class whose features can all be added. -/
structure FeaturesOk (ctx : Context) (c : ClassDecl) : Prop extends ClassClean ctx c where
  attributeNames : (c.attributes.map (·.name)).Nodup

theorem FeaturesOk.congr {ctx' : Context} (h : FeaturesOk ctx c) (hl : ctx.labels = ctx'.labels) :
    FeaturesOk ctx' c := ⟨h.toClassClean.congr hl, h.attributeNames⟩

section Class

variable {xs ys : List TypeInfo} (hx : Context.Apart c.name xs) (hy : Context.Apart c.name ys)
include hx hy

theorem defineFeatures_ok
    (h : (defineFeatures ⟨xs ++ c.outline c.parentName :: ys⟩ c).reports = []) :
    FeaturesOk ⟨xs ++ c.outline c.parentName :: ys⟩ c := by
  refine ⟨defineFeatures_clean ?_ h, ?_⟩
  · simp [Context.contains, ClassDecl.outline]
  · unfold defineFeatures at h
    rw [reports_bind, List.append_eq_nil_iff] at h
    exact defineAttributes_clean (i := c.outline c.parentName) hx hy List.nodup_nil h.1

theorem defineFeatures_eq (h : FeaturesOk ⟨xs ++ c.outline c.parentName :: ys⟩ c) :
    defineFeatures ⟨xs ++ c.outline c.parentName :: ys⟩ c = pure ⟨xs ++ c.info :: ys⟩ := by
  have hattributes := defineAttributes_eq (i := c.outline c.parentName) hx hy h.attributes
    (by simpa [ClassDecl.outline] using h.attributeNames)
  have hmethods := defineMethods_eq
    (i := { c.outline c.parentName with attributes := c.attributes.map AttrDecl.attribute }) hx hy
    (fun d hd p hp => contains_split (h.params d hd p hp) rfl)
    (fun d hd => contains_split (h.results d hd) rfl)
    (by simpa [ClassDecl.outline] using h.methodNames)
  unfold defineFeatures
  refine (congrArg (· >>= _) hattributes).trans ?_
  rw [pure_bind]
  exact hmethods

end Class

/-! ## Inherited features -/

/-- The reports about methods of `c` that differ from the inherited ones. -/
def mismatchReports (ctx : Context) (c : ClassDecl) : List Report :=
  (ctx.parent? c.name).elim [] fun parent => (mismatched ctx c.name parent).map fun (name, owner) =>
    ⟨.methodSignatureMismatch name owner, methodSpan c name⟩

/-- No attribute of `c` is inherited too. -/
def Unshadowed (ctx : Context) (c : ClassDecl) : Prop :=
  ∀ parent, ctx.parent? c.name = some parent → shadowing ctx c.name parent = []

theorem dropAttributes_nil (ctx : Context) (t : TypeName) : ctx.dropAttributes t [] = ctx := by
  simp [Context.dropAttributes, Context.modify]

theorem checkInherited_eq (h : Unshadowed ctx c) :
    checkInherited ctx c = ⟨ctx, mismatchReports ctx c⟩ := by
  unfold checkInherited mismatchReports
  cases hp : ctx.parent? c.name with
  | none => rfl
  | some parent =>
      dsimp only [Option.elim]
      rw [h parent hp, List.map_nil, List.map_nil, dropAttributes_nil]
      exact congrArg (Reporting.mk ctx) (List.append_nil _)

theorem unshadowed_of_checkInherited (h : (checkInherited ctx c).reports = []) : Unshadowed ctx c := by
  intro parent hp
  unfold checkInherited at h
  rw [hp] at h
  simp only [reports_bind, reports_tell, List.append_eq_nil_iff, List.map_eq_nil_iff] at h
  exact h.1

theorem foldlM_checkInherited (h : ∀ c ∈ cs, Unshadowed ctx c) :
    cs.foldlM checkInherited ctx = ⟨ctx, cs.flatMap (mismatchReports ctx)⟩ := by
  induction cs with
  | nil => rfl
  | cons c cs ih =>
      obtain ⟨hc, hcs⟩ := List.forall_mem_cons.mp h
      rw [List.foldlM_cons, checkInherited_eq hc]
      exact congrArg (fun x => (⟨ctx, mismatchReports ctx c⟩ : Reporting Context) >>= fun _ => x) (ih hcs)

theorem unshadowed_of_foldlM (h : (cs.foldlM checkInherited ctx).reports = []) :
    ∀ c ∈ cs, Unshadowed ctx c := by
  induction cs with
  | nil => simp
  | cons c cs ih =>
      rw [List.foldlM_cons, reports_bind, List.append_eq_nil_iff] at h
      have hc := unshadowed_of_checkInherited h.1
      rw [checkInherited_eq hc] at h
      exact List.forall_mem_cons.mpr ⟨hc, ih h.2⟩

/-! ## The whole table -/

/-- The classes before they were linked and given features. -/
def outlines (parent : ClassDecl → TypeName) (cs : List ClassDecl) : Context :=
  ⟨Context.basic.types ++ cs.map fun c => c.outline (parent c)⟩

theorem mem_names_ofClasses {t : TypeName} :
    t ∈ (Context.ofClasses cs).names ↔ t ∈ Context.basic.names ∨ t ∈ cs.map (·.name) := by
  simp [Context.names, Context.ofClasses, ClassDecl.info]

theorem labels_outlines (parent : ClassDecl → TypeName) (cs : List ClassDecl) :
    (outlines parent cs).labels = (Context.ofClasses cs).labels := by
  simp [Context.labels, outlines, Context.ofClasses, ClassDecl.outline, ClassDecl.info]

/-- The names of the classes are new and different. -/
structure NamesOk (cs : List ClassDecl) : Prop where
  fresh : ∀ c ∈ cs, Context.basic.contains c.name = false
  distinct : (cs.map (·.name)).Nodup

theorem NamesOk.not_basic (h : NamesOk cs) (hc : c ∈ cs) : c.name ∉ Context.basic.names := by
  intro hb
  exact Bool.false_ne_true ((h.fresh c hc).symm.trans (Context.contains_iff.mpr hb))

theorem NamesOk.nodup (h : NamesOk cs) :
    (Context.basic.types.map (·.name) ++ cs.map (·.name)).Nodup := by
  refine Context.basic_names_nodup.append h.distinct fun x hx hc => ?_
  obtain ⟨c, hmem, rfl⟩ := List.mem_map.mp hc
  exact h.not_basic hmem hx

theorem link_round (hn : NamesOk cs)
    (h : (cs.foldlM linkParent (outlines (fun _ => TypeName.object) cs)).reports = []) :
    (∀ c ∈ cs, ParentOk (Context.ofClasses cs).labels c) ∧
      (cs.foldlM linkParent (outlines (fun _ => TypeName.object) cs)).value =
        outlines ClassDecl.parentName cs := by
  refine foldlM_each (fun _ => rfl) (fun _ => rfl) (fun xs ys c hx hy hl hc => ?_) hn.nodup
    (labels_outlines _ cs) h
  rw [← hl]
  refine linkParent_eq hx hy ?_ hc
  rw [hl, Context.labels, Context.ofClasses, List.map_append]
  exact List.mem_append_left _ (by decide)

theorem feature_round (hn : NamesOk cs)
    (h : (cs.foldlM defineFeatures (outlines ClassDecl.parentName cs)).reports = []) :
    (∀ c ∈ cs, FeaturesOk (Context.ofClasses cs) c) ∧
      (cs.foldlM defineFeatures (outlines ClassDecl.parentName cs)).value = Context.ofClasses cs := by
  refine foldlM_each (fun _ => rfl) (fun _ => rfl) (fun xs ys c hx hy hl hc => ?_) hn.nodup
    (labels_outlines _ cs) h
  have hok := defineFeatures_ok hx hy hc
  refine ⟨hok.congr hl, ?_⟩
  rw [defineFeatures_eq hx hy hok]
  rfl

theorem feature_round_eq (hn : NamesOk cs) (h : ∀ c ∈ cs, FeaturesOk (Context.ofClasses cs) c) :
    cs.foldlM defineFeatures (outlines ClassDecl.parentName cs) = pure (Context.ofClasses cs) := by
  refine foldlM_each_eq (fun _ => rfl) (fun _ => rfl) (fun xs ys c hc hx hy hl => ?_) hn.nodup
    (labels_outlines _ cs)
  exact defineFeatures_eq hx hy ((h c hc).congr hl.symm)

/-- Classes that fit together, up to methods that differ from inherited ones. -/
structure Fitting (cs : List ClassDecl) : Prop where
  names : NamesOk cs
  links : (cs.foldlM linkParent (outlines (fun _ => TypeName.object) cs)).reports = []
  features : ∀ c ∈ cs, FeaturesOk (Context.ofClasses cs) c
  unshadowed : ∀ c ∈ cs, Unshadowed (Context.ofClasses cs) c

theorem Fitting.parents (h : Fitting cs) : ∀ c ∈ cs, ParentOk (Context.ofClasses cs).labels c :=
  (link_round h.names h.links).1

theorem classes_all (ctx : Context) (cs : List ClassDecl) : classes ⟨ctx, cs.map some⟩ = cs := by
  simp [classes]

/-- The rounds after registration, on classes whose names are in order. -/
theorem build_of_names {p : Program} (h : NamesOk p.classes) : build p = do
    let ctx ← p.classes.foldlM linkParent (outlines (fun _ => TypeName.object) p.classes)
    let ctx ← p.classes.foldlM defineFeatures ctx
    let ctx ← p.classes.foldlM checkInherited ctx
    return ⟨ctx, p.classes.map some⟩ := by
  have hclean := register_clean.mpr ⟨h.fresh, h.distinct⟩
  unfold build
  rw [eq_pure hclean, pure_bind, register_eq hclean]
  simp only [classes_all]
  rfl

theorem Fitting.build_eq {p : Program} (h : Fitting p.classes) :
    build p = ⟨⟨Context.ofClasses p.classes, p.classes.map some⟩,
      p.classes.flatMap (mismatchReports (Context.ofClasses p.classes))⟩ := by
  rw [build_of_names h.names, eq_pure h.links, (link_round h.names h.links).2, pure_bind,
    feature_round_eq h.names h.features, pure_bind, foldlM_checkInherited h.unshadowed]
  exact congrArg (Reporting.mk _) (List.append_nil _)

/-- Where building a class table reports nothing, the classes fit together. -/
theorem build_fitting {p : Program} (h : (build p).reports = []) :
    Fitting p.classes ∧ ∀ c ∈ p.classes, mismatchReports (Context.ofClasses p.classes) c = [] := by
  have hregister : (register Context.basic p.classes).reports = [] := by
    unfold build at h
    rw [reports_bind, List.append_eq_nil_iff] at h
    exact h.1
  obtain ⟨hfresh, hdistinct⟩ := register_clean.mp hregister
  have hn : NamesOk p.classes := ⟨hfresh, hdistinct⟩
  have hrounds := h
  rw [build_of_names hn, reports_bind, List.append_eq_nil_iff] at hrounds
  obtain ⟨hlinks, hrounds⟩ := hrounds
  rw [(link_round hn hlinks).2, reports_bind, List.append_eq_nil_iff] at hrounds
  obtain ⟨hfeatures, hrounds⟩ := hrounds
  rw [(feature_round hn hfeatures).2, reports_bind, List.append_eq_nil_iff] at hrounds
  have hfit : Fitting p.classes :=
    ⟨hn, hlinks, (feature_round hn hfeatures).1, unshadowed_of_foldlM hrounds.1⟩
  refine ⟨hfit, ?_⟩
  rw [hfit.build_eq] at h
  exact List.flatMap_eq_nil_iff.mp h

end ClassTable

end CoolTyping
