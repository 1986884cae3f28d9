import CoolTyping.Proofs.Cycles

/-!
# The rounds of building a class table, type by type

What each round makes of a single type. Links change nothing but parents. The features that a class gets
depend only on the class and on the names of the types, so the classes can be looked at one by one. In the
last round a class loses the attributes that it also inherits. The topmost class that declares an attribute
keeps it, so whether an attribute is inherited does not change while classes lose attributes.
-/

namespace CoolTyping

namespace Context

variable {ctx ctx' : Context} {t x D : TypeName} {name : String}

/-! ## Walks along the same links -/

theorem name_of_info? {i : TypeInfo} (h : ctx.info? t = some i) : i.name = t := by
  simpa using List.find?_some h

theorem above_congr (hp : ∀ x, ctx'.parent? x = ctx.parent? x) (n : Nat) (t : TypeName) :
    ctx'.above n t = ctx.above n t := by
  induction n generalizing t with
  | zero => rfl
  | succ n ih => simp [above, hp, funext ih]

theorem findSome?_ancestors_congr {β : Type} (hp : ∀ x, ctx'.parent? x = ctx.parent? x)
    (f : TypeName → Option β) (t : TypeName) :
    (ctx'.ancestors t).findSome? f = (ctx.ancestors t).findSome? f := by
  ext y
  simp [findSome?_ancestors, above_congr hp]

theorem attribute?_congr (hp : ∀ x, ctx'.parent? x = ctx.parent? x)
    (ho : ∀ x name, ctx'.ownAttribute? x name = ctx.ownAttribute? x name) (t : TypeName)
    (name : String) : ctx'.attribute? t name = ctx.attribute? t name := by
  simp [attribute?, ho, findSome?_ancestors_congr hp]

theorem method?_congr (hp : ∀ x, ctx'.parent? x = ctx.parent? x)
    (ho : ∀ x name, ctx'.ownMethod? x name = ctx.ownMethod? x name) (t : TypeName) (name : String) :
    ctx'.method? t name = ctx.method? t name := by
  simp [method?, ho, findSome?_ancestors_congr hp]

/-! ## Attributes from above -/

theorem isSome_attribute? : (ctx.attribute? t name).isSome = true ↔
    ∃ D, ctx.Descends t D ∧ (ctx.ownAttribute? D name).isSome = true := by
  simp [attribute?, List.findSome?_isSome_iff, mem_ancestors]

/-- The nearest type above `t` that declares an attribute `name`. -/
def inheritedFrom? (ctx : Context) (t : TypeName) (name : String) : Option TypeName :=
  (ctx.parent? t).bind fun parent => (ctx.attribute? parent name).map (·.1)

/-- `D` is above `t` and declares an attribute `name`. -/
structure DeclaredAbove (ctx : Context) (t : TypeName) (name : String) (D : TypeName) : Prop where
  above : Relation.TransGen ctx.Parent t D
  declared : (ctx.ownAttribute? D name).isSome = true

theorem declaredAbove_of_inheritedFrom? (h : ctx.inheritedFrom? t name = some D) :
    ctx.DeclaredAbove t name D := by
  obtain ⟨parent, hparent, h⟩ := Option.bind_eq_some_iff.mp h
  obtain ⟨⟨owner, a⟩, hattribute, rfl⟩ := Option.map_eq_some_iff.mp h
  obtain ⟨x, hx, hown⟩ := List.exists_of_findSome?_eq_some hattribute
  obtain ⟨b, hb, heq⟩ := Option.map_eq_some_iff.mp hown
  cases heq
  exact ⟨.head' hparent (mem_ancestors.mp hx), by simp [hb]⟩

theorem isSome_inheritedFrom? :
    (ctx.inheritedFrom? t name).isSome = true ↔ ∃ D, ctx.DeclaredAbove t name D := by
  constructor
  · intro h
    obtain ⟨D, hD⟩ := Option.isSome_iff_exists.mp h
    exact ⟨D, declaredAbove_of_inheritedFrom? hD⟩
  · rintro ⟨D, habove, hdeclared⟩
    obtain ⟨parent, hparent, hD⟩ := Relation.TransGen.head'_iff.mp habove
    have hparent : ctx.parent? t = some parent := hparent
    have hattribute := isSome_attribute?.mpr ⟨D, hD, hdeclared⟩
    simpa [inheritedFrom?, hparent] using hattribute

/-- A type that has an attribute, of its own or from above, exists. -/
theorem contains_of_attribute? (h : (ctx.attribute? t name).isSome = true) : ctx.contains t = true := by
  obtain ⟨D, hD, hdeclared⟩ := isSome_attribute?.mp h
  rcases hD.cases_head with rfl | ⟨parent, hparent, _⟩
  · cases hinfo : ctx.info? t with
    | none => simp [ownAttribute?, ownAttributes, hinfo] at hdeclared
    | some i => simp [contains_iff_info?, hinfo]
  · exact contains_iff.mpr (mem_names_of_parent? hparent)

/-- The topmost type that declares an attribute does not inherit it. -/
theorem exists_topmost (hr : ctx.Rooted) (h : (ctx.attribute? t name).isSome = true) :
    ∃ D, ctx.Descends t D ∧ (ctx.ownAttribute? D name).isSome = true ∧
      ctx.inheritedFrom? D name = none := by
  -- from `Object` downwards: either the parent has the attribute as well, or `t` is the topmost type
  induction hr.descends (contains_of_attribute? h) using Relation.ReflTransGen.head_induction_on with
  | refl =>
      obtain ⟨D, hD, hdeclared⟩ := isSome_attribute?.mp h
      obtain rfl := hr.eq_object hD
      exact ⟨_, .refl, hdeclared, by simp [inheritedFrom?, hr.root]⟩
  | @head t parent hparent _ ih =>
      have hlink : ctx.parent? t = some parent := hparent
      cases hup : ctx.attribute? parent name with
      | some _ =>
          obtain ⟨D, hD, htop⟩ := ih (by simp [hup])
          exact ⟨D, .head hparent hD, htop⟩
      | none =>
          obtain ⟨D, hD, hdeclared⟩ := isSome_attribute?.mp h
          rcases hD.cases_head with rfl | ⟨parent', hparent', hD⟩
          · exact ⟨t, .refl, hdeclared, by simp [inheritedFrom?, hlink, hup]⟩
          · obtain rfl : parent = parent' := Option.some.inj (hlink.symm.trans hparent')
            have hsome := isSome_attribute?.mpr ⟨D, hD, hdeclared⟩
            simp [hup] at hsome

/-- The type without the attributes that it also inherits. -/
def pruned (ctx : Context) (i : TypeInfo) : TypeInfo :=
  { i with attributes := i.attributes.filter fun a => (ctx.inheritedFrom? i.name a.name).isNone }

end Context

namespace ClassTable

open Reporting

variable {cs done rest : List ClassDecl} {c : ClassDecl} {ctx ctx' F : Context} {t owner : TypeName}
  {name : String}

/-! ## Links -/

/-- Nothing but parents differs. -/
def SameButParents (before after : Context) : Prop :=
  ∀ t, after.info? t = (before.info? t).map fun i => { i with parent := after.parent? t }

theorem SameButParents.refl (ctx : Context) : SameButParents ctx ctx := by
  intro t
  cases h : ctx.info? t with
  | none => rfl
  | some i => simp [Context.parent?, h]

theorem SameButParents.trans {ctx'' : Context} (h : SameButParents ctx ctx') (h' : SameButParents ctx' ctx'') :
    SameButParents ctx ctx'' := by
  intro t
  rw [h' t, h t, Option.map_map]
  rfl

theorem SameButParents.withParent (ctx : Context) (t : TypeName) (parent : Option TypeName) :
    SameButParents ctx (ctx.withParent t parent) := by
  intro x
  have hinfo : (ctx.withParent t parent).info? x =
      if x = t then (ctx.info? x).map fun i => { i with parent := parent } else ctx.info? x := by
    apply Context.info?_modify_eq
    simp
  rw [Context.parent?, hinfo]
  cases h : ctx.info? x with
  | none => simp
  | some i => by_cases hx : x = t <;> simp [hx]

theorem link_sameButParents (ctx : Context) (c : ClassDecl) (parent : TypeName) :
    SameButParents ctx (link ctx c parent).value := by
  unfold link
  cases h : ctx.setParent c.name parent with
  | error e => exact .refl ctx
  | ok ctx' =>
      obtain ⟨rfl, _⟩ := setParent_eq_ok h
      exact .withParent ctx c.name (some parent)

theorem linkParent_sameButParents (ctx : Context) (c : ClassDecl) : SameButParents ctx (linkParent ctx c).value := by
  unfold linkParent
  split
  · exact .refl ctx
  · split
    · exact link_sameButParents ctx c _
    · exact link_sameButParents ctx c TypeName.error

theorem linked_sameButParents (t : ClassTable) : SameButParents t.context t.linked :=
  foldlM_value (motive := SameButParents t.context) (.refl t.context)
    fun ctx h c _ => h.trans (linkParent_sameButParents ctx c)

/-! ## Steps that concern a single type -/

/-- The contexts have the same types, and hold the same about `owner`. -/
structure AlikeAt (owner : TypeName) (ctx ctx' : Context) : Prop where
  contains : ∀ t, ctx'.contains t = ctx.contains t
  info : ctx'.info? owner = ctx.info? owner

/-- What `f` reports, and what it makes of `owner`, depends on `owner` and the names of the types alone. All
other types stay as they are. -/
structure LocalTo (owner : TypeName) (f : Context → Reporting Context) : Prop where
  contains : ∀ ctx t, (f ctx).value.contains t = ctx.contains t
  other : ∀ ctx t, t ≠ owner → (f ctx).value.info? t = ctx.info? t
  reports : ∀ {ctx ctx'}, AlikeAt owner ctx ctx' → (f ctx').reports = (f ctx).reports
  info : ∀ {ctx ctx'}, AlikeAt owner ctx ctx' → (f ctx').value.info? owner = (f ctx).value.info? owner

theorem LocalTo.alikeAt {f : Context → Reporting Context} (h : LocalTo owner f)
    (hctx : AlikeAt owner ctx ctx') : AlikeAt owner (f ctx).value (f ctx').value where
  contains t := by rw [h.contains, h.contains, hctx.contains]
  info := h.info hctx

theorem LocalTo.bind {f g : Context → Reporting Context} (hf : LocalTo owner f) (hg : LocalTo owner g) :
    LocalTo owner fun ctx => do g (← f ctx) where
  contains ctx t := by rw [value_bind, hg.contains, hf.contains]
  other ctx t ht := by rw [value_bind, hg.other _ t ht, hf.other _ t ht]
  reports h := by rw [reports_bind, reports_bind, hf.reports h, hg.reports (hf.alikeAt h)]
  info h := by rw [value_bind, value_bind, hg.info (hf.alikeAt h)]

theorem LocalTo.foldlM {α : Type} {f : Context → α → Reporting Context} {as : List α}
    (h : ∀ a ∈ as, LocalTo owner (f · a)) : LocalTo owner (as.foldlM f ·) := by
  induction as with
  | nil =>
      exact ⟨fun _ _ => rfl, fun _ _ _ => rfl, fun _ => rfl, fun h => h.info⟩
  | cons a as ih =>
      simp only [List.foldlM_cons]
      exact (h a List.mem_cons_self).bind (ih fun b hb => h b (List.mem_cons_of_mem _ hb))

/-- A change of `owner` that does not depend on other types. -/
theorem LocalTo.modify {f : Context → Reporting Context}
    {g : Context → Option (TypeInfo → TypeInfo)}
    (hvalue : ∀ ctx, (f ctx).value = (g ctx).elim ctx (ctx.modify owner))
    (hname : ∀ ctx, ∀ h ∈ g ctx, ∀ i, (h i).name = i.name)
    (hreports : ∀ {ctx ctx'}, AlikeAt owner ctx ctx' → (f ctx').reports = (f ctx).reports)
    (hg : ∀ {ctx ctx'}, AlikeAt owner ctx ctx' → g ctx' = g ctx) : LocalTo owner f where
  reports := hreports
  contains ctx t := by
    rw [hvalue, Bool.eq_iff_iff, Context.contains_iff_info?, Context.contains_iff_info?]
    cases h : g ctx with
    | none => rfl
    | some k =>
        rw [Option.elim_some, Context.info?_modify_eq (hname ctx k h)]
        by_cases ht : t = owner <;> simp [ht]
  other ctx t ht := by
    rw [hvalue]
    cases h : g ctx with
    | none => rfl
    | some k => exact Context.info?_modify_ne (hname ctx k h) ht
  info {ctx ctx'} h := by
    rw [hvalue, hvalue, hg h]
    cases hk : g ctx with
    | none => exact h.info
    | some k =>
        rw [Option.elim_some, Option.elim_some, Context.info?_modify (hname ctx k hk),
          Context.info?_modify (hname ctx k hk), h.info]

theorem declaredType_congr (h : ∀ t, ctx'.contains t = ctx.contains t) (name : TypeName) (span : Span) :
    declaredType ctx' name span = declaredType ctx name span := by
  simp [declaredType, Context.resolve, h]

theorem defineAttribute_local (owner : TypeName) (a : AttrDecl) :
    LocalTo owner (defineAttribute owner · a) := by
  have hown : ∀ {ctx ctx'}, AlikeAt owner ctx ctx' →
      ctx'.ownAttribute? owner a.name = ctx.ownAttribute? owner a.name := by
    intro ctx ctx' h
    simp [Context.ownAttribute?, Context.ownAttributes, h.info]
  apply LocalTo.modify (g := fun ctx =>
    if (ctx.ownAttribute? owner a.name).isSome then none
    else some fun i => { i with
      attributes := i.attributes ++ [⟨a.name, (declaredType ctx a.ty a.span).value⟩] })
  · intro ctx
    by_cases h : (ctx.ownAttribute? owner a.name).isSome <;> simp [defineAttribute, h, Context.addAttribute]
  · intro ctx k hk i
    by_cases h : (ctx.ownAttribute? owner a.name).isSome <;> simp [h] at hk
    simp [← hk]
  · intro ctx ctx' h
    by_cases ho : (ctx.ownAttribute? owner a.name).isSome <;>
      simp [defineAttribute, declaredType_congr h.contains, hown h, ho]
  · intro ctx ctx' h
    simp only [declaredType_congr h.contains, hown h]

theorem defineMethod_local (owner : TypeName) (m : MethodDecl) :
    LocalTo owner (defineMethod owner · m) := by
  have hown : ∀ {ctx ctx'}, AlikeAt owner ctx ctx' →
      ctx'.ownMethod? owner m.name = ctx.ownMethod? owner m.name := by
    intro ctx ctx' h
    simp [Context.ownMethod?, Context.ownMethods, h.info]
  apply LocalTo.modify (g := fun ctx =>
    if (ctx.ownMethod? owner m.name).isSome then none
    else some fun i => { i with
      methods := i.methods ++ [⟨m.name,
        m.params.map fun p => (p.name, (declaredType ctx p.ty p.span).value),
        (declaredType ctx m.ret m.span).value⟩] })
  · intro ctx
    by_cases h : (ctx.ownMethod? owner m.name).isSome <;> simp [defineMethod, h, Context.addMethod]
  · intro ctx k hk i
    by_cases h : (ctx.ownMethod? owner m.name).isSome <;> simp [h] at hk
    simp [← hk]
  · intro ctx ctx' h
    by_cases ho : (ctx.ownMethod? owner m.name).isSome <;>
      simp [defineMethod, declaredType_congr h.contains, hown h, ho]
  · intro ctx ctx' h
    simp only [declaredType_congr h.contains, hown h]

theorem defineFeatures_local (c : ClassDecl) : LocalTo c.name (defineFeatures · c) :=
  .bind (.foldlM fun a _ => defineAttribute_local c.name a)
    (.foldlM fun m _ => defineMethod_local c.name m)

/-- A round of steps that concern one class each can be looked at class by class: every step finds its class
as it was when the round began. -/
theorem LocalTo.round {step : Context → ClassDecl → Reporting Context}
    (h : ∀ c ∈ cs, LocalTo c.name (step · c)) (hd : (cs.map (·.name)).Nodup) (ctx : Context) :
    (cs.foldlM step ctx).reports = cs.flatMap (fun c => (step ctx c).reports) ∧
      (∀ c ∈ cs, (cs.foldlM step ctx).value.info? c.name = (step ctx c).value.info? c.name) ∧
      ∀ t ∉ cs.map (·.name), (cs.foldlM step ctx).value.info? t = ctx.info? t := by
  induction cs generalizing ctx with
  | nil => simp
  | cons c cs ih =>
      obtain ⟨hc, hd⟩ := List.nodup_cons.mp hd
      have hlocal := h c List.mem_cons_self
      obtain ⟨hreports, hclasses, hothers⟩ :=
        ih (fun d hmem => h d (List.mem_cons_of_mem _ hmem)) hd (step ctx c).value
      have halike : ∀ d ∈ cs, AlikeAt d.name ctx (step ctx c).value := by
        intro d hmem
        have hne : d.name ≠ c.name := fun heq => hc (List.mem_map.mpr ⟨d, hmem, heq⟩)
        exact ⟨hlocal.contains ctx, hlocal.other ctx d.name hne⟩
      refine ⟨?_, ?_, ?_⟩
      · have hrest : cs.flatMap (fun d => (step (step ctx c).value d).reports) =
            cs.flatMap fun d => (step ctx d).reports := by
          apply List.flatMap_congr
          intro d hmem
          exact (h d (List.mem_cons_of_mem _ hmem)).reports (halike d hmem)
        simp [hreports, hrest]
      · intro d hmem
        rcases List.mem_cons.mp hmem with rfl | hmem
        · simpa using hothers d.name hc
        · have hinfo := (h d (List.mem_cons_of_mem _ hmem)).info (halike d hmem)
          simpa [hinfo] using hclasses d hmem
      · intro t ht
        simp only [List.map_cons, List.mem_cons, not_or] at ht
        simpa [hlocal.other ctx t ht.1] using hothers t ht.2

/-! ## Declared attributes -/

theorem ownAttribute?_addAttribute (a : Attribute) (name : String) (h : ctx.contains owner = true) :
    (ctx.addAttribute owner a).ownAttribute? owner name =
      (ctx.ownAttribute? owner name).or (if a.name = name then some a else none) := by
  obtain ⟨i, hi⟩ := Option.isSome_iff_exists.mp (Context.isSome_info? h)
  have hinfo : (ctx.addAttribute owner a).info? owner =
      (ctx.info? owner).map fun i => { i with attributes := i.attributes ++ [a] } := by
    apply Context.info?_modify
    simp
  simp [Context.ownAttribute?, Context.ownAttributes, hinfo, hi, List.find?_append]

/-- The attribute that a declaration stands for. Its type is `<error>` if it names none. -/
def declaredAttribute (ctx : Context) (a : AttrDecl) : Attribute := ⟨a.name, (declaredType ctx a.ty a.span).value⟩

theorem declaredAttribute_congr (h : ∀ t, ctx'.contains t = ctx.contains t) (a : AttrDecl) :
    declaredAttribute ctx' a = declaredAttribute ctx a := by
  simp [declaredAttribute, declaredType_congr h]

theorem ownAttribute?_defineAttribute (a : AttrDecl) (ho : ctx.contains owner = true) :
    (defineAttribute owner ctx a).value.ownAttribute? owner name =
      (ctx.ownAttribute? owner name).or (if a.name = name then some (declaredAttribute ctx a) else none) := by
  by_cases h : (ctx.ownAttribute? owner a.name).isSome
  · have hvalue : (defineAttribute owner ctx a).value = ctx := by simp [defineAttribute, h]
    rw [hvalue]
    split
    · rename_i heq
      obtain ⟨b, hb⟩ := Option.isSome_iff_exists.mp (heq ▸ h)
      simp [hb]
    · simp
  · simp [defineAttribute, h, ownAttribute?_addAttribute _ name ho, declaredAttribute]

/-- Of several declarations of an attribute the first one counts. -/
theorem ownAttribute?_foldlM {as : List AttrDecl} (ho : ctx.contains owner = true) :
    (as.foldlM (defineAttribute owner) ctx).value.ownAttribute? owner name =
      (ctx.ownAttribute? owner name).or ((as.find? (·.name == name)).map (declaredAttribute ctx)) := by
  induction as generalizing ctx with
  | nil => simp
  | cons a as ih =>
      have hlocal := (defineAttribute_local owner a).contains ctx
      rw [List.foldlM_cons, value_bind, ih ((hlocal owner).trans ho), ownAttribute?_defineAttribute a ho,
        funext (declaredAttribute_congr hlocal), Option.or_assoc]
      by_cases ha : a.name = name <;> simp [ha]

theorem ownAttributes_defineMethod (ctx : Context) (owner : TypeName) (m : MethodDecl) (t : TypeName) :
    (defineMethod owner ctx m).value.ownAttributes t = ctx.ownAttributes t := by
  obtain ⟨m', _, _, hvalue⟩ := defineMethod_value owner ctx m
  rw [hvalue]
  by_cases h : (ctx.ownMethod? owner m.name).isSome
  · simp [h]
  · have hinfo : (ctx.addMethod owner m').info? t = if t = owner then
        (ctx.info? t).map fun i => { i with methods := i.methods ++ [m'] } else ctx.info? t := by
      apply Context.info?_modify_eq
      simp
    simp only [h, Bool.false_eq_true, ↓reduceIte, Context.ownAttributes, hinfo]
    cases ctx.info? t <;> by_cases ht : t = owner <;> simp [ht]

/-- After its features were defined, a class has just the attributes that it declares. -/
theorem ownAttribute?_defineFeatures (hc : ctx.contains c.name = true)
    (hnone : ctx.ownAttributes c.name = []) :
    (defineFeatures ctx c).value.ownAttribute? c.name name =
      (c.attributes.find? (·.name == name)).map (declaredAttribute ctx) := by
  have hmethods : ∀ ctx : Context,
      (c.methods.foldlM (defineMethod c.name) ctx).value.ownAttributes c.name = ctx.ownAttributes c.name := by
    intro ctx
    refine foldlM_value (motive := fun ctx' : Context => ctx'.ownAttributes c.name =
      ctx.ownAttributes c.name) rfl ?_
    intro ctx' h m _
    rw [ownAttributes_defineMethod, h]
  rw [defineFeatures, value_bind, Context.ownAttribute?, hmethods, ← Context.ownAttribute?,
    ownAttribute?_foldlM hc]
  simp [Context.ownAttribute?, hnone]

theorem ownAttributes_linked (t : ClassTable) (x : TypeName) :
    t.linked.ownAttributes x = t.context.ownAttributes x := by
  rw [Context.ownAttributes, linked_sameButParents t x, Context.ownAttributes]
  cases t.context.info? x <;> rfl

theorem contains_linked (t : ClassTable) (x : TypeName) : t.linked.contains x = t.context.contains x := by
  rw [Bool.eq_iff_iff]
  exact Context.contains_congr (linked_kept t).labels

theorem ownAttributes_basic (x : TypeName) : Context.basic.ownAttributes x = [] := by
  have hall : ∀ i ∈ Context.basic.types, i.attributes = [] := by decide
  cases h : Context.basic.info? x with
  | none => simp [Context.ownAttributes, h]
  | some i => simp [Context.ownAttributes, h, hall i (List.mem_of_find?_eq_some h)]

/-- Registration gives no attributes. -/
theorem ownAttributes_register (cs : List ClassDecl) (x : TypeName) :
    (register Context.basic cs).value.context.ownAttributes x = [] := by
  obtain ⟨hbasic, hclasses⟩ := register_info Context.basic cs
  have hlabels := (register_registered Context.basic_names_nodup cs).labels
  cases h : (register Context.basic cs).value.context.info? x with
  | none => simp [Context.ownAttributes, h]
  | some i =>
      have hx : x ∈ (register Context.basic cs).value.context.names :=
        Context.contains_iff.mp (Context.contains_iff_info?.mpr (by simp [h]))
      rw [Context.names_eq, hlabels, List.map_append, List.mem_append, ← Context.names_eq] at hx
      rcases hx with hx | hx
      · rw [Context.ownAttributes, hbasic x (Context.contains_iff.mpr hx)]
        exact ownAttributes_basic x
      · obtain ⟨_, hlabel, rfl⟩ := List.mem_map.mp hx
        obtain ⟨c, hc, rfl⟩ := List.mem_map.mp hlabel
        simp [Context.ownAttributes, label, hclasses c hc, ClassDecl.outline]

/-- The first declaration of an attribute `name` in the class called `t`. -/
def firstAttribute? (cs : List ClassDecl) (t : TypeName) (name : String) : Option AttrDecl :=
  (cs.find? (·.name == t)).bind fun c => c.attributes.find? (·.name == name)

theorem isSome_firstAttribute? (hd : (cs.map (·.name)).Nodup) :
    (firstAttribute? cs t name).isSome = true ↔ ∃ c ∈ cs, c.name = t ∧ ∃ a ∈ c.attributes, a.name = name := by
  cases hc : cs.find? (·.name == t) with
  | none =>
      rw [List.find?_eq_none] at hc
      simp only [firstAttribute?, List.find?_eq_none.mpr hc, Option.bind_none, Option.isSome_none,
        Bool.false_eq_true, false_iff]
      rintro ⟨c, hmem, heq, _⟩
      exact hc c hmem (by simpa using heq)
  | some c =>
      have hmem := List.mem_of_find?_eq_some hc
      have hname : c.name = t := by simpa using List.find?_some hc
      simp only [firstAttribute?, hc, Option.bind_some, List.find?_isSome, beq_iff_eq]
      constructor
      · exact fun h => ⟨c, hmem, hname, h⟩
      · rintro ⟨d, hd', heq, h⟩
        obtain rfl := List.inj_on_of_nodup_map hd hd' hmem (heq.trans hname.symm)
        exact h

/-- Before the last round, the types have just the attributes that the classes declare. -/
theorem ownAttribute?_featured (cs : List ClassDecl) (D : TypeName) (name : String) :
    (register Context.basic cs).value.featured.ownAttribute? D name =
      (firstAttribute? (register Context.basic cs).value.classes D name).map
        (declaredAttribute (register Context.basic cs).value.context) := by
  have hregistered := register_registered Context.basic_names_nodup cs
  have hnone := ownAttributes_register cs
  have hnames := (register_namesOk cs).distinct
  generalize (register Context.basic cs).value = t at hregistered hnone hnames ⊢
  obtain ⟨_, hclasses, hothers⟩ :=
    LocalTo.round (fun c _ => defineFeatures_local c) hnames t.linked
  have hnone' : ∀ x, t.linked.ownAttributes x = [] := fun x => (ownAttributes_linked t x).trans (hnone x)
  cases hD : t.classes.find? (·.name == D) with
  | none =>
      have hnot : D ∉ t.classes.map (·.name) := by
        intro hmem
        obtain ⟨d, hd, heq⟩ := List.mem_map.mp hmem
        exact List.find?_eq_none.mp hD d hd (by simpa using heq)
      have hown : t.featured.ownAttributes D = [] := by
        rw [← hnone' D]
        simp only [Context.ownAttributes, featured, hothers D hnot]
      simp [Context.ownAttribute?, hown, firstAttribute?, hD]
  | some d =>
      have hd := List.mem_of_find?_eq_some hD
      obtain rfl : d.name = D := by simpa using List.find?_some hD
      have hcontains : t.linked.contains d.name = true := by
        rw [contains_linked, Context.contains_iff, Context.names_eq, hregistered.labels]
        simp only [List.map_append, List.mem_append, List.map_map]
        exact .inr (List.mem_map.mpr ⟨d, hd, rfl⟩)
      have hown : t.featured.ownAttribute? d.name name =
          (defineFeatures t.linked d).value.ownAttribute? d.name name := by
        simp only [Context.ownAttribute?, Context.ownAttributes, featured, hclasses d hd]
      rw [hown, ownAttribute?_defineFeatures hcontains (hnone' d.name),
        funext (declaredAttribute_congr (contains_linked t)), firstAttribute?, hD, Option.bind_some]

theorem isSome_ownAttribute?_featured (cs : List ClassDecl) (D : TypeName) :
    ((register Context.basic cs).value.featured.ownAttribute? D name).isSome = true ↔
      ∃ d ∈ (register Context.basic cs).value.classes, d.name = D ∧ ∃ a ∈ d.attributes, a.name = name := by
  rw [ownAttribute?_featured, Option.isSome_map, isSome_firstAttribute? (register_namesOk cs).distinct]

/-! ## The last round -/

/-- The reports about attributes of `c` that are declared above it. -/
def shadowReports (ctx : Context) (c : ClassDecl) : List Report :=
  (ctx.ownAttributes c.name).filterMap fun a => (ctx.inheritedFrom? c.name a.name).map fun owner =>
    ⟨.duplicateAttribute a.name owner, attrSpan c a.name⟩

theorem checkInherited_reports (ctx : Context) (c : ClassDecl) :
    (checkInherited ctx c).reports = shadowReports ctx c ++ mismatchReports ctx c := by
  unfold checkInherited shadowReports mismatchReports
  cases h : ctx.parent? c.name with
  | none => simp [Context.inheritedFrom?, h]
  | some parent =>
      simp [Context.inheritedFrom?, h, shadowing, List.map_filterMap, Function.comp_def]

/-- The names that are dropped are those of inherited attributes. -/
theorem mem_shadowing {a : Attribute} {parent : TypeName} (ha : a ∈ ctx.ownAttributes t)
    (hparent : ctx.parent? t = some parent) :
    a.name ∈ (shadowing ctx t parent).map (·.1) ↔ (ctx.inheritedFrom? t a.name).isSome = true := by
  simp only [shadowing, List.map_filterMap, List.mem_filterMap, Option.map_map, Option.map_eq_some_iff,
    Function.comp_apply, Context.inheritedFrom?, hparent, Option.bind_some, Option.isSome_map]
  constructor
  · rintro ⟨b, _, x, hx, hname⟩
    rw [← hname, hx]
    rfl
  · intro h
    obtain ⟨x, hx⟩ := Option.isSome_iff_exists.mp h
    exact ⟨a, ha, x, hx, rfl⟩

/-- A class loses its inherited attributes, and nothing else changes. -/
theorem checkInherited_info (ctx : Context) (c : ClassDecl) (x : TypeName) :
    (checkInherited ctx c).value.info? x =
      if x = c.name then (ctx.info? x).map ctx.pruned else ctx.info? x := by
  by_cases hx : x = c.name
  · subst hx
    rw [if_pos rfl]
    cases hi : ctx.info? c.name with
    | none =>
        have hparent : ctx.parent? c.name = none := by simp [Context.parent?, hi]
        simp [checkInherited, hparent, hi]
    | some i =>
        have hname := Context.name_of_info? hi
        have hown : ctx.ownAttributes c.name = i.attributes := by simp [Context.ownAttributes, hi]
        cases h : ctx.parent? c.name with
        | none =>
            have hnone : ∀ name, ctx.inheritedFrom? i.name name = none := by
              simp [hname, Context.inheritedFrom?, h]
            simp [checkInherited, h, hi, Context.pruned, hnone]
        | some parent =>
            simp only [checkInherited, h, value_bind, value_pure, Context.dropAttributes]
            rw [Context.info?_modify (by simp), hi, Option.map_some, Option.map_some, Context.pruned, hname]
            congr 2
            apply List.filter_congr
            intro a ha
            have hmem := mem_shadowing (hown ▸ ha) h
            cases hs : ctx.inheritedFrom? c.name a.name <;> simp [hs] at hmem ⊢ <;> exact hmem
  · rw [if_neg hx]
    unfold checkInherited
    split
    · rfl
    · exact Context.info?_modify_ne (by simp) hx

/-- The classes `done` have lost the attributes that they inherit, and all else is as in `F`. -/
def Pruning (F : Context) (done : List ClassDecl) (ctx : Context) : Prop :=
  ∀ t, ctx.info? t = if t ∈ done.map (·.name) then (F.info? t).map F.pruned else F.info? t

namespace Pruning

theorem start (F : Context) : Pruning F [] F := by
  intro t
  simp

theorem parent? (h : Pruning F done ctx) (t : TypeName) : ctx.parent? t = F.parent? t := by
  rw [Context.parent?, h t, Context.parent?]
  cases F.info? t <;> by_cases ht : t ∈ done.map (·.name) <;> simp [ht, Context.pruned]

theorem ownMethods (h : Pruning F done ctx) (t : TypeName) : ctx.ownMethods t = F.ownMethods t := by
  rw [Context.ownMethods, h t, Context.ownMethods]
  cases F.info? t <;> by_cases ht : t ∈ done.map (·.name) <;> simp [ht, Context.pruned]

theorem ownAttributes_of_not_mem (h : Pruning F done ctx) (ht : t ∉ done.map (·.name)) :
    ctx.ownAttributes t = F.ownAttributes t := by
  rw [Context.ownAttributes, h t, if_neg ht, Context.ownAttributes]

theorem ownAttribute? (h : Pruning F done ctx) (t : TypeName) (name : String) :
    ctx.ownAttribute? t name =
      if t ∈ done.map (·.name) ∧ (F.inheritedFrom? t name).isSome = true then none
      else F.ownAttribute? t name := by
  rw [Context.ownAttribute?, Context.ownAttributes, h t, Context.ownAttribute?, Context.ownAttributes]
  cases hi : F.info? t with
  | none => simp
  | some i =>
      by_cases ht : t ∈ done.map (·.name)
      · simp only [ht, ↓reduceIte, Option.map_some, Option.elim_some, Context.pruned,
          Context.name_of_info? hi, true_and, List.find?_filter]
        cases hs : F.inheritedFrom? t name with
        | none =>
            simp only [Option.isSome_none, Bool.false_eq_true, ↓reduceIte]
            congr 1
            funext a
            by_cases ha : a.name = name <;> simp [ha, hs]
        | some D =>
            simp only [Option.isSome_some, ↓reduceIte, List.find?_eq_none]
            intro a _
            by_cases ha : a.name = name <;> simp [ha, hs]
      · simp [ht]

theorem attribute?_isSome (h : Pruning F done ctx) (hr : F.Rooted) (t : TypeName) (name : String) :
    (ctx.attribute? t name).isSome = (F.attribute? t name).isSome := by
  have hdescends : ∀ {a b}, ctx.Descends a b ↔ F.Descends a b := Context.Descends.congr h.parent?
  rw [Bool.eq_iff_iff]
  constructor
  · intro hsome
    obtain ⟨D, hD, hown⟩ := Context.isSome_attribute?.mp hsome
    rw [h.ownAttribute?] at hown
    split at hown
    · simp at hown
    · exact Context.isSome_attribute?.mpr ⟨D, hdescends.mp hD, hown⟩
  · intro hsome
    -- the topmost declaration is never dropped
    obtain ⟨D, hD, hown, htop⟩ := Context.exists_topmost hr hsome
    refine Context.isSome_attribute?.mpr ⟨D, hdescends.mpr hD, ?_⟩
    simpa [h.ownAttribute?, htop] using hown

theorem inheritedFrom?_isSome (h : Pruning F done ctx) (hr : F.Rooted) (t : TypeName) (name : String) :
    (ctx.inheritedFrom? t name).isSome = (F.inheritedFrom? t name).isSome := by
  rw [Context.inheritedFrom?, h.parent?, Context.inheritedFrom?]
  cases F.parent? t <;> simp [h.attribute?_isSome hr]

/-- What a class is said to inherit an attribute from declares it. -/
theorem declaredAbove (h : Pruning F done ctx) {D : TypeName} (hD : ctx.inheritedFrom? t name = some D) :
    F.DeclaredAbove t name D := by
  obtain ⟨habove, hdeclared⟩ := Context.declaredAbove_of_inheritedFrom? hD
  rw [h.ownAttribute?] at hdeclared
  split at hdeclared
  · simp at hdeclared
  · exact ⟨Context.Parent.congr h.parent? ▸ habove, hdeclared⟩

theorem mismatchReports (h : Pruning F done ctx) (c : ClassDecl) :
    mismatchReports ctx c = ClassTable.mismatchReports F c := by
  have hown : ∀ x name, ctx.ownMethod? x name = F.ownMethod? x name := by
    simp [Context.ownMethod?, h.ownMethods]
  simp [ClassTable.mismatchReports, mismatched, h.parent?, h.ownMethods,
    Context.method?_congr h.parent? hown]

theorem step (h : Pruning F done ctx) (hr : F.Rooted) (hc : c.name ∉ done.map (·.name)) :
    Pruning F (done ++ [c]) (checkInherited ctx c).value := by
  intro t
  rw [checkInherited_info, h t]
  by_cases ht : t = c.name
  · subst ht
    have hpruned : ctx.pruned = F.pruned := by
      funext i
      have hnone : ∀ name, (ctx.inheritedFrom? i.name name).isNone = (F.inheritedFrom? i.name name).isNone := by
        simp [← Option.not_isSome, h.inheritedFrom?_isSome hr]
      simp [Context.pruned, hnone]
    simp [hc, hpruned]
  · simp [ht]

end Pruning

/-- What the last round may report about the classes `cs`: methods that differ from inherited ones, and every
attribute that is also declared above, as defined in one of the classes that declare it there. -/
structure InheritanceReports (F : Context) (cs : List ClassDecl) (rs : List Report) : Prop where
  sound : ∀ r ∈ rs, ∃ c ∈ cs, r ∈ mismatchReports F c ∨ ∃ a ∈ F.ownAttributes c.name, ∃ D,
    F.DeclaredAbove c.name a.name D ∧ r = ⟨.duplicateAttribute a.name D, attrSpan c a.name⟩
  mismatches : ∀ c ∈ cs, ∀ r ∈ mismatchReports F c, r ∈ rs
  shadows : ∀ c ∈ cs, ∀ a ∈ F.ownAttributes c.name, ∀ D, F.DeclaredAbove c.name a.name D →
    ∃ E, F.DeclaredAbove c.name a.name E ∧ ⟨.duplicateAttribute a.name E, attrSpan c a.name⟩ ∈ rs

theorem InheritanceReports.nil (F : Context) : InheritanceReports F [] [] := by
  constructor <;> simp

theorem InheritanceReports.append {cs' : List ClassDecl} {rs rs' : List Report}
    (h : InheritanceReports F cs rs) (h' : InheritanceReports F cs' rs') :
    InheritanceReports F (cs ++ cs') (rs ++ rs') where
  sound r hr := by
    rcases List.mem_append.mp hr with hr | hr
    · obtain ⟨c, hc, hr⟩ := h.sound r hr
      exact ⟨c, List.mem_append_left _ hc, hr⟩
    · obtain ⟨c, hc, hr⟩ := h'.sound r hr
      exact ⟨c, List.mem_append_right _ hc, hr⟩
  mismatches c hc r hr := by
    rcases List.mem_append.mp hc with hc | hc
    · exact List.mem_append_left _ (h.mismatches c hc r hr)
    · exact List.mem_append_right _ (h'.mismatches c hc r hr)
  shadows c hc a ha D hD := by
    rcases List.mem_append.mp hc with hc | hc
    · obtain ⟨E, hE, hr⟩ := h.shadows c hc a ha D hD
      exact ⟨E, hE, List.mem_append_left _ hr⟩
    · obtain ⟨E, hE, hr⟩ := h'.shadows c hc a ha D hD
      exact ⟨E, hE, List.mem_append_right _ hr⟩

/-- A class that still has all its attributes. -/
theorem Pruning.reports (h : Pruning F done ctx) (hr : F.Rooted) (hc : c.name ∉ done.map (·.name)) :
    InheritanceReports F [c] (checkInherited ctx c).reports := by
  have hown := h.ownAttributes_of_not_mem hc
  rw [checkInherited_reports, h.mismatchReports]
  constructor
  · intro r hr
    refine ⟨c, List.mem_singleton_self c, ?_⟩
    rcases List.mem_append.mp hr with hr | hr
    · obtain ⟨a, ha, hr⟩ := List.mem_filterMap.mp hr
      obtain ⟨D, hD, rfl⟩ := Option.map_eq_some_iff.mp hr
      exact .inr ⟨a, hown ▸ ha, D, h.declaredAbove hD, rfl⟩
    · exact .inl hr
  · intro d hd r hr
    obtain rfl := List.mem_singleton.mp hd
    exact List.mem_append_right _ hr
  · intro d hd a ha D hD
    obtain rfl := List.mem_singleton.mp hd
    have hsome := Context.isSome_inheritedFrom?.mpr ⟨D, hD⟩
    rw [← h.inheritedFrom?_isSome hr] at hsome
    obtain ⟨E, hE⟩ := Option.isSome_iff_exists.mp hsome
    refine ⟨E, h.declaredAbove hE, List.mem_append_left _ (List.mem_filterMap.mpr ⟨a, hown ▸ ha, ?_⟩)⟩
    simp [hE]

/-- From class to class, the last round drops inherited attributes and reports them. -/
theorem Pruning.run (h : Pruning F done ctx) (hr : F.Rooted) (hd : ((done ++ rest).map (·.name)).Nodup) :
    Pruning F (done ++ rest) (rest.foldlM checkInherited ctx).value ∧
      InheritanceReports F rest (rest.foldlM checkInherited ctx).reports := by
  induction rest generalizing done ctx with
  | nil => exact ⟨by simpa using h, .nil F⟩
  | cons c rest ih =>
      have hc : c.name ∉ done.map (·.name) := by
        rw [List.map_append, List.map_cons] at hd
        exact fun hmem => List.disjoint_of_nodup_append hd hmem List.mem_cons_self
      rw [List.append_cons] at hd ⊢
      obtain ⟨hvalue, hreports⟩ := ih (h.step hr hc) hd
      rw [List.foldlM_cons]
      exact ⟨hvalue, (h.reports hr hc).append hreports⟩

theorem featured_rooted (p : Program) : (register Context.basic p.classes).value.featured.Rooted := by
  have hlinks : SameLinks (register Context.basic p.classes).value.linked
      (register Context.basic p.classes).value.featured :=
    SameLinks.foldlM fun ctx c _ => defineFeatures_links ctx c
  exact (linked_rooted p).congr (featured_kept _).labels hlinks

/-- The last round on the classes of a program. -/
theorem build_pruning (p : Program) :
    Pruning (register Context.basic p.classes).value.featured (build p).value.classes
      (build p).value.context ∧
    InheritanceReports (register Context.basic p.classes).value.featured (build p).value.classes
      ((register Context.basic p.classes).value.classes.foldlM checkInherited
        (register Context.basic p.classes).value.featured).reports := by
  refine (Pruning.start _).run (featured_rooted p) ?_
  exact (register_namesOk p.classes).distinct

/-- No attribute is lost: a type has those that it and the classes above it declare. -/
theorem isSome_attribute?_build (p : Program) (t : TypeName) (name : String) :
    ((build p).value.context.attribute? t name).isSome = true ↔ ∃ d ∈ (build p).value.classes,
      (build p).value.context.Descends t d.name ∧ ∃ a ∈ d.attributes, a.name = name := by
  have hpruning := (build_pruning p).1
  have hdescends : ∀ {a b}, (build p).value.context.Descends a b ↔
      (register Context.basic p.classes).value.featured.Descends a b :=
    Context.Descends.congr hpruning.parent?
  rw [hpruning.attribute?_isSome (featured_rooted p), Context.isSome_attribute?]
  simp only [isSome_ownAttribute?_featured, hdescends]
  constructor
  · rintro ⟨D, hD, d, hd, rfl, ha⟩
    exact ⟨d, hd, hD, ha⟩
  · rintro ⟨d, hd, hD, ha⟩
    exact ⟨d.name, hD, d, hd, rfl, ha⟩

end ClassTable

end CoolTyping
