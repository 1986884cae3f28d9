import CoolTyping.Proofs.Ancestry
import CoolTyping.Proofs.ClassTables

/-!
# Inheritance in class tables

Building a class table keeps all links leading to `Object`: a class is registered below `Object`, and is
linked to another parent only if that makes no circle. Features do not touch the links.
-/

namespace CoolTyping

namespace Context

variable {ctx ctx' : Context} {t x : TypeName}

/-! ## Links after a change -/

theorem contains_iff_info? : ctx.contains x = true ↔ (ctx.info? x).isSome = true := by
  simp [contains, info?]

theorem info?_modify_ne {f : TypeInfo → TypeInfo} (hname : ∀ i, (f i).name = i.name) (hx : x ≠ t) :
    (ctx.modify t f).info? x = ctx.info? x := by
  rw [info?_modify_eq hname, if_neg hx]

theorem parent?_modify {f : TypeInfo → TypeInfo}
    (hf : ∀ i, (f i).name = i.name ∧ (f i).parent = i.parent) (x : TypeName) :
    (ctx.modify t f).parent? x = ctx.parent? x := by
  unfold parent?
  by_cases hx : x = t
  · subst hx
    rw [info?_modify fun i => (hf i).1]
    cases ctx.info? x with
    | none => rfl
    | some i => exact (hf i).2
  · rw [info?_modify_ne (fun i => (hf i).1) hx]

theorem labels_withParent (parent : Option TypeName) :
    (ctx.withParent t parent).labels = ctx.labels := labels_modify fun _ => ⟨rfl, rfl⟩

theorem parent?_withParent (parent : Option TypeName) (ht : ctx.contains t = true) :
    (ctx.withParent t parent).parent? x = if x = t then parent else ctx.parent? x := by
  unfold parent? withParent
  split
  · rename_i hx
    subst hx
    obtain ⟨i, hi⟩ := Option.isSome_iff_exists.mp (isSome_info? ht)
    rw [info?_modify, hi]
    · rfl
    · exact fun _ => rfl
  · rename_i hx
    rw [info?_modify_ne _ hx]
    exact fun _ => rfl

theorem Parent.congr (h : ∀ x, ctx'.parent? x = ctx.parent? x) : ctx'.Parent = ctx.Parent := by
  funext a b
  simp [Parent, h]

theorem Descends.congr (h : ∀ x, ctx'.parent? x = ctx.parent? x) {a b : TypeName} :
    ctx'.Descends a b ↔ ctx.Descends a b := by
  rw [Descends, Descends, Parent.congr h]

theorem Rooted.congr (h : ctx.Rooted) (hl : ctx'.labels = ctx.labels)
    (hp : ∀ x, ctx'.parent? x = ctx.parent? x) : ctx'.Rooted where
  known := (contains_congr hl).mpr h.known
  root := (hp _).trans h.root
  descends ht := (Descends.congr hp).mpr (h.descends ((contains_congr hl).mp ht))

theorem basic_rooted : basic.Rooted where
  known := by decide
  root := by decide
  descends {t} ht := by
    have hall : ∀ t ∈ basic.names, t = TypeName.object ∨ basic.parent? t = some TypeName.object := by
      decide
    rcases hall t (contains_iff.mp ht) with rfl | hp
    · exact .refl
    · exact .single hp

/-! ## A new class -/

theorem info?_create {name : TypeName} (h : ctx.create name = .ok ctx') (x : TypeName) :
    ctx'.info? x =
      if x = name then some ⟨name, .declared, some TypeName.object, [], []⟩ else ctx.info? x := by
  obtain ⟨hfresh, rfl⟩ := create_eq_ok h
  have hnone : x = name → ctx.info? x = none := by
    rintro rfl
    simpa [info?, contains] using hfresh
  unfold info? at hnone ⊢
  rw [List.find?_append]
  split
  · rename_i hx
    rw [hnone hx]
    simp [hx]
  · rename_i hx
    simp [Ne.symm hx]

theorem parent?_create {name : TypeName} (h : ctx.create name = .ok ctx') (x : TypeName) :
    ctx'.parent? x = if x = name then some TypeName.object else ctx.parent? x := by
  unfold parent?
  rw [info?_create h]
  split
  · rfl
  · rfl

theorem create_rooted {name : TypeName} (hr : ctx.Rooted) (h : ctx.create name = .ok ctx') :
    ctx'.Rooted := by
  have hparent := parent?_create h
  have hfresh := (create_eq_ok h).1
  have hne : ∀ {x}, ctx.contains x = true → x ≠ name := by
    rintro x hx rfl
    exact Bool.false_ne_true (hfresh.symm.trans hx)
  have hmono : ctx.Parent ≤ ctx'.Parent := by
    intro y z hp
    unfold Parent
    rw [hparent, if_neg (hne (contains_iff.mpr (mem_names_of_parent? hp)))]
    exact hp
  refine ⟨?_, ?_, fun {x} hx => ?_⟩
  · rw [contains_iff_info?, info?_create h, if_neg (hne hr.known), ← contains_iff_info?]
    exact hr.known
  · rw [hparent, if_neg (hne hr.known), hr.root]
  · rw [contains_iff_info?, info?_create h] at hx
    by_cases hxn : x = name
    · exact .single (by rw [Parent, hparent, if_pos hxn])
    · rw [if_neg hxn, ← contains_iff_info?] at hx
      exact Relation.ReflTransGen.mono hmono _ _ (hr.descends hx)

/-! ## A new link -/

/-- A way that does not pass `t` is not changed by a new link of `t`. -/
theorem descends_withParent {a b : TypeName} {parent : Option TypeName} (h : ctx.Descends a b)
    (hnot : ¬ ctx.Descends a t) (ht : ctx.contains t = true) :
    (ctx.withParent t parent).Descends a b := by
  revert hnot
  refine Relation.ReflTransGen.head_induction_on h (fun _ => .refl) ?_
  intro x y hp _ ih hnot
  have hx : x ≠ t := by
    rintro rfl
    exact hnot .refl
  have hparent : (ctx.withParent t parent).Parent x y := by
    unfold Parent
    rw [parent?_withParent _ ht, if_neg hx]
    exact hp
  exact .head hparent (ih fun hy => hnot (.head hp hy))

theorem withParent_rooted {parent : TypeName} (hr : ctx.Rooted) (ht : ctx.contains t = true)
    (hroot : t ≠ TypeName.object) (hp : ctx.contains parent = true) (hnot : ¬ ctx.Descends parent t) :
    (ctx.withParent t (some parent)).Rooted where
  known := (contains_congr (labels_withParent _)).mpr hr.known
  root := by rw [parent?_withParent _ ht, if_neg (Ne.symm hroot), hr.root]
  descends {x} hx := by
    have hx := hr.descends ((contains_congr (labels_withParent _)).mp hx)
    refine Relation.ReflTransGen.head_induction_on hx .refl ?_
    intro x y hxy _ ih
    by_cases hxt : x = t
    · have hparent : (ctx.withParent t (some parent)).Parent x parent := by
        rw [Parent, parent?_withParent _ ht, if_pos hxt]
      exact .head hparent (descends_withParent (hr.descends hp) hnot ht)
    · have hparent : (ctx.withParent t (some parent)).Parent x y := by
        rw [Parent, parent?_withParent _ ht, if_neg hxt]
        exact hxy
      exact .head hparent ih

end Context

namespace ClassTable

open Reporting

variable {cs : List ClassDecl} {c : ClassDecl} {ctx ctx' : Context}

theorem register_rooted (hr : ctx.Rooted) (cs : List ClassDecl) :
    (register ctx cs).value.context.Rooted := by
  induction cs generalizing ctx with
  | nil => exact hr
  | cons c cs ih =>
      unfold register
      cases hc : ctx.create c.name with
      | error e => exact ih hr
      | ok ctx' => exact ih (Context.create_rooted hr hc)

theorem setParent_eq_ok {t parent : TypeName} (h : ctx.setParent t parent = .ok ctx') :
    ctx' = ctx.withParent t (some parent) ∧ ¬ ctx.Descends parent t ∧
      (ctx.info? parent).all (·.kind.inheritable) = true := by
  unfold Context.setParent at h
  split at h
  · cases h
  rename_i hkind
  split at h
  · cases h
  rename_i hcircle
  cases h
  refine ⟨rfl, fun hd => hcircle ?_, by simpa using hkind⟩
  simpa using Context.mem_ancestors.mpr hd

theorem link_rooted {parent : TypeName} (hr : ctx.Rooted) (hc : ctx.contains c.name = true)
    (hroot : c.name ≠ TypeName.object) (hp : ctx.contains parent = true) :
    (link ctx c parent).value.Rooted := by
  unfold link
  cases h : ctx.setParent c.name parent with
  | error e => exact hr
  | ok ctx' =>
      obtain ⟨rfl, hnot, _⟩ := setParent_eq_ok h
      exact Context.withParent_rooted hr hc hroot hp hnot

theorem linkParent_rooted (hr : ctx.Rooted) (hc : ctx.contains c.name = true)
    (hroot : c.name ≠ TypeName.object) (herror : ctx.contains TypeName.error = true) :
    (linkParent ctx c).value.Rooted := by
  unfold linkParent
  cases c.parent with
  | none => exact hr
  | some parent =>
      dsimp only [Context.resolve]
      by_cases hp : ctx.contains parent = true
      · rw [if_pos hp]
        exact link_rooted hr hc hroot hp
      · rw [if_neg hp]
        exact link_rooted hr hc hroot herror

/-! ## Features do not touch the links -/

/-- The links are the same. -/
def SameLinks (before after : Context) : Prop := ∀ x, after.parent? x = before.parent? x

theorem SameLinks.foldlM {α : Type} {f : Context → α → Reporting Context} {as : List α}
    (hf : ∀ ctx, ∀ a ∈ as, SameLinks ctx (f ctx a).value) : SameLinks ctx (as.foldlM f ctx).value :=
  foldlM_value (fun _ => rfl) fun ctx' h a ha x => (hf ctx' a ha x).trans (h x)

theorem defineFeatures_links (ctx : Context) (c : ClassDecl) :
    SameLinks ctx (defineFeatures ctx c).value := by
  unfold defineFeatures
  rw [value_bind]
  have hattributes : SameLinks ctx (c.attributes.foldlM (defineAttribute c.name) ctx).value := by
    refine .foldlM fun ctx a _ => ?_
    unfold defineAttribute
    rw [value_bind]
    split
    · exact fun _ => rfl
    · exact Context.parent?_modify fun _ => ⟨rfl, rfl⟩
  have hmethods : ∀ ctx, SameLinks ctx (c.methods.foldlM (defineMethod c.name) ctx).value := by
    refine fun ctx => .foldlM fun ctx d _ => ?_
    obtain ⟨m, _, _, hvalue⟩ := defineMethod_value c.name ctx d
    rw [hvalue]
    split
    · exact fun _ => rfl
    · exact Context.parent?_modify fun _ => ⟨rfl, rfl⟩
  exact fun x => (hmethods _ x).trans (hattributes x)

theorem checkInherited_links (ctx : Context) (c : ClassDecl) :
    SameLinks ctx (checkInherited ctx c).value := by
  unfold checkInherited
  cases ctx.parent? c.name with
  | none => exact fun _ => rfl
  | some parent => exact Context.parent?_modify fun _ => ⟨rfl, rfl⟩

theorem build_links (p : Program) :
    SameLinks (register Context.basic p.classes).value.linked (build p).value.context := by
  have hfeatured : SameLinks (register Context.basic p.classes).value.linked
      (register Context.basic p.classes).value.featured :=
    .foldlM fun ctx c _ => defineFeatures_links ctx c
  have hlast : SameLinks (register Context.basic p.classes).value.featured (build p).value.context :=
    .foldlM fun ctx c _ => checkInherited_links ctx c
  exact fun x => (hlast x).trans (hfeatured x)

theorem linked_rooted (p : Program) : (register Context.basic p.classes).value.linked.Rooted := by
  have hreg := register_registered Context.basic_names_nodup p.classes
  have hbase := register_rooted Context.basic_rooted p.classes
  generalize (register Context.basic p.classes).value = t at hreg hbase
  have hcontains : ∀ {ctx : Context}, ctx.labels = t.context.labels → ∀ {x},
      (x ∈ Context.basic.names ∨ ∃ c ∈ t.classes, c.name = x) → ctx.contains x = true := by
    intro ctx hl x hx
    rw [Context.contains_congr hl, Context.contains_iff, Context.names_eq, hreg.labels, List.map_append,
      List.mem_append, ← Context.names_eq]
    refine hx.imp_right ?_
    rintro ⟨c, hc, rfl⟩
    exact List.mem_map_of_mem (List.mem_map_of_mem (f := label) hc)
  have hne : ∀ c ∈ t.classes, c.name ≠ TypeName.object := by
    intro c hc heq
    have hdistinct := hreg.distinct
    rw [Context.names_eq, hreg.labels, List.map_append, List.nodup_append] at hdistinct
    refine hdistinct.2.2 TypeName.object ?_ c.name ?_ heq.symm
    · rw [← Context.names_eq]
      decide
    · exact List.mem_map_of_mem (List.mem_map_of_mem (f := label) hc)
  have hfold : (t.classes.foldlM linkParent t.context).value.Rooted ∧
      (t.classes.foldlM linkParent t.context).value.labels = t.context.labels := by
    refine foldlM_value (motive := fun ctx : Context => ctx.Rooted ∧ ctx.labels = t.context.labels)
      ⟨hbase, rfl⟩ fun ctx h c hc => ?_
    refine ⟨linkParent_rooted h.1 (hcontains h.2 (.inr ⟨c, hc, rfl⟩)) (hne c hc)
      (hcontains h.2 (.inl (by decide))), ?_⟩
    exact (linkParent_kept ctx c : Kept [] ctx _).labels.trans h.2
  exact hfold.1

/-- In every class table all links lead to `Object`. -/
theorem build_rooted (p : Program) : (build p).value.context.Rooted :=
  (linked_rooted p).congr ((featured_kept _).trans (build_kept p)).labels (build_links p)

end ClassTable

end CoolTyping
