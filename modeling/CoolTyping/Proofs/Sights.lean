import CoolTyping.Proofs.Elimination
import CoolTyping.Proofs.Typability

/-!
# What is in sight

The strict check keeps the variables in sight in frames, and inference finds them through the bags. Where
the types of a program can be read off a tree of bags, both see the same: a variable that the rules give a
type has an entry with one candidate, and this is its type. The exception is an inherited attribute of type
`SELF_TYPE`. It has the type of the class at hand by the rules, and that of the class that declares it in
its entry.
-/

namespace CoolTyping

open Seed

/-! ## Looking up entries -/

theorem lookup_of_nodup {α β : Type} [DecidableEq α] {xs : List (α × β)} (hn : (xs.map (·.1)).Nodup)
    {a : α} {b : β} (h : (a, b) ∈ xs) : xs.lookup a = some b := by
  induction xs with
  | nil => cases h
  | cons x xs ih =>
      obtain ⟨hnotin, hn⟩ := List.nodup_cons.mp hn
      rcases List.mem_cons.mp h with rfl | h
      · simp
      · have hne : (a == x.1) = false := by
          rw [beq_eq_false_iff_ne]
          rintro rfl
          exact hnotin (List.mem_map.mpr ⟨_, h, rfl⟩)
        rw [List.lookup_cons, hne, ih hn h]

namespace Seed

variable {ctx : Context} {T : BagTree} {c : ClassDecl} {o : Opener} {outer inner : BagId}

/-- Just the declared types are locked. -/
theorem entry_locked (ctx : Context) (C ty : TypeName) (span : Span) :
    (entry ctx C ty span).locked = (ty != TypeName.auto) := by
  unfold entry
  cases hty : ty == TypeName.auto with
  | true => simp [hty, bne, Entry.ofPlaceholder]
  | false =>
      simp only [hty, bne, Bool.false_eq_true, ↓reduceIte]
      split <;> rfl

/-- Where no name is introduced twice, every one has its entry. -/
theorem Placed.entry {place : Option BagId} (h : Placed ctx T c o place inner)
    (hn : ((o.entries ctx c).map (·.1)).Nodup) {slot : Slot} {e : Entry}
    (he : (slot, e) ∈ o.entries ctx c) : ∃ f, T.entryAt? inner slot = some f ∧ e.EvolvesTo f :=
  h.holds.entry (lookup_of_nodup hn he)

/-- A name that the scope introduces refers to its own entry. -/
theorem Placed.get?_own (h : Placed ctx T c o (some outer) inner) (ho : T.Ordered)
    (hc : T.classOf outer = c.name) {slot : Slot} (hslot : slot ∈ (o.entries ctx c).map (·.1)) :
    T.get? ctx inner slot = T.entryAt? inner slot := by
  rw [BagTree.get?, ho.resolve?_eq ctx slot h.parent (h.inClass.trans hc.symm),
    if_pos ((h.holds.has slot).mpr hslot), Option.bind_some]

/-- Any other name refers to what it refers to in the scope around. -/
theorem Placed.get?_outer (h : Placed ctx T c o (some outer) inner) (ho : T.Ordered)
    (hc : T.classOf outer = c.name) {slot : Slot} (hslot : slot ∉ (o.entries ctx c).map (·.1)) :
    T.get? ctx inner slot = T.get? ctx outer slot := by
  rw [BagTree.get?, ho.resolve?_eq ctx slot h.parent (h.inClass.trans hc.symm),
    if_neg fun hhas => hslot ((h.holds.has slot).mp hhas), BagTree.get?]

end Seed

theorem Seed.Placed.has_class_iff {cs : List ClassDecl} {T : BagTree} {c : ClassDecl} {bag : BagId}
    (h : Placed (Context.ofClasses cs) T c .ofClass none bag) {x : String} (hx : x ≠ selfName) :
    T.has bag (.var x) = true ↔ ∃ a ∈ c.attributes, a.name = x := by
  rw [h.holds.has]
  simp [Opener.entries, hx]

/-! ## Attributes of classes -/

namespace ClassTable.Fitting

variable {cs : List ClassDecl} {c d : ClassDecl}

theorem info?_class (h : Fitting cs) (hc : c ∈ cs) : (Context.ofClasses cs).info? c.name = some c.info := by
  have hcontains : (Context.ofClasses cs).contains c.name = true :=
    Context.contains_iff.mpr ((Context.concreteTypes_sublist _).subset
      (h.wellFormed.class_concrete (by rwa [classes_all])))
  obtain ⟨i, hi⟩ := Option.isSome_iff_exists.mp (Context.isSome_info? hcontains)
  obtain ⟨hname, hbasic | ⟨d, hd, rfl⟩⟩ := info?_ofClasses hi
  · have hfresh := h.names.fresh c hc
    rw [← hname, Context.contains_iff.mpr (List.mem_map_of_mem hbasic)] at hfresh
    cases hfresh
  · obtain rfl : d = c := List.inj_on_of_nodup_map h.names.distinct hd hc hname
    exact hi

theorem ownAttributes_class (h : Fitting cs) (hc : c ∈ cs) :
    (Context.ofClasses cs).ownAttributes c.name = c.attributes.map AttrDecl.attribute := by
  rw [Context.ownAttributes, h.info?_class hc]
  rfl

theorem ownMethods_class (h : Fitting cs) (hc : c ∈ cs) :
    (Context.ofClasses cs).ownMethods c.name = c.methods.map MethodDecl.signature := by
  rw [Context.ownMethods, h.info?_class hc]
  rfl

/-- No two of the classes that a class descends from declare an attribute of the same name. -/
theorem class_unique (h : Fitting cs) {C : TypeName} (hc : c ∈ cs) (hd : d ∈ cs)
    (hCc : (Context.ofClasses cs).Descends C c.name) (hCd : (Context.ofClasses cs).Descends C d.name)
    {a b : AttrDecl} (ha : a ∈ c.attributes) (hb : b ∈ d.attributes) (hname : a.name = b.name) : c = d := by
  have ha : a.attribute ∈ (Context.ofClasses cs).ownAttributes c.name := by
    rw [h.ownAttributes_class hc]
    exact List.mem_map_of_mem ha
  have hb : b.attribute ∈ (Context.ofClasses cs).ownAttributes d.name := by
    rw [h.ownAttributes_class hd]
    exact List.mem_map_of_mem hb
  refine List.inj_on_of_nodup_map h.names.distinct hc hd ?_
  rcases Context.descends_total hCc hCd with hle | hle
  · exact h.eq_of_descends hle ha hb hname
  · exact (h.eq_of_descends hle hb ha hname.symm).symm

end ClassTable.Fitting

/-! ## Reading types off a tree -/

/-- The class table that holds the classes as they were written. -/
def ClassTable.ofClasses (cs : List ClassDecl) : ClassTable := ⟨Context.ofClasses cs, cs.map some⟩

/-- The tree has come from the classes `cs`, and the types of all declarations can be read off it. The
context `ctx'` is the one of the program with these types in place of its placeholders. -/
structure Legible (cs : List ClassDecl) (T : BagTree) (ctx' : Context) : Prop where
  fitting : ClassTable.Fitting cs
  regular : (Context.ofClasses cs).Regular
  selfless : ∀ c ∈ cs, ∀ a ∈ c.attributes, a.name ≠ selfName
  distinct : (ClassTable.ofClasses cs).seed.DistinctOwners
  evolved : (ClassTable.ofClasses cs).seed.EvolvesTo T
  single : ∀ {bag slot e}, T.entryAt? bag slot = some e → e.locked = false →
    ∃ t ∈ (Context.ofClasses cs).concreteTypes, e.candidates.toList = [t]
  descends : ∀ {a b}, ctx'.Descends a b ↔ (Context.ofClasses cs).Descends a b
  concrete : ∀ {a}, a ∈ ctx'.concreteTypes ↔ a ∈ (Context.ofClasses cs).concreteTypes
  attributes : ∀ {D a'}, a' ∈ ctx'.ownAttributes D → ∃ c ∈ cs, c.name = D ∧ ∃ a ∈ c.attributes,
    a.name = a'.name ∧
      a'.ty = (T.filled? (Context.ofClasses cs) (T.bagOf? c.id) (.var a.name) a.ty).getD a.ty

namespace Legible

variable {cs : List ClassDecl} {T : BagTree} {ctx' : Context} {c : ClassDecl} {bag : BagId}

theorem ordered (h : Legible cs T ctx') : T.Ordered :=
  (ClassTable.seed_ordered h.distinct).evolvesTo h.evolved

theorem classes_eq (cs : List ClassDecl) : (ClassTable.ofClasses cs).classes = cs :=
  ClassTable.classes_all _ _

theorem nested (h : Legible cs T ctx') (hc : c ∈ cs) :
    ∃ bag, NestedClass (Context.ofClasses cs) T c bag ∧ T.classBag? c.name = some bag := by
  have hmem : c ∈ (ClassTable.ofClasses cs).classes := by rwa [classes_eq]
  obtain ⟨bag, hbag⟩ := ClassTable.nestedClass_seed h.distinct h.evolved hmem
  exact ⟨bag, hbag, h.fitting.wellFormed.classBag?_eq h.distinct h.evolved hmem hbag⟩

/-- Only classes have bags of classes. -/
theorem class_of_classBag? (h : Legible cs T ctx') {name : TypeName}
    (hbag : T.classBag? name = some bag) : ∃ c ∈ cs, c.name = name ∧
      Placed (Context.ofClasses cs) T c .ofClass none bag := by
  rw [h.evolved.classBag?] at hbag
  obtain ⟨b, hb, hkind⟩ := lastIdx?_eq_some hbag
  simp only [Bool.and_eq_true, beq_iff_eq] at hkind
  obtain ⟨c, hc, o, _, hopens⟩ := ClassTable.opens_of_mem_seed (List.mem_of_getElem? hb)
  have hplace := hopens.place
  cases o with
  | ofClass =>
      rw [classes_eq] at hc
      have hname : c.name = name := hplace.2.symm.trans hkind.2
      obtain ⟨bag', hbag', hfound⟩ := h.nested hc
      rw [hname, h.evolved.classBag?, hbag] at hfound
      cases hfound
      exact ⟨c, hc, hname, hbag'.placed⟩
  | ofMethod m => exact absurd (hkind.1.symm.trans hplace.1) (by simp)
  | ofBinder x => rcases hplace with hk | hk <;> exact absurd (hkind.1.symm.trans hk) (by simp)

theorem class_concrete (h : Legible cs T ctx') (hc : c ∈ cs) :
    c.name ∈ (Context.ofClasses cs).concreteTypes :=
  h.fitting.wellFormed.class_concrete (by rwa [ClassTable.classes_all])

theorem denotes (h : Legible cs T ctx') {C t σ : TypeName} (hσ : Denotes ctx' C t σ) :
    Denotes (Context.ofClasses cs) C t σ := by
  cases hσ with
  | self => exact .self
  | concrete hc => exact .concrete (h.concrete.mp hc)

/-- The entry of a declaration has just the type that is read off for it. -/
theorem candidates_eq (h : Legible cs T ctx') {C ty σ : TypeName} {span : Span} {slot : Slot} {e : Entry}
    (he : T.entryAt? bag slot = some e)
    (hev : (Seed.entry (Context.ofClasses cs) C ty span).EvolvesTo e)
    (hσ : Denotes ctx' C ((T.filled? (Context.ofClasses cs) (some bag) slot ty).getD ty) σ) :
    e.candidates.toList = [σ] := by
  have hσ : Denotes (Context.ofClasses cs) C
      ((T.filled? (Context.ofClasses cs) (some bag) slot ty).getD ty) σ := h.denotes hσ
  unfold BagTree.filled? at hσ
  unfold Seed.entry at hev
  by_cases hty : ty = TypeName.auto
  · simp only [hty, BEq.rfl, ↓reduceIte, Option.bind_some, he, Option.map_some, Option.getD_some] at hσ hev
    obtain ⟨t, ht, htypes⟩ := h.single he hev.locked
    have hjoined : e.joined (Context.ofClasses cs) = t := by rw [Entry.joined, htypes]; rfl
    rw [hjoined] at hσ
    rw [htypes, (hσ.resolveSelf_eq h.regular).symm,
      (Denotes.concrete ht : Denotes _ C t t).resolveSelf_eq h.regular]
  · have hne : (ty == TypeName.auto) = false := by simpa using hty
    simp only [hne, Bool.false_eq_true, ↓reduceIte, Option.getD_none] at hσ hev
    have hknown : (Context.ofClasses cs).contains ty = true := by
      cases hσ with
      | self => exact h.regular.known.mpr (Or.inr (Or.inr (Or.inl rfl)))
      | concrete hc => exact h.regular.contains hc
    rw [if_pos hknown, hσ.resolveSelf_eq h.regular] at hev
    rw [hev.fixed rfl]
    rfl

/-! ## The bag of a class -/

/-- The scope of a class introduces no name twice. -/
theorem class_slots_nodup (h : Legible cs T ctx') (hc : c ∈ cs) :
    ((Opener.ofClass.entries (Context.ofClasses cs) c).map (·.1)).Nodup := by
  have hattributes := (h.fitting.features c hc).attributeNames
  have hmethods := (h.fitting.features c hc).methodNames
  simp only [Opener.entries, List.map_cons, List.map_append, List.map_map, List.cons_append,
    List.nodup_cons, List.nodup_append, List.mem_append, List.mem_map]
  refine ⟨?_, ?_, ?_, ?_⟩
  · rintro (⟨a, ha, hname⟩ | ⟨m, _, hname⟩)
    · exact h.selfless c hc a ha (Slot.var.inj hname)
    · cases hname
  · exact List.Nodup.of_map Slot.name (by simpa [Function.comp_def, Slot.name] using hattributes)
  · exact List.Nodup.of_map Slot.name (by simpa [Function.comp_def, Slot.name] using hmethods)
  · rintro _ ⟨a, _, rfl⟩ _ ⟨m, _, rfl⟩ heq
    cases heq

/-- The result of a method has its entry in the bag of the class. -/
theorem get?_result (h : Legible cs T ctx') (hc : c ∈ cs)
    (hplaced : Placed (Context.ofClasses cs) T c .ofClass none bag) {m : MethodDecl} (hm : m ∈ c.methods) :
    ∃ e, T.get? (Context.ofClasses cs) bag (.result m.name) = some e ∧
      T.entryAt? bag (.result m.name) = some e ∧
      (Seed.entry (Context.ofClasses cs) c.name m.ret m.span).EvolvesTo e := by
  have hmem : (Slot.result m.name, Seed.entry (Context.ofClasses cs) c.name m.ret m.span) ∈
      Opener.ofClass.entries (Context.ofClasses cs) c :=
    List.mem_append_right _ (List.mem_map_of_mem hm)
  obtain ⟨e, he, hev⟩ := hplaced.entry (h.class_slots_nodup hc) hmem
  refine ⟨e, ?_, he, hev⟩
  rw [BagTree.get?, h.ordered.resolve?_root _ _ hplaced.parent, if_pos, Option.bind_some, he]
  exact (hplaced.holds.has _).mpr (List.mem_map_of_mem hmem)

/-- An attribute is found in the bag of the class that declares it. -/
theorem get?_attribute (h : Legible cs T ctx') (hc : c ∈ cs)
    (hplaced : Placed (Context.ofClasses cs) T c .ofClass none bag) {d : ClassDecl} (hd : d ∈ cs)
    {owner : BagId} (hplaced' : Placed (Context.ofClasses cs) T d .ofClass none owner)
    (hcd : (Context.ofClasses cs).Descends c.name d.name) {a : AttrDecl} (ha : a ∈ d.attributes) :
    T.get? (Context.ofClasses cs) bag (.var a.name) = T.entryAt? owner (.var a.name) := by
  have hself := h.selfless d hd a ha
  have howner : ∀ {e : ClassDecl} {i : BagId}, Placed (Context.ofClasses cs) T e .ofClass none i →
      e = d → i = owner := by
    rintro e i he rfl
    exact Option.some.inj (he.found.symm.trans hplaced'.found)
  -- Whatever bag on the way has the slot is that of `d`.
  have hunique : ∀ {e : ClassDecl} {i : BagId}, e ∈ cs →
      Placed (Context.ofClasses cs) T e .ofClass none i →
      (Context.ofClasses cs).Descends c.name e.name → T.has i (.var a.name) = true → i = owner := by
    intro e i he hplaced hce hhas
    obtain ⟨b, hb, hname⟩ := (hplaced.has_class_iff hself).mp hhas
    exact howner hplaced (h.fitting.class_unique he hd hce hcd hb ha hname)
  have hhas : T.has owner (.var a.name) = true := (hplaced'.has_class_iff hself).mpr ⟨a, ha, rfl⟩
  rw [BagTree.get?, h.ordered.resolve?_root _ _ hplaced.parent]
  split
  · rename_i hown
    rw [hunique hc hplaced .refl hown, Option.bind_some]
  · rename_i hown
    have hne : d.name ≠ c.name := by
      intro heq
      obtain rfl := List.inj_on_of_nodup_map h.fitting.names.distinct hd hc heq
      exact hown (howner hplaced rfl ▸ hhas)
    have hmem : owner ∈ ((Context.ofClasses cs).ancestors c.name).tail.filterMap T.classBag? := by
      obtain ⟨bag', hbag', hfound⟩ := h.nested hd
      refine List.mem_filterMap.mpr ⟨d.name, ?_, by rw [hfound, howner hbag'.placed rfl]⟩
      exact (List.mem_cons.mp (Context.mem_ancestors.mpr hcd)).resolve_left hne
    obtain ⟨i, hi⟩ := Option.isSome_iff_exists.mp (List.find?_isSome.mpr ⟨owner, hmem, hhas⟩ :
      (List.find? (T.has · (.var a.name)) _).isSome = true)
    obtain ⟨name, hname, hbag⟩ := List.mem_filterMap.mp (List.mem_of_find?_eq_some hi)
    obtain ⟨e, he, rfl, hplaced''⟩ := h.class_of_classBag? hbag
    have hce := Context.mem_ancestors.mp (List.mem_of_mem_tail hname)
    have hfirst : T.has i (.var a.name) = true := by simpa using List.find?_some hi
    rw [hplaced.inClass, hi, hunique he hplaced'' hce hfirst, Option.bind_some]

end Legible

/-! ## Variables in sight -/

/-- A parameter is in sight, and else what was before. -/
theorem HasParams.lookup {ctx : Context} {C : TypeName} {V W : Vars} {params : List Param}
    (h : HasParams ctx C V params W) {x : String} {τ : TypeName} (hx : W x = some τ) :
    (∃ p ∈ params, p.name = x ∧ Denotes ctx C p.ty τ) ∨ x ∉ params.map (·.name) ∧ V x = some τ := by
  induction h with
  | nil => exact Or.inr ⟨by simp, hx⟩
  | @cons V W p params T hT _ ih =>
      rcases ih hx with ⟨q, hq, hname, hσ⟩ | ⟨hnot, hV⟩
      · exact Or.inl ⟨q, List.mem_cons_of_mem _ hq, hname, hσ⟩
      · unfold Vars.bind at hV
        split at hV
        · rename_i hname
          cases hV
          exact Or.inl ⟨p, List.mem_cons_self, hname.symm, hT⟩
        · rename_i hname
          exact Or.inr ⟨by simpa [hname] using hnot, hV⟩

theorem denotes_iff {ctx : Context} {C t τ : TypeName} :
    Denotes ctx C t τ ↔ t = TypeName.selfType ∧ τ = C ∨ t = τ ∧ t ∈ ctx.concreteTypes := by
  constructor
  · rintro (_ | h)
    · exact Or.inl ⟨rfl, rfl⟩
    · exact Or.inr ⟨rfl, h⟩
  · rintro (⟨rfl, rfl⟩ | ⟨rfl, h⟩)
    · exact .self
    · exact .concrete h

/-- Only `SELF_TYPE` has a meaning that depends on the class. -/
theorem Denotes.elsewhere {ctx : Context} {C t τ : TypeName} (h : Denotes ctx C t τ) :
    t = TypeName.selfType ∧ τ = C ∨ ∀ D, Denotes ctx D t τ := by
  cases h with
  | self => exact Or.inl ⟨rfl, rfl⟩
  | concrete h => exact Or.inr fun _ => .concrete h

/-- The entry has one candidate, from which the type descends. It is the type itself where the entry is not
locked, and in any case if `strict` holds. -/
def Entry.Shows (strict : Prop) (ctx : Context) (e : Entry) (τ : TypeName) : Prop :=
  ∃ σ, e.candidates.toList = [σ] ∧ ctx.Descends τ σ ∧ (strict ∨ e.locked = false → τ = σ)

theorem Entry.shows_of_eq {strict : Prop} {ctx : Context} {e : Entry} {τ : TypeName}
    (h : e.candidates.toList = [τ]) : e.Shows strict ctx τ := ⟨τ, h, .refl, fun _ => rfl⟩

/-- A variable that has a type has an entry in the bags around `bag` that shows it. -/
def Sights (strict : Prop) (ctx : Context) (T : BagTree) (bag : BagId) (V : Vars) : Prop :=
  ∀ x τ, V x = some τ → ∃ e, T.get? ctx bag (.var x) = some e ∧ e.Shows strict ctx τ

namespace Legible

variable {cs : List ClassDecl} {T : BagTree} {ctx' : Context} {c : ClassDecl} {bag inner : BagId}
  {strict : Prop} {V W : Vars}

theorem sights_binder (h : Legible cs T ctx') (hs : Sights strict (Context.ofClasses cs) T bag V)
    (hclass : T.classOf bag = c.name) {b : Binder} {τ : TypeName}
    (hplaced : Placed (Context.ofClasses cs) T c (.ofBinder b) (some bag) inner)
    (hτ : Denotes ctx' c.name ((T.filledBinder? (Context.ofClasses cs) b).getD b.ty) τ) :
    Sights strict (Context.ofClasses cs) T inner (V.bind b.name τ) := by
  intro x σ hx
  unfold Vars.bind at hx
  split at hx
  · rename_i hname
    cases hx
    subst hname
    obtain ⟨e, he, hev⟩ := hplaced.entry (by simp [Opener.entries]) List.mem_cons_self
    have hfound : T.bagOf? b.id = some inner := hplaced.found
    rw [BagTree.filledBinder?, hfound] at hτ
    rw [hplaced.get?_own h.ordered hclass (by simp [Opener.entries])]
    exact ⟨e, he, Entry.shows_of_eq (h.candidates_eq he hev hτ)⟩
  · rename_i hname
    rw [hplaced.get?_outer h.ordered hclass (by simpa [Opener.entries] using hname)]
    exact hs x σ hx

theorem sights_params (h : Legible cs T ctx') (hs : Sights strict (Context.ofClasses cs) T bag V)
    (hclass : T.classOf bag = c.name) {m : MethodDecl} (hn : (m.params.map (·.name)).Nodup)
    (hplaced : Placed (Context.ofClasses cs) T c (.ofMethod m) (some bag) inner)
    (hW : HasParams ctx' c.name V (m.params.map (T.fillParam (Context.ofClasses cs) m)) W) :
    Sights strict (Context.ofClasses cs) T inner W := by
  intro x τ hx
  rcases hW.lookup hx with ⟨p', hp', rfl, hτ⟩ | ⟨hnot, hV⟩
  · obtain ⟨p, hp, rfl⟩ := List.mem_map.mp hp'
    have hslots : ((Opener.entries (Context.ofClasses cs) c (.ofMethod m)).map (·.1)).Nodup :=
      List.Nodup.of_map Slot.name (by simpa [Opener.entries, Function.comp_def, Slot.name] using hn)
    obtain ⟨e, he, hev⟩ := hplaced.entry hslots (List.mem_map_of_mem hp)
    have hfound : T.bagOf? m.id = some inner := hplaced.found
    simp only [BagTree.fillParam, hfound] at hτ
    refine ⟨e, ?_, Entry.shows_of_eq (h.candidates_eq he hev hτ)⟩
    exact (hplaced.get?_own h.ordered hclass (List.mem_map.mpr ⟨_, List.mem_map_of_mem hp, rfl⟩)).trans he
  · rw [hplaced.get?_outer h.ordered hclass (by simpa [Opener.entries, BagTree.fillParam] using hnot)]
    exact hs x τ hV

/-- What a class sees is in sight from its bag. -/
theorem sights_class (h : Legible cs T ctx') (hc : c ∈ cs)
    (hplaced : Placed (Context.ofClasses cs) T c .ofClass none bag)
    (hV : ∀ x τ, V x = some τ → Sees ctx' c.name x τ)
    (hstrict : strict → ∀ d ∈ cs, ∀ a ∈ d.attributes, a.ty = TypeName.selfType →
      ∀ C, (Context.ofClasses cs).Descends C d.name → C = d.name) :
    Sights strict (Context.ofClasses cs) T bag V := by
  intro x τ hx
  cases hV x τ hx with
  | self _ =>
      obtain ⟨e, he, hev⟩ := hplaced.entry (h.class_slots_nodup hc) List.mem_cons_self
      refine ⟨e, ?_, Entry.shows_of_eq (by rw [hev.fixed rfl]; rfl)⟩
      rw [BagTree.get?, h.ordered.resolve?_root _ _ hplaced.parent, if_pos, Option.bind_some, he]
      exact (hplaced.holds.has _).mpr List.mem_cons_self
  | @attr D a' _ hD ha' hτ =>
      obtain ⟨d, hd, rfl, a, ha, hname, hty⟩ := h.attributes ha'
      obtain ⟨owner, howner, _⟩ := h.nested hd
      have hcd := h.descends.mp hD
      have hmem : (Slot.var a.name, Seed.entry (Context.ofClasses cs) d.name a.ty a.span) ∈
          Opener.ofClass.entries (Context.ofClasses cs) d :=
        List.mem_append_left _ (List.mem_cons_of_mem _ (List.mem_map_of_mem ha))
      obtain ⟨e, he, hev⟩ := howner.placed.entry (h.class_slots_nodup hd) hmem
      have hfound : T.bagOf? d.id = some owner := howner.placed.found
      rw [hfound] at hty
      rw [← hname, h.get?_attribute hc hplaced hd howner.placed hcd ha]
      refine ⟨e, he, ?_⟩
      rw [hty] at hτ
      rcases hτ.elsewhere with ⟨hself, rfl⟩ | hτ
      · have hcandidates := h.candidates_eq he hev (hself ▸ Denotes.self)
        refine ⟨d.name, hcandidates, hcd, fun hor => ?_⟩
        -- A placeholder is never read off as `SELF_TYPE`, so it was written.
        have hauto : a.ty ≠ TypeName.auto := by
          intro hauto
          have hjoined : e.joined (Context.ofClasses cs) = TypeName.selfType := by
            simpa [BagTree.filled?, hauto, he] using hself
          rw [Entry.joined, hcandidates] at hjoined
          exact (h.regular.proper (h.class_concrete hd)).2.1 hjoined
        have hwritten : a.ty = TypeName.selfType := by simpa [BagTree.filled?, hauto] using hself
        rcases hor with hs | hunlocked
        · exact hstrict hs d hd a ha hwritten c.name hcd
        · rw [hev.locked, entry_locked, hwritten] at hunlocked
          cases hunlocked
      · exact Entry.shows_of_eq (h.candidates_eq he hev (hτ d.name))

end Legible

end CoolTyping
