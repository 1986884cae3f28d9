import CoolTyping.Proofs.Declarations

/-!
# Conformance between concrete types

In the table of classes that fit together the concrete types are closed under parents, so no wildcard is
above any of them. There conformance is descent, and a join is a least common ancestor. Methods keep their
types from a class to its descendants.
-/

namespace CoolTyping

namespace Context

variable {ctx : Context} {a b t : TypeName}

/-- The concrete types form a tree of their own below `Object`, and there are three types besides. -/
structure Regular (ctx : Context) : Prop where
  rooted : ctx.Rooted
  known : ∀ {t}, ctx.contains t = true ↔
    t ∈ ctx.concreteTypes ∨ t = TypeName.auto ∨ t = TypeName.selfType ∨ t = TypeName.error
  basic : ∀ {t}, t ∈ Context.basic.concreteTypes → t ∈ ctx.concreteTypes
  proper : ∀ {t}, t ∈ ctx.concreteTypes →
    t ≠ TypeName.auto ∧ t ≠ TypeName.selfType ∧ t ≠ TypeName.error
  parents : ∀ {t p}, t ∈ ctx.concreteTypes → ctx.Parent t p → p ∈ ctx.concreteTypes

namespace Regular

theorem contains (h : ctx.Regular) (ht : t ∈ ctx.concreteTypes) : ctx.contains t = true :=
  h.known.mpr (Or.inl ht)

theorem isWildcard (h : ctx.Regular) (ht : t ∈ ctx.concreteTypes) : t.isWildcard = false := by
  obtain ⟨hauto, _, herror⟩ := h.proper ht
  simp [TypeName.isWildcard, hauto, herror]

theorem concrete_of_descends (h : ctx.Regular) (ha : a ∈ ctx.concreteTypes) (hab : ctx.Descends a b) :
    b ∈ ctx.concreteTypes := by
  induction hab with
  | refl => exact ha
  | tail _ hp ih => exact h.parents ih hp

theorem plain (h : ctx.Regular) (ht : t ∈ ctx.concreteTypes) : ctx.Plain t :=
  fun hx => h.isWildcard (h.concrete_of_descends ht hx)

theorem conforms_iff (h : ctx.Regular) (ha : a ∈ ctx.concreteTypes) (hb : b.isWildcard = false) :
    ctx.conforms a b = true ↔ ctx.Descends a b :=
  Context.conforms_iff (h.isWildcard ha) hb

theorem isJoin (h : ctx.Regular) (ha : a ∈ ctx.concreteTypes) (hb : b ∈ ctx.concreteTypes) :
    ctx.IsJoin a b (ctx.join a b) :=
  join_isJoin h.rooted (h.plain ha) (h.plain hb) (h.contains ha) (h.contains hb)

theorem join_concrete (h : ctx.Regular) (ha : a ∈ ctx.concreteTypes) (hb : b ∈ ctx.concreteTypes) :
    ctx.join a b ∈ ctx.concreteTypes :=
  h.concrete_of_descends ha (h.isJoin ha hb).left

theorem isJoin_iff (h : ctx.Regular) (ha : a ∈ ctx.concreteTypes) (hb : b ∈ ctx.concreteTypes) :
    ctx.IsJoin a b t ↔ ctx.join a b = t := by
  constructor
  · intro ht
    exact (h.isJoin ha hb).unique h.rooted ht (h.contains (h.join_concrete ha hb))
  · rintro rfl
    exact h.isJoin ha hb

theorem object (h : ctx.Regular) : TypeName.object ∈ ctx.concreteTypes := h.basic (by decide)

theorem int (h : ctx.Regular) : TypeName.int ∈ ctx.concreteTypes := h.basic (by decide)

theorem string (h : ctx.Regular) : TypeName.string ∈ ctx.concreteTypes := h.basic (by decide)

theorem bool (h : ctx.Regular) : TypeName.bool ∈ ctx.concreteTypes := h.basic (by decide)

end Regular

end Context

namespace ClassTable

variable {cs : List ClassDecl} {t : TypeName}

/-! ## Classes that fit together -/

/-- What is held about a type: it is a basic one, or a class as it is declared. -/
theorem info?_ofClasses {i : TypeInfo} (h : (Context.ofClasses cs).info? t = some i) :
    i.name = t ∧ (i ∈ Context.basic.types ∨ ∃ c ∈ cs, c.info = i) := by
  refine ⟨by simpa using List.find?_some h, ?_⟩
  simpa [Context.ofClasses] using List.mem_of_find?_eq_some h

theorem mem_ownAttributes {a : Attribute} (h : a ∈ (Context.ofClasses cs).ownAttributes t) :
    ∃ c ∈ cs, c.name = t ∧ ∃ d ∈ c.attributes, d.attribute = a := by
  unfold Context.ownAttributes at h
  cases hi : (Context.ofClasses cs).info? t with
  | none =>
      rw [hi] at h
      exact absurd h List.not_mem_nil
  | some i =>
      rw [hi] at h
      obtain ⟨hname, hbasic | ⟨c, hc, rfl⟩⟩ := info?_ofClasses hi
      · have hnone : ∀ i ∈ Context.basic.types, i.attributes = [] := by decide
        rw [Option.elim_some, hnone i hbasic] at h
        exact absurd h List.not_mem_nil
      · exact ⟨c, hc, hname, List.mem_map.mp h⟩

theorem mem_ownMethods {m : Signature} (h : m ∈ (Context.ofClasses cs).ownMethods t) :
    Context.IsBasicMethod m ∨ ∃ c ∈ cs, c.name = t ∧ ∃ d ∈ c.methods, d.signature = m := by
  unfold Context.ownMethods at h
  cases hi : (Context.ofClasses cs).info? t with
  | none =>
      rw [hi] at h
      exact absurd h List.not_mem_nil
  | some i =>
      rw [hi] at h
      obtain ⟨hname, hbasic | ⟨c, hc, rfl⟩⟩ := info?_ofClasses hi
      · exact Or.inl (Context.basic_methodsIn i hbasic m h)
      · exact Or.inr ⟨c, hc, hname, List.mem_map.mp h⟩

theorem parent_ofClasses {q : TypeName} (h : (Context.ofClasses cs).Parent t q) :
    q = TypeName.object ∨ ∃ c ∈ cs, c.name = t ∧ c.parentName = q := by
  obtain ⟨i, hi, hq⟩ := Option.bind_eq_some_iff.mp h
  obtain ⟨hname, hbasic | ⟨c, hc, rfl⟩⟩ := info?_ofClasses hi
  · have hall : ∀ i ∈ Context.basic.types, ∀ q ∈ i.parent, q = TypeName.object := by decide
    exact Or.inl (hall i hbasic q hq)
  · exact Or.inr ⟨c, hc, hname, Option.some.inj hq⟩

namespace Fitting

theorem wellFormed (h : Fitting cs) : WellFormed ⟨Context.ofClasses cs, cs.map some⟩ := by
  have hbuild := build_wellFormed ⟨cs⟩
  rwa [Fitting.build_eq (p := ⟨cs⟩) h] at hbuild

theorem rooted (h : Fitting cs) : (Context.ofClasses cs).Rooted := by
  have hbuild := build_rooted ⟨cs⟩
  rwa [Fitting.build_eq (p := ⟨cs⟩) h] at hbuild

theorem labels_eq (cs : List ClassDecl) :
    (Context.ofClasses cs).labels = Context.basic.labels ++ cs.map label := by
  simp [Context.labels, Context.ofClasses, ClassDecl.info, label]

/-- A class may only have a concrete type or `<error>` as its parent. -/
theorem parentName_concrete (h : Fitting cs) {c : ClassDecl} (hc : c ∈ cs)
    (herror : c.parent ≠ some TypeName.error) : c.parentName ∈ (Context.ofClasses cs).concreteTypes := by
  obtain ⟨kind, hl, hk⟩ := h.parents c hc
  refine Context.mem_concreteTypes.mpr ⟨kind, hl, ?_⟩
  cases hkind : kind.isConcrete with
  | true => rfl
  | false =>
      rw [labels_eq, List.mem_append] at hl
      have hbasic : ∀ x ∈ Context.basic.labels, x.2.inheritable = true → x.2.isConcrete = false →
          x.1 = TypeName.error := by decide
      rcases hl with hl | hl
      · have hname : c.parentName = TypeName.error := hbasic _ hl hk hkind
        unfold ClassDecl.parentName at hname
        cases hparent : c.parent with
        | none =>
            rw [hparent] at hname
            exact absurd hname (by decide)
        | some q =>
            rw [hparent] at hname
            exact absurd (hparent.trans (congrArg some hname)) herror
      · obtain ⟨d, _, hd⟩ := List.mem_map.mp hl
        have hdeclared : TypeKind.declared = kind := congrArg Prod.snd hd
        subst hdeclared
        cases hkind

theorem regular (h : Fitting cs) (herror : ∀ c ∈ cs, c.parent ≠ some TypeName.error) :
    (Context.ofClasses cs).Regular where
  rooted := h.rooted
  known := h.wellFormed.known_iff
  basic := h.wellFormed.basic_concrete
  proper := h.wellFormed.concrete_ne
  parents {t p} _ hp := by
    rcases parent_ofClasses hp with rfl | ⟨c, hc, _, rfl⟩
    · exact h.wellFormed.basic_concrete (by decide)
    · exact h.parentName_concrete hc (herror c hc)

/-- A basic type that nothing may inherit from is the parent of no class. -/
theorem parentName_ne (h : Fitting cs) {c : ClassDecl} (hc : c ∈ cs) {t : TypeName}
    (ht : t ∈ Context.basic.names)
    (hsealed : ∀ x ∈ Context.basic.labels, x.1 = t → x.2.inheritable = false) : c.parentName ≠ t := by
  rintro rfl
  obtain ⟨kind, hl, hk⟩ := h.parents c hc
  rw [labels_eq, List.mem_append] at hl
  rcases hl with hl | hl
  · exact Bool.false_ne_true ((hsealed _ hl rfl).symm.trans hk)
  · obtain ⟨d, hd, heq⟩ := List.mem_map.mp hl
    have hname : d.name = c.parentName := congrArg Prod.fst heq
    exact h.names.not_basic hd (hname ▸ ht)

/-- Nothing descends from `Bool` but itself. -/
theorem eq_bool_of_descends (h : Fitting cs) (ht : (Context.ofClasses cs).Descends t TypeName.bool) :
    t = TypeName.bool := by
  rcases Relation.ReflTransGen.cases_tail ht with heq | ⟨x, _, hx⟩
  · exact heq.symm
  rcases parent_ofClasses hx with hobject | ⟨c, hc, _, hparent⟩
  · exact absurd hobject (by decide)
  · exact absurd hparent (h.parentName_ne hc (by decide) (by decide))

end Fitting

/-! ## Overriding methods -/

theorem info?_basic (cs : List ClassDecl) (ht : t ∈ Context.basic.names) :
    (Context.ofClasses cs).info? t = Context.basic.info? t := by
  obtain ⟨i, hi⟩ := Option.isSome_iff_exists.mp (Context.isSome_info? (Context.contains_iff.mpr ht))
  unfold Context.info? at hi ⊢
  rw [Context.ofClasses, List.find?_append, hi, Option.some_or]

/-- The methods of `Object` are the basic ones. -/
theorem hasMethod_object {name : String} {m : Signature}
    (h : (Context.ofClasses cs).HasMethod name TypeName.object m) :
    m ∈ Context.basic.ownMethods TypeName.object ∧ m.name = name := by
  have hinfo := info?_basic (t := TypeName.object) cs (by decide)
  cases h with
  | own hm =>
      rw [Context.ownMethod?, Context.ownMethods, hinfo] at hm
      exact ⟨List.mem_of_find?_eq_some hm, by simpa using List.find?_some hm⟩
  | inherited _ hp _ =>
      have hroot : Context.basic.parent? TypeName.object = none := by decide
      rw [Context.Parent, Context.parent?, hinfo] at hp
      exact absurd (hroot.symm.trans hp) (by simp)

/-- An own method agrees with the one that the parent has. -/
theorem agrees_of_parent {m n : Signature} {p : TypeName}
    (hm : ∀ c ∈ cs, mismatchReports (Context.ofClasses cs) c = [])
    (hp : (Context.ofClasses cs).Parent t p) (hown : m ∈ (Context.ofClasses cs).ownMethods t)
    (hparent : (Context.ofClasses cs).HasMethod m.name p n) : m.agrees n = true := by
  obtain ⟨i, hi, hip⟩ := Option.bind_eq_some_iff.mp hp
  have hmethods := hown
  rw [Context.ownMethods, hi, Option.elim_some] at hmethods
  obtain ⟨rfl, hbasic | ⟨c, hc, rfl⟩⟩ := info?_ofClasses hi
  · -- A basic type has no method of the name of one of `Object`, its parent.
    have hall : ∀ i ∈ Context.basic.types, ∀ q ∈ i.parent, q = TypeName.object ∧ ∀ m ∈ i.methods,
        ∀ n ∈ Context.basic.ownMethods TypeName.object, n.name ≠ m.name := by decide
    obtain ⟨rfl, hnew⟩ := hall i hbasic p hip
    obtain ⟨hmem, hname⟩ := hasMethod_object hparent
    exact absurd hname (hnew m hmethods n hmem)
  · obtain ⟨owner, hfound⟩ := Context.hasMethod_iff.mp hparent
    have hnone := hm c hc
    have hp : (Context.ofClasses cs).parent? c.name = some p := hp
    rw [mismatchReports, hp, Option.elim_some, List.map_eq_nil_iff, mismatched,
      List.filterMap_eq_nil_iff] at hnone
    have hagrees := hnone m hown
    rw [hfound] at hagrees
    simpa using hagrees

/-- Where no method differs from an inherited one, a descendant has every method of its ancestor, with the
same types. -/
theorem hasMethod_of_descends {a b : TypeName} {name : String} {m : Signature}
    (hm : ∀ c ∈ cs, mismatchReports (Context.ofClasses cs) c = [])
    (hab : (Context.ofClasses cs).Descends a b) (hb : (Context.ofClasses cs).HasMethod name b m) :
    ∃ n, (Context.ofClasses cs).HasMethod name a n ∧ n.ret = m.ret ∧ n.paramTypes = m.paramTypes := by
  induction hab using Relation.ReflTransGen.head_induction_on with
  | refl => exact ⟨m, hb, rfl, rfl⟩
  | @head t p hp _ ih =>
      obtain ⟨n, hn, hret, hparams⟩ := ih
      cases hown : (Context.ofClasses cs).ownMethod? t name with
      | none => exact ⟨n, .inherited hown hp hn, hret, hparams⟩
      | some k =>
          have hname : k.name = name := by simpa using List.find?_some hown
          have hagrees := agrees_of_parent hm hp (List.mem_of_find?_eq_some hown) (hname ▸ hn)
          rw [Signature.agrees, Bool.and_eq_true, beq_iff_eq, beq_iff_eq] at hagrees
          exact ⟨k, .own hown, hagrees.1.trans hret, hagrees.2.trans hparams⟩

end ClassTable

end CoolTyping
