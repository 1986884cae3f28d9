import CoolTyping.Proofs.Cycles

/-!
# Joins of many types

Where no wildcard is above the types, their join is the least type that all of them descend from. So it
depends on neither the order nor the number of times in which they are joined.
-/

namespace CoolTyping

namespace Context

variable {ctx : Context} {a b c t : TypeName}

theorem Rooted.contains_of_descends (h : ctx.Rooted) (ha : ctx.contains a = true)
    (hab : ctx.Descends a b) : ctx.contains b = true := by
  obtain ⟨i, hi⟩ := descends_iff.mp hab
  obtain ⟨j, hj⟩ := descends_iff.mp (h.descends ha)
  by_cases hb : b = TypeName.object
  · rw [hb]
    exact h.known
  rcases Nat.le_total i j with hij | hji
  · obtain ⟨p, hp⟩ := parent_of_descends_ne (descends_or_of_above hi hj hij) hb
    exact contains_iff.mpr (mem_names_of_parent? hp)
  · exact absurd (h.eq_object (descends_or_of_above hj hi hji)) hb

theorem Plain.of_descends (h : ctx.Plain a) (hab : ctx.Descends a b) : ctx.Plain b :=
  fun hx => h (hab.trans hx)

/-- All links lead to `Object`, those of the basic types as they always do, and none leads to a type that
may have no children. -/
structure Settled (ctx : Context) : Prop where
  rooted : ctx.Rooted
  basics : ∀ t ∈ basic.names, ctx.parent? t = basic.parent? t
  unsealed : ∀ {t p}, ctx.Parent t p → p ∉ ClassTable.sealedTypes

theorem basic_unsealed {p : TypeName} (h : basic.Parent t p) : p ∉ ClassTable.sealedTypes := by
  have hparents : ∀ t ∈ basic.names, ∀ p ∈ basic.parent? t, p ∉ ClassTable.sealedTypes := by decide
  exact hparents t (mem_names_of_parent? h) p h

/-- The only wildcard that a type may be below is `<error>`. -/
theorem Settled.plain (h : ctx.Settled) (hauto : t ≠ TypeName.auto)
    (herror : ¬ ctx.Descends t TypeName.error) : ctx.Plain t := by
  intro x hx
  have hne : x ≠ TypeName.auto := by
    rintro rfl
    rcases Relation.ReflTransGen.cases_tail hx with heq | ⟨y, _, hy⟩
    · exact hauto heq.symm
    · exact h.unsealed hy (by decide)
  have hne' : x ≠ TypeName.error := by
    rintro rfl
    exact herror hx
  simp [TypeName.isWildcard, hne, hne']

/-- `c` is the least type that all of `ts` descend from. -/
structure IsJoinAll (ctx : Context) (ts : List TypeName) (c : TypeName) : Prop where
  above : ∀ t ∈ ts, ctx.Descends t c
  least : ∀ {d}, (∀ t ∈ ts, ctx.Descends t d) → ctx.Descends c d

/-- The join of two types, and then of the others, is the join of all. -/
theorem IsJoinAll.of_join {ts : List TypeName} (hjoin : ctx.IsJoin a b c)
    (h : ctx.IsJoinAll (c :: ts) t) : ctx.IsJoinAll (a :: b :: ts) t where
  above x hx := by
    have hct := h.above c List.mem_cons_self
    rcases List.mem_cons.mp hx with rfl | hx
    · exact hjoin.left.trans hct
    rcases List.mem_cons.mp hx with rfl | hx
    · exact hjoin.right.trans hct
    · exact h.above x (List.mem_cons_of_mem _ hx)
  least {d} hd := by
    refine h.least fun x hx => ?_
    rcases List.mem_cons.mp hx with rfl | hx
    · exact hjoin.least (hd a (by simp)) (hd b (by simp))
    · exact hd x (by simp [hx])

theorem joinAll_isJoinAll (hr : ctx.Rooted) (t : TypeName) (ts : List TypeName)
    (h : ∀ x ∈ t :: ts, ctx.contains x = true ∧ ctx.Plain x) :
    ctx.IsJoinAll (t :: ts) (ctx.joinAll (t :: ts)) := by
  induction ts generalizing t with
  | nil =>
      refine ⟨fun x hx => ?_, fun hd => hd t List.mem_cons_self⟩
      rw [List.mem_singleton.mp hx]
      exact .refl
  | cons u us ih =>
      obtain ⟨ht, hplain⟩ := h t (by simp)
      obtain ⟨hu, hplain'⟩ := h u (by simp)
      have hjoin := join_isJoin hr hplain hplain' ht hu
      refine .of_join hjoin (ih (ctx.join t u) fun x hx => ?_)
      rcases List.mem_cons.mp hx with rfl | hx
      · exact ⟨hr.contains_of_descends ht hjoin.left, hplain.of_descends hjoin.left⟩
      · exact h x (by simp [hx])

/-- The join of types depends only on which types they are. -/
theorem joinAll_perm (hr : ctx.Rooted) {ts us : List TypeName} (hperm : ts.Perm us)
    (h : ∀ x ∈ ts, ctx.contains x = true ∧ ctx.Plain x) : ctx.joinAll ts = ctx.joinAll us := by
  cases ts with
  | nil => rw [List.nil_perm.mp hperm]
  | cons t ts =>
      cases us with
      | nil => exact absurd hperm.symm.nil_eq (by simp)
      | cons u us =>
          have hts := joinAll_isJoinAll hr t ts h
          have hus := joinAll_isJoinAll hr u us fun x hx => h x (hperm.mem_iff.mpr hx)
          refine hr.antisymm (hts.least fun x hx => hus.above x (hperm.mem_iff.mp hx))
            (hus.least fun x hx => hts.above x (hperm.mem_iff.mpr hx)) ?_
          exact hr.contains_of_descends (h t (by simp)).1 (hts.above t (by simp))

end Context

namespace ClassTable

theorem outcome_not_sealed (cs : List ClassDecl) (c : ClassDecl) : (outcome cs c).1 ∉ sealedTypes := by
  have hobject : TypeName.object ∉ sealedTypes := by decide
  have herror : TypeName.error ∉ sealedTypes := by decide
  rcases outcome_cases cs c with
    ⟨_, h⟩ | ⟨q, _, ⟨_, h⟩ | ⟨_, ⟨_, h⟩ | ⟨hq, ⟨_, h⟩ | ⟨_, h⟩⟩⟩⟩ <;> rw [h]
  · exact hobject
  · exact herror
  · exact hobject
  · exact hobject
  · exact hq

/-- In a class table the basic types are where they were, and no class ends below a sealed type. -/
theorem build_settled (p : Program) : (build p).value.context.Settled := by
  have hlinking := ((register_linking p.classes).run (register_namesOk p.classes)).2
  have hbasics : ∀ t ∈ Context.basic.names, (build p).value.context.parent? t = Context.basic.parent? t :=
    fun t ht => (build_links p t).trans (hlinking.basics t ht)
  refine ⟨build_rooted p, hbasics, fun {x q} hx => ?_⟩
  have hlink : (register Context.basic p.classes).value.linked.parent? x = some q :=
    (build_links p x).symm.trans hx
  have hknown := hlinking.contains_iff.mp (Context.contains_iff.mpr (Context.mem_names_of_parent? hlink))
  rcases mem_names_ofClasses.mp (Context.contains_iff.mp hknown) with hbasic | hclass
  · exact Context.basic_unsealed ((hbasics x hbasic).symm.trans hx)
  · obtain ⟨c, hc, rfl⟩ := List.mem_map.mp hclass
    rw [← Option.some.inj ((hlinking.linked c hc).symm.trans hlink)]
    exact outcome_not_sealed _ c

/-- In a class table, a concrete type that is not below `<error>` is below no wildcard. -/
theorem build_plain (p : Program) {t : TypeName} (ht : t ∈ (build p).value.context.concreteTypes)
    (herror : ¬ (build p).value.context.Descends t TypeName.error) : (build p).value.context.Plain t :=
  (build_settled p).plain ((build_wellFormed p).concrete_ne ht).1 herror

end ClassTable

end CoolTyping
