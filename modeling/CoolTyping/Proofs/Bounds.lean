import CoolTyping.Proofs.Joins
import CoolTyping.Proofs.Operations

/-!
# Least upper bounds

In a context that is made by creating types and linking them, the basic types stay directly below `Object`,
and nothing is below a placeholder. There the join of two types is the least type that both conform to,
wildcards included, and it does not matter which of the two comes first: climbing from either side ends at
the same type, even where it ends at `<error>`.
-/

namespace CoolTyping

theorem TypeName.isWildcard_iff {t : TypeName} :
    t.isWildcard = true ↔ t = TypeName.error ∨ t = TypeName.auto := by
  simp [isWildcard]

namespace Context

variable {ctx ctx' : Context} {a b c d t : TypeName}

theorem conforms_of_descends (h : ctx.Descends a b) : ctx.conforms a b = true := by
  simp [conforms, mem_ancestors.mpr h]

theorem conforms_wildcard (h : b.isWildcard = true) : ctx.conforms a b = true := by
  simp [conforms, h]

theorem wildcard_conforms (h : a.isWildcard = true) : ctx.conforms a b = true := by
  simp [conforms, h]

theorem join_self (ctx : Context) (a : TypeName) : ctx.join a a = a := by
  cases ha : a.isWildcard with
  | true =>
      rw [join_wildcards ha ha]
      rcases TypeName.isWildcard_iff.mp ha with rfl | rfl <;> decide
  | false =>
      by_cases hobject : a = TypeName.object ∨ a = TypeName.object
      · rw [join_object ha ha hobject, or_self_iff.mp hobject]
      · have hclimb : ctx.climb a a = some a := by
          simp [climb, ancestors, ancestorsN, or_self_iff.not.mp hobject, conforms]
        rw [join_climb ha ha hobject, hclimb]
        rfl

/-! ## The join of two types -/

/-- `c` is the least type that both `a` and `b` conform to. -/
structure IsLeastBound (ctx : Context) (a b c : TypeName) : Prop where
  left : ctx.conforms a c = true
  right : ctx.conforms b c = true
  least : ∀ d, ctx.conforms a d = true → ctx.conforms b d = true → ctx.conforms c d = true

theorem IsLeastBound.symm (h : ctx.IsLeastBound a b c) : ctx.IsLeastBound b a c :=
  ⟨h.right, h.left, fun d hb ha => h.least d ha hb⟩

theorem isLeastBound_of_climb (ha : a.isWildcard = false) (h : ctx.climb a b = some c) :
    ctx.IsLeastBound a b c := by
  obtain ⟨hac, _, hbc, hleast⟩ := climb_eq_some h
  refine ⟨conforms_of_descends hac, hbc, fun d had hbd => ?_⟩
  cases hd : d.isWildcard with
  | true => exact conforms_wildcard hd
  | false => exact conforms_of_descends (hleast ((conforms_iff ha hd).mp had) hbd)

namespace Settled

variable (h : ctx.Settled)
include h

theorem join_isLeastBound (ha : ctx.contains a = true) (hb : ctx.contains b = true) :
    ctx.IsLeastBound a b (ctx.join a b) := by
  have hself : ∀ x, ctx.conforms x x = true := fun x => conforms_of_descends .refl
  cases hwa : a.isWildcard with
  | true =>
      cases hwb : b.isWildcard with
      | true =>
          have hwild : (ctx.join a b).isWildcard = true := by
            rw [join_wildcards hwa hwb]
            split <;> decide
          exact ⟨conforms_wildcard hwild, conforms_wildcard hwild, fun _ _ _ => wildcard_conforms hwild⟩
      | false =>
          rw [join_wildcard_left hwa hwb]
          exact ⟨wildcard_conforms hwa, hself b, fun _ _ hbd => hbd⟩
  | false =>
      cases hwb : b.isWildcard with
      | true =>
          rw [join_wildcard_right hwa hwb]
          exact ⟨hself a, wildcard_conforms hwb, fun _ had _ => had⟩
      | false =>
          have hao := conforms_of_descends (h.rooted.descends ha)
          have hbo := conforms_of_descends (h.rooted.descends hb)
          by_cases hobject : a = TypeName.object ∨ b = TypeName.object
          · rw [join_object hwa hwb hobject]
            refine ⟨hao, hbo, fun d had hbd => ?_⟩
            rcases hobject with rfl | rfl
            · exact had
            · exact hbd
          · rw [join_climb hwa hwb hobject]
            cases hab : ctx.climb a b with
            | some c => exact isLeastBound_of_climb hwa hab
            | none =>
                cases hba : ctx.climb b a with
                | some c => exact (isLeastBound_of_climb hwb hba).symm
                | none =>
                    refine ⟨hao, hbo, fun d had hbd => ?_⟩
                    cases hwd : d.isWildcard with
                    | true => exact conforms_wildcard hwd
                    | false =>
                        rw [eq_object_of_climb h.rooted hab ((conforms_iff hwa hwd).mp had) hbd]
                        exact hself _

/-- Above `<error>` there is only `Object`. -/
theorem eq_object_of_descends_error (hd : ctx.Descends TypeName.error d) (hne : d ≠ TypeName.error) :
    d = TypeName.object := by
  rcases hd.cases_head with heq | ⟨p, hp, hd⟩
  · exact absurd heq.symm hne
  · have hparent : ctx.parent? TypeName.error = some TypeName.object := h.basics TypeName.error (by decide)
    obtain rfl := Option.some.inj (hp.symm.trans hparent)
    exact h.rooted.eq_object hd

theorem eq_error_of_descends (ha : a.isWildcard = false) (hd : ctx.Descends a d)
    (hw : d.isWildcard = true) : d = TypeName.error := by
  rcases TypeName.isWildcard_iff.mp hw with hd' | rfl
  · exact hd'
  · rcases hd.cases_tail with rfl | ⟨x, _, hx⟩
    · exact absurd (hw.symm.trans ha) (by simp)
    · exact absurd (h.unsealed hx) (by decide)

/-- If climbing from one side ends at `<error>`, then it does from the other side too. -/
theorem climb_wildcard {e : TypeName} (ha : a.isWildcard = false) (hab : ctx.climb a b = some c)
    (hba : ctx.climb b a = some e) (hc : c.isWildcard = true) : e.isWildcard = true := by
  obtain ⟨hac, _, _, hleast⟩ := climb_eq_some hab
  obtain ⟨hbe, hobject, hae, _⟩ := climb_eq_some hba
  obtain rfl := h.eq_error_of_descends ha hac hc
  by_contra he
  rw [Bool.not_eq_true] at he
  have hce := hleast ((conforms_iff ha he).mp hae) (conforms_of_descends hbe)
  exact hobject (h.eq_object_of_descends_error hce fun heq => by simp [heq, TypeName.isWildcard] at he)

/-- Climbing ends at the same type from both sides, if it does not fail from one of them. -/
theorem climb_unique {e : TypeName} (ha : a.isWildcard = false) (hb : b.isWildcard = false)
    (hknown : ctx.contains a = true) (hab : ctx.climb a b = some c) (hba : ctx.climb b a = some e) :
    c = e := by
  have hac := (climb_eq_some hab).1
  have hbe := (climb_eq_some hba).1
  cases hc : c.isWildcard with
  | true =>
      have he := h.climb_wildcard ha hab hba hc
      rw [h.eq_error_of_descends ha hac hc, h.eq_error_of_descends hb hbe he]
  | false =>
      cases he : e.isWildcard with
      | true => exact absurd ((h.climb_wildcard hb hba hab he).symm.trans hc) (by simp)
      | false =>
          have hboundc := isLeastBound_of_climb ha hab
          have hbounde := (isLeastBound_of_climb hb hba).symm
          exact h.rooted.antisymm ((conforms_iff hc he).mp (hboundc.least e hbounde.left hbounde.right))
            ((conforms_iff he hc).mp (hbounde.least c hboundc.left hboundc.right))
            (h.rooted.contains_of_descends hknown hac)

theorem join_symm (ha : ctx.contains a = true) : ctx.join b a = ctx.join a b := by
  cases hwa : a.isWildcard with
  | true =>
      cases hwb : b.isWildcard with
      | true => simp only [join_wildcards hwa hwb, join_wildcards hwb hwa, or_comm]
      | false => rw [join_wildcard_left hwa hwb, join_wildcard_right hwb hwa]
  | false =>
      cases hwb : b.isWildcard with
      | true => rw [join_wildcard_right hwa hwb, join_wildcard_left hwb hwa]
      | false =>
          by_cases hobject : a = TypeName.object ∨ b = TypeName.object
          · rw [join_object hwa hwb hobject, join_object hwb hwa hobject.symm]
          · rw [join_climb hwa hwb hobject, join_climb hwb hwa (mt Or.symm hobject)]
            cases hab : ctx.climb a b with
            | none => simp
            | some c =>
                cases hba : ctx.climb b a with
                | none => rfl
                | some e => exact (h.climb_unique hwa hwb ha hab hba).symm

end Settled

/-- The join of two types is the first one that a walk from `a` has in common with a walk from `b`. -/
theorem IsJoin.find?_ancestors (hr : ctx.Rooted) (hjoin : ctx.IsJoin a b c) (ha : ctx.contains a = true) :
    (ctx.ancestors a).find? (ctx.ancestors b).contains = some c := by
  have hfound : ((ctx.ancestors a).find? (ctx.ancestors b).contains).isSome = true := by
    rw [List.find?_isSome]
    exact ⟨c, mem_ancestors.mpr hjoin.left, by simpa using mem_ancestors.mpr hjoin.right⟩
  obtain ⟨e, he⟩ := Option.isSome_iff_exists.mp hfound
  obtain ⟨hbe, as, bs, hwalk, hbefore⟩ := List.find?_eq_some_iff_append.mp he
  have hae : e ∈ ctx.ancestors a := List.mem_of_find?_eq_some he
  have hce := hjoin.least (mem_ancestors.mp hae) (mem_ancestors.mp (by simpa using hbe))
  have hec : ctx.Descends e c := by
    have hc := mem_ancestors.mpr hjoin.left
    rw [hwalk, List.mem_append] at hc
    rcases hc with hc | hc
    · have hnot := hbefore c hc
      simp [mem_ancestors.mpr hjoin.right] at hnot
    · exact descends_of_split hwalk c hc
  rw [he, hr.antisymm hec hce (hr.contains_of_descends ha (mem_ancestors.mp hae))]

/-! ## Contexts made by operations -/

/-- Whether an operation leaves the parents of the basic types alone. A type that is not basic is known only
once it was created. -/
def Operation.sparesBasics : Operation → Bool
  | .setParent t _ => !basic.contains t
  | _ => true

/-- What holds of a context in which only created types were linked. -/
structure Grown (ctx : Context) : Prop extends Orderly ctx, Settled ctx where
  labels : basic.labels ⊆ ctx.labels

theorem basic_grown : basic.Grown where
  toOrderly := basic_orderly
  basics _ _ := rfl
  unsealed := basic_unsealed
  labels := List.Subset.refl _

namespace Grown

theorem contains_basic (h : ctx.Grown) (ht : t ∈ basic.names) : ctx.contains t = true := by
  obtain ⟨kind, hl⟩ := mem_names.mp ht
  exact contains_iff.mpr (mem_names.mpr ⟨kind, h.labels hl⟩)

/-- A type that may have children is none of the sealed ones. -/
theorem not_sealed (h : ctx.Grown) (ht : (ctx.info? t).all (·.kind.inheritable) = true) :
    t ∉ ClassTable.sealedTypes := by
  intro hsealed
  have hkinds : ∀ t ∈ ClassTable.sealedTypes, ∃ l ∈ basic.labels, l.1 = t ∧ l.2.inheritable = false := by
    decide
  obtain ⟨l, hl, rfl, hkind⟩ := hkinds t hsealed
  obtain ⟨i, hi, rfl⟩ := List.mem_map.mp (h.labels hl)
  rw [info?_of_mem h.distinct hi] at ht
  exact Bool.false_ne_true (hkind.symm.trans ht)

theorem perform {op : Operation} (h : ctx.Grown) (hop : ctx.perform op = .ok ctx')
    (hspares : op.sparesBasics = true) : ctx'.Grown := by
  have horderly := h.toOrderly.perform hop
  rcases perform_cases hop with ⟨name, hcreate⟩ | ⟨t, parent, rfl, ht, _, _, hkind, rfl⟩ | ⟨t, f, hf, rfl⟩
  · obtain ⟨hfresh, htypes⟩ := create_eq_ok hcreate
    have hne : ∀ x ∈ basic.names, x ≠ name := by
      rintro x hx rfl
      exact Bool.false_ne_true (hfresh.symm.trans (h.contains_basic hx))
    refine ⟨horderly, fun x hx => ?_, fun {x p} hp => ?_, fun l hl => ?_⟩
    · rw [parent?_create hcreate, if_neg (hne x hx), h.basics x hx]
    · rw [Parent, parent?_create hcreate] at hp
      split at hp
      · cases hp
        decide
      · exact h.unsealed hp
    · rw [htypes, Context.labels, List.map_append]
      exact List.mem_append_left _ (h.labels hl)
  · have hne : ∀ x ∈ basic.names, x ≠ t := by
      rintro x hx rfl
      simp [Operation.sparesBasics, contains_iff.mpr hx] at hspares
    refine ⟨horderly, fun x hx => ?_, fun {x p} hp => ?_, by rw [labels_withParent]; exact h.labels⟩
    · rw [parent?_withParent _ ht, if_neg (hne x hx), h.basics x hx]
    · rw [Parent, parent?_withParent _ ht] at hp
      split at hp
      · cases hp
        exact h.not_sealed hkind
      · exact h.unsealed hp
  · have hlabels : (ctx.modify t f).labels = ctx.labels := labels_modify fun i => ⟨(hf i).1, (hf i).2.1⟩
    have hparents : ∀ x, (ctx.modify t f).parent? x = ctx.parent? x :=
      parent?_modify fun i => ⟨(hf i).1, (hf i).2.2⟩
    refine ⟨horderly, fun x hx => ?_, fun {x p} hp => ?_, by rw [hlabels]; exact h.labels⟩
    · rw [hparents, h.basics x hx]
    · exact h.unsealed ((hparents x).symm.trans hp)

theorem after {op : Operation} (h : ctx.Grown) (hspares : op.sparesBasics = true) : (ctx.after op).Grown := by
  rw [after_eq]
  cases hop : ctx.perform op with
  | error e => exact h
  | ok ctx' => exact h.perform hop hspares

theorem run (h : ctx.Grown) {ops : List Operation} (hspares : ops.all Operation.sparesBasics = true) :
    (ctx.run ops).Grown := by
  unfold Context.run
  induction ops generalizing ctx with
  | nil => exact h
  | cons op ops ih =>
      rw [List.all_cons, Bool.and_eq_true] at hspares
      exact ih (h.after hspares.1) hspares.2

end Grown

/-- What can be relied on about the joins of two types: they are least bounds, the sides do not matter, and
apart from wildcards and what is below `<error>`, walks from both sides meet there first. -/
structure HasJoins (ctx : Context) : Prop where
  bound : ∀ a ∈ ctx.names, ∀ b ∈ ctx.names, ctx.IsLeastBound a b (ctx.join a b)
  symm : ∀ a ∈ ctx.names, ∀ b ∈ ctx.names, ctx.join b a = ctx.join a b
  self : ∀ a ∈ ctx.names, ctx.join a a = a
  meet : ∀ a ∈ ctx.names, ∀ b ∈ ctx.names, a.isWildcard = false → b.isWildcard = false →
    TypeName.error ∉ ctx.ancestors a → TypeName.error ∉ ctx.ancestors b →
      (ctx.join a b).isWildcard = false ∧
        (ctx.ancestors a).find? (ctx.ancestors b).contains = some (ctx.join a b)

theorem Settled.hasJoins (h : ctx.Settled) : ctx.HasJoins where
  bound _ ha _ hb := h.join_isLeastBound (contains_iff.mpr ha) (contains_iff.mpr hb)
  symm _ ha _ _ := h.join_symm (contains_iff.mpr ha)
  self a _ := ctx.join_self a
  meet a ha b hb hwa hwb hea heb := by
    have hplain : ∀ {t}, t.isWildcard = false → TypeName.error ∉ ctx.ancestors t → ctx.Plain t := by
      intro t ht herror x hx
      have hauto : t ≠ TypeName.auto := fun heq => by simp [heq, TypeName.isWildcard] at ht
      exact h.plain hauto (fun hd => herror (mem_ancestors.mpr hd)) hx
    have hjoin := join_isJoin h.rooted (hplain hwa hea) (hplain hwb heb) (contains_iff.mpr ha)
      (contains_iff.mpr hb)
    exact ⟨hplain hwa hea hjoin.left, hjoin.find?_ancestors h.rooted (contains_iff.mpr ha)⟩

/-- Joins can be relied on in every context to which creating types and linking created ones leads. -/
theorem run_hasJoins {ops : List Operation} (hspares : ops.all Operation.sparesBasics = true) :
    (basic.run ops).HasJoins := (basic_grown.run hspares).toSettled.hasJoins

/-- Two classes below a third one, and one below `<error>`. -/
def forked : List Operation :=
  [.create "A", .create "B", .create "C", .create "U", .setParent "B" "A", .setParent "C" "A",
    .setParent "U" TypeName.error]

theorem forked_joins : forked.all Operation.sparesBasics = true ∧
    (basic.run forked).IsLeastBound "B" "U" TypeName.error ∧
    ((basic.run forked).ancestors "B").find? ((basic.run forked).ancestors "C").contains = some "A" := by
  have hspares : forked.all Operation.sparesBasics = true := by decide
  have herror : (basic.run forked).join "B" "U" = TypeName.error := by decide
  have hA : (basic.run forked).join "B" "C" = "A" := by decide
  have hjoins := run_hasJoins hspares
  refine ⟨hspares, ?_, ?_⟩
  · rw [← herror]
    exact hjoins.bound "B" (by decide) "U" (by decide)
  · rw [← hA]
    exact (hjoins.meet "B" (by decide) "C" (by decide) (by decide) (by decide) (by decide) (by decide)).2

end Context

end CoolTyping
