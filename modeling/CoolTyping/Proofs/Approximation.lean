import CoolTyping.Proofs.Fillings
import CoolTyping.Proofs.Visits

/-!
# Placeholders as approximations

Where a placeholder is in sight, the strict check finds a type that approximates the one it would find in
a filling: a wildcard, or a type below it. A single check accepts the approximation if it accepts the type
itself. The exception is a comparison, which asks for conformance in one direction or the other: a type below
may fit in neither.
-/

namespace CoolTyping

open Reporting

/-! ## Approximations of a type -/

namespace Context

variable {ctx : Context} {a a' b b' t t' : TypeName}

/-- What the strict check may find. -/
def Findable (ctx : Context) (t : TypeName) : Prop :=
  t ∈ ctx.concreteTypes ∨ t = TypeName.auto ∨ t = TypeName.error

/-- `t` is found with placeholders where `t'` is found once they are filled. -/
inductive Approximates (ctx : Context) : TypeName → TypeName → Prop
  | auto {t' : TypeName} : ctx.Findable t' → Approximates ctx TypeName.auto t'
  | error {t' : TypeName} : ctx.Findable t' → t' ≠ TypeName.auto → Approximates ctx TypeName.error t'
  | below {t t' : TypeName} : t ∈ ctx.concreteTypes → ctx.Descends t t' → Approximates ctx t t'

namespace Approximates

theorem refl (h : ctx.Findable t) : ctx.Approximates t t := by
  rcases h with h | rfl | rfl
  · exact .below h .refl
  · exact .auto (Or.inr (Or.inl rfl))
  · exact .error (Or.inr (Or.inr rfl)) (by decide)

theorem findable (h : ctx.Approximates t t') (hr : ctx.Regular) : ctx.Findable t' := by
  cases h with
  | auto h => exact h
  | error h _ => exact h
  | below ht hle => exact Or.inl (hr.concrete_of_descends ht hle)

theorem ne_auto (h : ctx.Approximates t t') (hr : ctx.Regular) (ht : t ≠ TypeName.auto) :
    t' ≠ TypeName.auto := by
  cases h with
  | auto _ => exact absurd rfl ht
  | error _ h => exact h
  | below hconcrete hle => exact (hr.proper (hr.concrete_of_descends hconcrete hle)).1

theorem eq_error (h : ctx.Approximates t TypeName.error) (hr : ctx.Regular)
    (ht : t ≠ TypeName.auto) : t = TypeName.error := by
  cases h with
  | auto _ => exact absurd rfl ht
  | error _ _ => rfl
  | below hconcrete hle => exact absurd rfl (hr.proper (hr.concrete_of_descends hconcrete hle)).2.2

theorem conforms (h : ctx.Approximates t t') (hr : ctx.Regular) {u : TypeName}
    (hu : ctx.conforms t' u = true) : ctx.conforms t u = true := by
  cases h with
  | auto _ => simp [Context.conforms, TypeName.isWildcard]
  | error _ _ => simp [Context.conforms, TypeName.isWildcard]
  | below ht hle =>
      cases hw : u.isWildcard with
      | true => simp [Context.conforms, hw]
      | false =>
          have ht' := hr.concrete_of_descends ht hle
          exact (hr.conforms_iff ht hw).mpr (hle.trans ((hr.conforms_iff ht' hw).mp hu))

end Approximates

/-! ## Joins of approximations -/

theorem Findable.isWildcard (h : ctx.Findable t) (ht : t ∉ ctx.concreteTypes) :
    t.isWildcard = true := by
  rcases h with h | rfl | rfl
  · exact absurd h ht
  · rfl
  · rfl

namespace Regular

theorem descends_join_left (hr : ctx.Regular) (ha : a ∈ ctx.concreteTypes) (hb : ctx.Findable b) :
    ctx.Descends a (ctx.join a b) := by
  by_cases hconcrete : b ∈ ctx.concreteTypes
  · exact (hr.isJoin ha hconcrete).left
  · rw [join_wildcard_right (hr.isWildcard ha) (hb.isWildcard hconcrete)]
    exact .refl

theorem descends_join_right (hr : ctx.Regular) (ha : ctx.Findable a) (hb : b ∈ ctx.concreteTypes) :
    ctx.Descends b (ctx.join a b) := by
  by_cases hconcrete : a ∈ ctx.concreteTypes
  · exact (hr.isJoin hconcrete hb).right
  · rw [join_wildcard_left (ha.isWildcard hconcrete) (hr.isWildcard hb)]
    exact .refl

theorem join_findable (hr : ctx.Regular) (ha : ctx.Findable a) (hb : ctx.Findable b) :
    ctx.Findable (ctx.join a b) := by
  by_cases hca : a ∈ ctx.concreteTypes
  · exact Or.inl (hr.concrete_of_descends hca (hr.descends_join_left hca hb))
  by_cases hcb : b ∈ ctx.concreteTypes
  · exact Or.inl (hr.concrete_of_descends hcb (hr.descends_join_right ha hcb))
  rw [join_wildcards (ha.isWildcard hca) (hb.isWildcard hcb)]
  split
  · exact Or.inr (Or.inr rfl)
  · exact Or.inr (Or.inl rfl)

theorem join_ne_auto (hr : ctx.Regular) (ha : ctx.Findable a) (hb : ctx.Findable b)
    (h : a ≠ TypeName.auto ∨ b ≠ TypeName.auto) : ctx.join a b ≠ TypeName.auto := by
  by_cases hca : a ∈ ctx.concreteTypes
  · exact (hr.proper (hr.concrete_of_descends hca (hr.descends_join_left hca hb))).1
  by_cases hcb : b ∈ ctx.concreteTypes
  · exact (hr.proper (hr.concrete_of_descends hcb (hr.descends_join_right ha hcb))).1
  have herror : a = TypeName.error ∨ b = TypeName.error :=
    h.imp (fun hne => (ha.resolve_left hca).resolve_left hne)
      fun hne => (hb.resolve_left hcb).resolve_left hne
  rw [join_wildcards (ha.isWildcard hca) (hb.isWildcard hcb), if_pos herror]
  decide

/-- A join of approximations approximates the join. -/
theorem join_approximates (hr : ctx.Regular) (ha : ctx.Approximates a a')
    (hb : ctx.Approximates b b') : ctx.Approximates (ctx.join a b) (ctx.join a' b') := by
  have hfa := ha.findable hr
  have hfb := hb.findable hr
  have hf := hr.join_findable hfa hfb
  have herror : ∀ {t}, t = TypeName.error → a' ≠ TypeName.auto ∨ b' ≠ TypeName.auto →
      ctx.Approximates t (ctx.join a' b') := by
    rintro _ rfl hne
    exact .error hf (hr.join_ne_auto hfa hfb hne)
  cases ha with
  | auto _ =>
      cases hb with
      | auto _ => exact .auto hf
      | error _ hne => exact herror rfl (Or.inr hne)
      | below hcb hle =>
          rw [join_wildcard_left rfl (hr.isWildcard hcb)]
          exact .below hcb (hle.trans (hr.descends_join_right hfa (hr.concrete_of_descends hcb hle)))
  | error _ hne =>
      cases hb with
      | auto _ => exact herror rfl (Or.inl hne)
      | error _ _ => exact herror rfl (Or.inl hne)
      | below hcb hle =>
          rw [join_wildcard_left rfl (hr.isWildcard hcb)]
          exact .below hcb (hle.trans (hr.descends_join_right hfa (hr.concrete_of_descends hcb hle)))
  | below hca hle =>
      have hca' := hr.concrete_of_descends hca hle
      have hleft := hle.trans (hr.descends_join_left hca' hfb)
      cases hb with
      | auto _ =>
          rw [join_wildcard_right (hr.isWildcard hca) rfl]
          exact .below hca hleft
      | error _ _ =>
          rw [join_wildcard_right (hr.isWildcard hca) rfl]
          exact .below hca hleft
      | below hcb hle' =>
          have hcb' := hr.concrete_of_descends hcb hle'
          exact .below (hr.join_concrete hca hcb)
            ((hr.isJoin hca hcb).least hleft (hle'.trans (hr.descends_join_right hfa hcb')))

theorem joinAll_approximates (hr : ctx.Regular) {ts ts' : List TypeName}
    (h : List.Forall₂ ctx.Approximates ts ts') :
    ctx.Approximates (ctx.joinAll ts) (ctx.joinAll ts') := by
  cases h with
  | nil => exact .refl (Or.inl hr.object)
  | cons ht hts =>
      exact List.rel_foldl (P := ctx.Approximates) (R := ctx.Approximates)
        (fun _ _ ha _ _ hb => hr.join_approximates ha hb) ht hts

end Regular

/-- An approximation that is exact, or a placeholder, unless it is blurred by a join. -/
structure Tracks (ctx : Context) (blurred : Bool) (t t' : TypeName) : Prop where
  approximates : ctx.Approximates t t'
  sharp : blurred = false → t = TypeName.auto ∨ t = t'

theorem Tracks.refl (h : ctx.Findable t) (blurred : Bool) : ctx.Tracks blurred t t :=
  ⟨.refl h, fun _ => Or.inr rfl⟩

theorem Tracks.join (hr : ctx.Regular) {p q : Bool} (ha : ctx.Tracks p a a') (hb : ctx.Tracks q b b') :
    ctx.Tracks (a == TypeName.auto || b == TypeName.auto || p || q) (ctx.join a b)
      (ctx.join a' b') := by
  refine ⟨hr.join_approximates ha.approximates hb.approximates, fun h => Or.inr ?_⟩
  simp only [Bool.or_eq_false_iff, beq_eq_false_iff_ne] at h
  obtain ⟨⟨⟨hane, hbne⟩, hp⟩, hq⟩ := h
  rw [(ha.sharp hp).resolve_left hane, (hb.sharp hq).resolve_left hbne]

/-- The types of a variable: the one that is found is exact or a placeholder. -/
structure Declares (ctx : Context) (t t' : TypeName) : Prop where
  eq_or : t = TypeName.auto ∨ t = t'
  findable : ctx.Findable t'
  ne_auto : t' ≠ TypeName.auto

theorem Declares.tracks (h : ctx.Declares t t') : ctx.Tracks false t t' := by
  refine ⟨?_, fun _ => h.eq_or⟩
  rcases h.eq_or with rfl | rfl
  · exact .auto h.findable
  · exact .refl h.findable

end Context

/-! ## Contexts -/

/-- `ctx'` is the context of a filling that was built without a report. -/
structure Context.Completion (U : List TypeName) (ctx ctx' : Context) : Prop where
  filled : Context.Filled U ctx ctx'
  regular : ctx'.Regular
  concrete : ∀ {t}, t ∈ U → t ∈ ctx'.concreteTypes
  results : ∀ {t m}, m ∈ ctx'.ownMethods t → ctx'.contains m.ret = true
  stable : ∀ {a b name m}, ctx'.Descends a b → ctx'.HasMethod name b m →
    ∃ n, ctx'.HasMethod name a n ∧ n.ret = m.ret ∧ n.paramTypes = m.paramTypes
  error : ∀ {name m}, ctx'.HasMethod name TypeName.error m → ctx'.HasMethod name TypeName.object m
  bool : ∀ {t}, ctx'.Descends t TypeName.bool → t = TypeName.bool

theorem Context.HasMethod.unique {ctx : Context} {name : String} {t : TypeName} {m n : Signature}
    (hm : ctx.HasMethod name t m) (hn : ctx.HasMethod name t n) : m = n := by
  obtain ⟨_, hm⟩ := Context.hasMethod_iff.mp hm
  obtain ⟨_, hn⟩ := Context.hasMethod_iff.mp hn
  exact congrArg Prod.snd (Option.some.inj (hm.symm.trans hn))

theorem Context.Regular.resolveSelf_findable {ctx : Context} (hr : ctx.Regular) {t R : TypeName}
    (ht : ctx.contains t = true) (hR : ctx.Findable R) : ctx.Findable (t.resolveSelf R) := by
  unfold TypeName.resolveSelf
  split
  · exact hR
  · rename_i hne
    rcases hr.known.mp ht with h | rfl | rfl | rfl
    · exact Or.inl h
    · exact Or.inr (Or.inl rfl)
    · exact absurd rfl hne
    · exact Or.inr (Or.inr rfl)

/-- The expected types, as far as they are known, are exact or placeholders. -/
inductive Relaxes : List TypeName → List TypeName → Prop
  | nil {ts'} : Relaxes [] ts'
  | cons {t t' ts ts'} : t = TypeName.auto ∨ t = t' → Relaxes ts ts' → Relaxes (t :: ts) (t' :: ts')

theorem relaxes_of_filled {U ts ts' : List TypeName} (h : List.Forall₂ (TypeName.Filled U) ts ts') :
    Relaxes ts ts' := by
  induction h with
  | nil => exact .nil
  | cons ht _ ih => exact .cons ht.eq_or ih

/-- A call that fits `m'` fits `m`. -/
structure Signature.Relaxes (m m' : Signature) : Prop where
  ret : m.ret = TypeName.auto ∨ m.ret = m'.ret
  paramTypes : CoolTyping.Relaxes m.paramTypes m'.paramTypes
  arity : m.arity = m'.arity

theorem Signature.Filled.relaxes {U : List TypeName} {m k m' : Signature} (h : m.Filled U k)
    (hret : k.ret = m'.ret) (hparams : k.paramTypes = m'.paramTypes) : m.Relaxes m' where
  ret := hret ▸ h.ret.eq_or
  paramTypes := hparams ▸ relaxes_of_filled h.paramTypes
  arity := by rw [← m.length_paramTypes, ← m'.length_paramTypes, ← hparams, h.paramTypes.length_eq]

namespace Context.Completion

variable {U : List TypeName} {ctx ctx' : Context} {t t' R R' : TypeName} {name : String}
  {m m' : Signature}

theorem ne_auto (hc : Completion U ctx ctx') (h : TypeName.Filled U t t') : t' ≠ TypeName.auto :=
  h.ne_auto fun hauto => (hc.regular.proper (hc.concrete hauto)).1 rfl

theorem contains (hc : Completion U ctx ctx') (ht : TypeName.Filled U t t')
    (h : ctx'.contains t' = true) : ctx.contains t = true :=
  hc.filled.contains_of_filled (hc.regular.known.mpr (Or.inr (Or.inl rfl))) ht h

theorem declares_resolveSelf (hc : Completion U ctx ctx') (ht : TypeName.Filled U t t')
    (h : ctx'.contains t' = true) {C : TypeName} (hC : C ∈ ctx'.concreteTypes) :
    ctx'.Declares (t.resolveSelf C) (t'.resolveSelf C) where
  eq_or := by
    rcases ht.eq_or with rfl | rfl
    · exact Or.inl rfl
    · exact Or.inr rfl
  findable := hc.regular.resolveSelf_findable h (Or.inl hC)
  ne_auto := by
    unfold TypeName.resolveSelf
    split
    · exact (hc.regular.proper hC).1
    · exact hc.ne_auto ht

theorem result_findable (hc : Completion U ctx ctx') (hm : ctx'.HasMethod name t m')
    (hR : ctx'.Findable R') : ctx'.Findable (m'.ret.resolveSelf R') := by
  obtain ⟨owner, hmem⟩ := hm.mem_ownMethods
  exact hc.regular.resolveSelf_findable (hc.results hmem) hR

theorem result_ne_auto (hc : Completion U ctx ctx') (hm : ctx'.HasMethod name t m')
    (hR : R' ≠ TypeName.auto) : m'.ret.resolveSelf R' ≠ TypeName.auto := by
  obtain ⟨m, _, hfilled⟩ := hc.filled.hasMethod' hm
  unfold TypeName.resolveSelf
  split
  · exact hR
  · exact hc.ne_auto hfilled.ret

theorem result_tracks (hc : Completion U ctx ctx') (hm : ctx'.HasMethod name t m')
    (hret : m.ret = TypeName.auto ∨ m.ret = m'.ret) {blurred : Bool}
    (hR : ctx'.Tracks blurred R R') :
    ctx'.Tracks (blurred && m.ret.resolveSelf R == R) (m.ret.resolveSelf R)
      (m'.ret.resolveSelf R') := by
  have hfindable := hc.result_findable hm (hR.approximates.findable hc.regular)
  rcases hret with hauto | heq
  · rw [hauto]
    exact ⟨.auto hfindable, fun _ => Or.inl rfl⟩
  · rw [heq]
    by_cases hself : m'.ret = TypeName.selfType
    · rw [hself]
      exact ⟨hR.approximates, fun hsharp => hR.sharp (by simpa [TypeName.resolveSelf] using hsharp)⟩
    · have hkept : ∀ R, m'.ret.resolveSelf R = m'.ret := fun R => if_neg (by simpa using hself)
      rw [hkept] at hfindable
      rw [hkept, hkept]
      exact .refl hfindable _

/-- The method that is found on an approximation of the receiver's type fits the one that is found on the
type itself. -/
theorem hasMethod_approximates (hc : Completion U ctx ctx') (ht : ctx'.Approximates t t')
    (hne : t ≠ TypeName.auto) (hm : ctx.HasMethod name t m) (hm' : ctx'.HasMethod name t' m') :
    m.Relaxes m' := by
  obtain ⟨k, hk, hfilled⟩ := hc.filled.hasMethod hm
  cases ht with
  | auto _ => exact absurd rfl hne
  | below _ hle =>
      obtain ⟨n, hn, hret, hparams⟩ := hc.stable hle hm'
      obtain rfl := hk.unique hn
      exact hfilled.relaxes hret hparams
  | error hfindable hne' =>
      rcases hfindable with hconcrete | rfl | rfl
      · -- what `<error>` has, it has from `Object`, so the concrete type has it too
        have hobject := hc.regular.rooted.descends (hc.regular.contains hconcrete)
        obtain ⟨n, hn, hret, hparams⟩ := hc.stable hobject (hc.error hk)
        obtain rfl := hm'.unique hn
        exact hfilled.relaxes hret.symm hparams.symm
      · exact absurd rfl hne'
      · obtain rfl := hk.unique hm'
        exact hfilled.relaxes rfl rfl

theorem exists_hasMethod (hc : Completion U ctx ctx') (ht : ctx'.Approximates t t')
    (hne : t ≠ TypeName.auto) (herror : t ≠ TypeName.error) (hm' : ctx'.HasMethod name t' m') :
    ∃ m, ctx.HasMethod name t m := by
  cases ht with
  | auto _ => exact absurd rfl hne
  | error _ _ => exact absurd rfl herror
  | below _ hle =>
      obtain ⟨n, hn, _⟩ := hc.stable hle hm'
      obtain ⟨m, hm, _⟩ := hc.filled.hasMethod' hn
      exact ⟨m, hm⟩

end Context.Completion

/-! ## Environments -/

/-- The same is in sight, but for placeholders in the place of types. -/
structure Env.Tracks (Γ Γ' : Env) (ctx ctx' : Context) (C : TypeName) : Prop where
  context : Γ.context = ctx
  context' : Γ'.context = ctx'
  current : Γ.current = C
  current' : Γ'.current = C
  concrete : C ∈ ctx'.concreteTypes
  scope : ∀ x, Option.Rel ctx'.Declares (Γ.scope.lookup? x) (Γ'.scope.lookup? x)

namespace Env.Tracks

variable {U : List TypeName} {ctx ctx' : Context} {Γ Γ' : Env} {C t t' u u' R R' : TypeName}
  {method : String} {n : Nat} {place span : Span} {blurred : Bool}

theorem nested (hΓ : Γ.Tracks Γ' ctx ctx' C) : Γ.nested.Tracks Γ'.nested ctx ctx' C :=
  ⟨hΓ.context, hΓ.context', hΓ.current, hΓ.current', hΓ.concrete, hΓ.scope⟩

theorem declare (hΓ : Γ.Tracks Γ' ctx ctx' C) (name : String) (ht : ctx'.Declares t t') :
    (Γ.declare name t).Tracks (Γ'.declare name t') ctx ctx' C where
  context := hΓ.context
  context' := hΓ.context'
  current := hΓ.current
  current' := hΓ.current'
  concrete := hΓ.concrete
  scope x := by
    rw [Env.declare, Env.declare, Scope.lookup?_declare, Scope.lookup?_declare]
    unfold Vars.bind
    split
    · exact .some ht
    · exact hΓ.scope x

variable (hc : ctx.Completion U ctx') (hΓ : Γ.Tracks Γ' ctx ctx' C)
include hc hΓ

theorem conforms_eq : Γ.context.conforms = Γ'.context.conforms := by
  rw [hΓ.context, hΓ.context', hc.filled.conforms]

theorem conforms (ht : ctx'.Approximates t t') (hu : u = TypeName.auto ∨ u = u')
    (h : Γ'.context.conforms t' u' = true) : Γ.context.conforms t u = true := by
  rw [hΓ.conforms_eq hc]
  rcases hu with rfl | rfl
  · simp [Context.conforms, TypeName.isWildcard]
  · rw [hΓ.context'] at h ⊢
    exact ht.conforms hc.regular h

theorem expect_clean (ht : ctx'.Approximates t t') (hu : u = TypeName.auto ∨ u = u')
    (h : (Γ'.expect t' u' place).reports = []) : (Γ.expect t u span).reports = [] :=
  reportUnless_clean.mpr (hΓ.conforms hc ht hu (reportUnless_clean.mp h))

theorem condition_clean (ht : ctx'.Approximates t t') (h : (Γ'.condition t' place).reports = []) :
    (Γ.condition t span).reports = [] :=
  reportUnless_clean.mpr (hΓ.conforms hc ht (Or.inr rfl) (reportUnless_clean.mp h))

theorem descends_clean (ht : ctx'.Approximates t t') (h : (Γ'.descends t' u place).reports = []) :
    (Γ.descends t u span).reports = [] :=
  reportUnless_clean.mpr (hΓ.conforms hc ht (Or.inr rfl) (reportUnless_clean.mp h))

theorem unary_clean {op : UnaryOp} (ht : ctx'.Approximates t t')
    (h : (Γ'.unary op t' place span).reports = []) : (Γ.unary op t place span).reports = [] := by
  cases op with
  | not =>
      simp only [Env.unary, reports_bind, reports_pure, List.append_nil, reportUnless_clean] at h ⊢
      cases ht with
      | auto _ => rfl
      | error _ _ => rfl
      | below ht hle =>
          rw [hc.regular.isWildcard (hc.regular.concrete_of_descends ht hle), Bool.or_false,
            beq_iff_eq] at h
          subst h
          rw [hc.bool hle]
          rfl
  | negate =>
      simp only [Env.unary, reports_bind, reports_pure, List.append_nil, reportUnless_clean] at h ⊢
      exact hΓ.conforms hc ht (Or.inr rfl) h
  | isvoid => rfl

/-- An operation on approximations is reported only if it is a comparison and one of them is blurred. -/
theorem binary_reports {op : BinaryOp} {p q : Bool} (ht : ctx'.Tracks p t t') (hu : ctx'.Tracks q u u')
    (h : (Γ'.binary op t' u' span).reports = []) {r : Report}
    (hr : r ∈ (Γ.binary op t u span).reports) :
    op.isArithmetic = false ∧ (p || q) = true ∧ r = ⟨.invalidComparison t u, span⟩ := by
  unfold Env.binary at h hr
  cases hop : op.isArithmetic with
  | true =>
      simp only [hop, ↓reduceIte, reports_bind, reports_pure, List.append_nil, reportUnless_clean,
        Bool.and_eq_true] at h
      have hleft := hΓ.conforms hc ht.approximates (Or.inr rfl) h.1
      have hright := hΓ.conforms hc hu.approximates (Or.inr rfl) h.2
      simp [hop, hleft, hright] at hr
  | false =>
      simp only [hop, Bool.false_eq_true, ↓reduceIte, reports_bind, reports_pure, List.append_nil,
        reportUnless_clean] at h
      simp only [hop, Bool.false_eq_true, ↓reduceIte, reports_bind, reports_pure, List.append_nil,
        reports_reportUnless, hΓ.conforms_eq hc] at hr
      split at hr
      · exact absurd hr List.not_mem_nil
      · rename_i hnot
        refine ⟨rfl, ?_, List.mem_singleton.mp hr⟩
        by_contra hsharp
        rw [Bool.not_eq_true, Bool.or_eq_false_iff] at hsharp
        apply hnot
        -- sharp types are those of the filling, or placeholders, which fit everything
        rcases ht.sharp hsharp.1 with rfl | rfl
        · simp [Context.conforms, TypeName.isWildcard]
        · rcases hu.sharp hsharp.2 with rfl | rfl
          · simp [Context.conforms, TypeName.isWildcard]
          · exact h

theorem declaredAt_same (h : (Γ'.declaredAt t span).reports = []) :
    Γ.declaredAt t span = Γ'.declaredAt t span ∧ ctx'.Findable (Γ'.declaredAt t span).value := by
  have hknown := known_of_declaredAt h
  unfold Env.declaredAt
  rw [Known, hΓ.context'] at hknown
  rw [hΓ.context, hΓ.context', hΓ.current, hΓ.current', ClassTable.declaredType_eq hknown,
    ClassTable.declaredType_eq (by rw [hc.filled.contains, hknown])]
  exact ⟨rfl, hc.regular.resolveSelf_findable hknown (Or.inl hΓ.concrete)⟩

theorem declaredAt_filled (ht : TypeName.Filled U t t') (h : (Γ'.declaredAt t' span).reports = []) :
    (Γ.declaredAt t span).reports = [] ∧
      ctx'.Declares (Γ.declaredAt t span).value (Γ'.declaredAt t' span).value := by
  have hknown := known_of_declaredAt h
  unfold Env.declaredAt
  rw [Known, hΓ.context'] at hknown
  rw [hΓ.context, hΓ.context', hΓ.current, hΓ.current', ClassTable.declaredType_eq hknown,
    ClassTable.declaredType_eq (hc.contains ht hknown)]
  exact ⟨rfl, hc.declares_resolveSelf ht hknown hΓ.concrete⟩

theorem declared (ht : TypeName.Filled U t t') (h : ctx'.contains t' = true) :
    ctx'.Declares (Γ.declared t) (Γ'.declared t') := by
  unfold Env.declared
  rw [hΓ.context, hΓ.context', hΓ.current, hΓ.current', if_pos h, if_pos (hc.contains ht h)]
  exact hc.declares_resolveSelf ht h hΓ.concrete

/-! ## Calls -/

theorem call_findable (hR : ctx'.Findable R') {owner : TypeName}
    (h : (Γ'.call owner R' method n span).reports = []) :
    ctx'.Findable (Γ'.call owner R' method n span).value.2 := by
  rcases call_clean h with ⟨m, hm, hn⟩ | ⟨rfl, hnone⟩
  · rw [call_of_hasMethod hm hn]
    rw [hΓ.context'] at hm
    exact hc.result_findable hm hR
  · rw [call_of_missing hnone]
    exact Or.inr (Or.inr rfl)

/-- A call fits with placeholders if it does in the filling. Its result is blurred only where it is the type
of a blurred receiver. -/
theorem call_tracks {owner owner' : TypeName} (hR : ctx'.Tracks blurred R R')
    (hcall : (∃ m m', ctx.HasMethod method owner m ∧ ctx'.HasMethod method owner' m' ∧ m.Relaxes m') ∨
      owner = TypeName.error ∧ (∀ m, ¬ctx.HasMethod method owner m) ∧
        ctx'.Tracks (blurred && TypeName.error == R) TypeName.error
          (Γ'.call owner' R' method n span).value.2)
    (h : (Γ'.call owner' R' method n span).reports = []) :
    (Γ.call owner R method n span).reports = [] ∧
      Relaxes (Γ.call owner R method n span).value.1 (Γ'.call owner' R' method n span).value.1 ∧
      ctx'.Tracks (blurred && (Γ.call owner R method n span).value.2 == R)
        (Γ.call owner R method n span).value.2
        (Γ'.call owner' R' method n span).value.2 := by
  rcases hcall with ⟨m, m', hm, hm', hrelaxes⟩ | ⟨rfl, hnone, htracks⟩
  · rw [← hΓ.context] at hm
    have hfound : Γ'.context.HasMethod method owner' m' := by rwa [hΓ.context']
    have hn : m'.arity = n := by
      rcases call_clean h with ⟨k, hk, hn⟩ | ⟨_, hnone⟩
      · rw [hfound.unique hk, hn]
      · exact absurd hfound (hnone m')
    rw [call_of_hasMethod hm (hrelaxes.arity.trans hn), call_of_hasMethod hfound hn]
    exact ⟨rfl, hrelaxes.paramTypes, hc.result_tracks hm' hrelaxes.ret hR⟩
  · rw [← hΓ.context] at hnone
    rw [call_of_missing hnone]
    exact ⟨rfl, .nil, htracks⟩

theorem staticCall_tracks {owner : TypeName} (hR : ctx'.Tracks blurred R R')
    (h : (Γ'.call owner R' method n span).reports = []) :
    (Γ.call owner R method n span).reports = [] ∧
      Relaxes (Γ.call owner R method n span).value.1 (Γ'.call owner R' method n span).value.1 ∧
      ctx'.Tracks (blurred && (Γ.call owner R method n span).value.2 == R)
        (Γ.call owner R method n span).value.2
        (Γ'.call owner R' method n span).value.2 := by
  refine hΓ.call_tracks hc hR ?_ h
  rcases call_clean h with ⟨m', hm', hn⟩ | ⟨rfl, hnone⟩
  · rw [hΓ.context'] at hm'
    obtain ⟨m, hm, hfilled⟩ := hc.filled.hasMethod' hm'
    exact Or.inl ⟨m, m', hm, hm', hfilled.relaxes rfl rfl⟩
  · refine Or.inr ⟨rfl, fun m hm => ?_, ?_⟩
    · obtain ⟨m', hm', _⟩ := hc.filled.hasMethod hm
      exact hnone m' (by rwa [hΓ.context'])
    · rw [call_of_missing hnone]
      exact .refl (Or.inr (Or.inr rfl)) _

theorem invoke_tracks (ht : ctx'.Tracks blurred t t')
    (h : (Γ'.invoke t' method n span).reports = []) :
    (Γ.invoke t method n span).reports = [] ∧
      Relaxes (Γ.invoke t method n span).value.1 (Γ'.invoke t' method n span).value.1 ∧
      ctx'.Tracks (blurred && (Γ.invoke t method n span).value.2 == t)
        (Γ.invoke t method n span).value.2 (Γ'.invoke t' method n span).value.2 := by
  have happrox := ht.approximates
  have hfindable := happrox.findable hc.regular
  by_cases hauto : t = TypeName.auto
  · subst hauto
    refine ⟨rfl, .nil, .auto ?_, fun _ => Or.inl rfl⟩
    by_cases hauto' : t' = TypeName.auto
    · rw [hauto']
      exact Or.inr (Or.inl rfl)
    · rw [invoke_of_ne hauto'] at h ⊢
      exact hΓ.call_findable hc hfindable h
  have hauto' := happrox.ne_auto hc.regular hauto
  rw [invoke_of_ne hauto'] at h ⊢
  rw [invoke_of_ne hauto]
  refine hΓ.call_tracks hc ht ?_ h
  have hclean := call_clean h
  rw [hΓ.context'] at hclean
  by_cases hexists : ∃ m, ctx.HasMethod method t m
  · left
    obtain ⟨m, hm⟩ := hexists
    rcases hclean with ⟨m', hm', _⟩ | ⟨rfl, hnone⟩
    · exact ⟨m, m', hm, hm', hc.hasMethod_approximates happrox hauto hm hm'⟩
    · rw [happrox.eq_error hc.regular hauto] at hm
      obtain ⟨m', hm', _⟩ := hc.filled.hasMethod hm
      exact absurd hm' (hnone m')
  · right
    have herror : t = TypeName.error := by
      by_contra hne
      rcases hclean with ⟨m', hm', _⟩ | ⟨rfl, _⟩
      · exact hexists (hc.exists_hasMethod happrox hauto hne hm')
      · exact hne (happrox.eq_error hc.regular hauto)
    subst herror
    refine ⟨rfl, not_exists.mp hexists, ?_⟩
    rcases hclean with ⟨m', hm', hn⟩ | ⟨rfl, hnone⟩
    · rw [call_of_hasMethod (by rwa [hΓ.context']) hn]
      refine ⟨.error (hc.result_findable hm' hfindable) (hc.result_ne_auto hm' hauto'), fun hsharp => ?_⟩
      obtain rfl := (ht.sharp (by simpa using hsharp)).resolve_left hauto
      obtain ⟨m, hm, _⟩ := hc.filled.hasMethod' hm'
      exact absurd ⟨m, hm⟩ hexists
    · rw [call_of_missing (by rwa [hΓ.context'])]
      exact .refl (Or.inr (Or.inr rfl)) _

end Env.Tracks

end CoolTyping
