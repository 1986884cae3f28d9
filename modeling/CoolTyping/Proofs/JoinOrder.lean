import CoolTyping.Program.Fill
import CoolTyping.Proofs.Bounds

/-!
# The order in which types are joined

Where a class is below `<error>`, it may matter which of three types are joined first. Where none is, wildcards
give way to all other types, and the join is the least upper bound in an order on all names, `Yields`. So the
join of many types does not depend on their order, whether they are the candidates of an entry or the types of
the arms of a `case`, and the join of concrete types is the least concrete type that all of them conform to.
-/

namespace CoolTyping

namespace Context

variable {ctx : Context} {a b c d : TypeName}

/-! ## Wildcards give way -/

/-- No type but a wildcard is below a wildcard. -/
structure Untainted (ctx : Context) : Prop where
  rooted : ctx.Rooted
  plain : ∀ {t}, t.isWildcard = false → ctx.Plain t

/-- `a` gives way to `b` in joins: a placeholder to every type, `<error>` to all but placeholders, and any
other type to those above it. `Object` counts as above all of them, even what is no type of the context. -/
def Yields (ctx : Context) (a b : TypeName) : Prop :=
  a = TypeName.auto ∨ a = TypeName.error ∧ b ≠ TypeName.auto ∨
    a.isWildcard = false ∧ b.isWildcard = false ∧ (ctx.Descends a b ∨ b = TypeName.object)

theorem auto_yields : ctx.Yields TypeName.auto b := .inl rfl

theorem error_yields : ctx.Yields TypeName.error b ↔ b ≠ TypeName.auto := by
  have hne : TypeName.error ≠ TypeName.auto := by decide
  simp [Yields, hne, TypeName.isWildcard]

theorem yields_iff (ha : a.isWildcard = false) :
    ctx.Yields a b ↔ b.isWildcard = false ∧ (ctx.Descends a b ∨ b = TypeName.object) := by
  have hne : a ≠ TypeName.auto ∧ a ≠ TypeName.error := by
    simpa [TypeName.isWildcard, and_comm] using ha
  simp [Yields, ha, hne]

theorem Yields.refl (ctx : Context) (a : TypeName) : ctx.Yields a a := by
  cases ha : a.isWildcard with
  | true =>
      rcases TypeName.isWildcard_iff.mp ha with rfl | rfl
      · exact error_yields.mpr (by decide)
      · exact auto_yields
  | false => exact (yields_iff ha).mpr ⟨ha, .inl .refl⟩

theorem wildcard_yields (ha : a.isWildcard = true) (hb : b.isWildcard = false) : ctx.Yields a b := by
  have hne : b ≠ TypeName.auto := fun heq => by simp [heq, TypeName.isWildcard] at hb
  rcases TypeName.isWildcard_iff.mp ha with rfl | rfl
  · exact error_yields.mpr hne
  · exact auto_yields

theorem Rooted.yields_trans (hr : ctx.Rooted) (ha : a.isWildcard = false) (hab : ctx.Yields a b)
    (hbc : ctx.Yields b c) : ctx.Yields a c := by
  obtain ⟨hb, hab⟩ := (yields_iff ha).mp hab
  obtain ⟨hc, hbc⟩ := (yields_iff hb).mp hbc
  refine (yields_iff ha).mpr ⟨hc, ?_⟩
  rcases hbc with hbc | hobject
  · rcases hab with hab | rfl
    · exact .inl (hab.trans hbc)
    · exact .inr (hr.eq_object hbc)
  · exact .inr hobject

/-- What two types yield to yields to all that both yield to, if it is the least of their common ancestors. -/
theorem Rooted.yields_of_least (hr : ctx.Rooted) (ha : a.isWildcard = false) (hb : b.isWildcard = false)
    (hac : ctx.Yields a c) (hbc : ctx.Yields b c)
    (hleast : ∀ {d}, ctx.Descends a d → ctx.Descends b d → ctx.Descends c d ∨ d = TypeName.object) :
    ctx.Yields c d ↔ ctx.Yields a d ∧ ctx.Yields b d := by
  have hc := ((yields_iff ha).mp hac).1
  refine ⟨fun hcd => ⟨hr.yields_trans ha hac hcd, hr.yields_trans hb hbc hcd⟩, ?_⟩
  rw [yields_iff ha, yields_iff hb, yields_iff hc]
  rintro ⟨⟨hd, had | hobject⟩, _, hbd | hobject⟩
  · exact ⟨hd, hleast had hbd⟩
  all_goals exact ⟨hd, .inr hobject⟩

theorem IsJoin.yields (hr : ctx.Rooted) (hjoin : ctx.IsJoin a b c) (ha : a.isWildcard = false)
    (hb : b.isWildcard = false) (hc : c.isWildcard = false) :
    ctx.Yields c d ↔ ctx.Yields a d ∧ ctx.Yields b d :=
  hr.yields_of_least ha hb ((yields_iff ha).mpr ⟨hc, .inl hjoin.left⟩)
    ((yields_iff hb).mpr ⟨hc, .inl hjoin.right⟩) fun had hbd => .inl (hjoin.least had hbd)

/-- Where two types have no ancestor but `Object` in common, it yields to what both yield to. -/
theorem Rooted.object_yields (hr : ctx.Rooted) (ha : a.isWildcard = false) (hb : b.isWildcard = false)
    (honly : ∀ {d}, ctx.Descends a d → ctx.Descends b d → d = TypeName.object) :
    ctx.Yields TypeName.object d ↔ ctx.Yields a d ∧ ctx.Yields b d :=
  hr.yields_of_least ha hb ((yields_iff ha).mpr ⟨by decide, .inr rfl⟩)
    ((yields_iff hb).mpr ⟨by decide, .inr rfl⟩) fun had hbd => .inr (honly had hbd)

/-- Only a wildcard yields to a wildcard. -/
theorem Yields.isWildcard (h : ctx.Yields a b) (hb : b.isWildcard = true) : a.isWildcard = true := by
  by_contra ha
  rw [Bool.not_eq_true] at ha
  simp [((yields_iff ha).mp h).1] at hb

theorem Rooted.yields_antisymm (hr : ctx.Rooted) (hab : ctx.Yields a b) (hba : ctx.Yields b a) : a = b := by
  cases ha : a.isWildcard with
  | true =>
      have hb := hba.isWildcard ha
      rcases TypeName.isWildcard_iff.mp ha with rfl | rfl <;> rcases TypeName.isWildcard_iff.mp hb with rfl | rfl
      · rfl
      · exact absurd rfl (error_yields.mp hab)
      · exact absurd rfl (error_yields.mp hba)
      · rfl
  | false =>
      obtain ⟨hb, hab⟩ := (yields_iff ha).mp hab
      obtain ⟨_, hba⟩ := (yields_iff hb).mp hba
      rcases hab with hab | rfl
      · rcases hba with hba | rfl
        · by_cases heq : a = b
          · exact heq
          · -- a type that has a parent is known
            obtain ⟨p, hp⟩ := parent_of_descends_ne hab heq
            exact hr.antisymm hab hba (contains_iff.mpr (mem_names_of_parent? hp))
        · exact (hr.eq_object hab).symm
      · rcases hba with hba | heq
        · exact hr.eq_object hba
        · exact heq

theorem Rooted.eq_of_yields (hr : ctx.Rooted) (h : ∀ d, ctx.Yields a d ↔ ctx.Yields b d) : a = b :=
  hr.yields_antisymm ((h b).mpr (.refl ctx b)) ((h a).mp (.refl ctx a))

namespace Untainted

variable (h : ctx.Untainted)
include h

/-- The join yields to what both types yield to. -/
theorem join_yields (a b d : TypeName) : ctx.Yields (ctx.join a b) d ↔ ctx.Yields a d ∧ ctx.Yields b d := by
  cases hwa : a.isWildcard with
  | true =>
      cases hwb : b.isWildcard with
      | true =>
          rw [join_wildcards hwa hwb]
          rcases TypeName.isWildcard_iff.mp hwa with rfl | rfl <;>
            rcases TypeName.isWildcard_iff.mp hwb with rfl | rfl
          · simp
          · simp [auto_yields]
          · simp [auto_yields]
          · simp [auto_yields, show TypeName.auto ≠ TypeName.error by decide]
      | false =>
          rw [join_wildcard_left hwa hwb]
          exact (and_iff_right_of_imp fun hbd => wildcard_yields hwa ((yields_iff hwb).mp hbd).1).symm
  | false =>
      cases hwb : b.isWildcard with
      | true =>
          rw [join_wildcard_right hwa hwb]
          exact (and_iff_left_of_imp fun had => wildcard_yields hwb ((yields_iff hwa).mp had).1).symm
      | false =>
          by_cases hobject : a = TypeName.object ∨ b = TypeName.object
          · rw [join_object hwa hwb hobject]
            refine h.rooted.object_yields hwa hwb fun had hbd => ?_
            rcases hobject with rfl | rfl
            · exact h.rooted.eq_object had
            · exact h.rooted.eq_object hbd
          · rw [join_climb hwa hwb hobject]
            cases hab : ctx.climb a b with
            | some c =>
                have hjoin := isJoin_of_climb (h.plain hwa) (h.plain hwb) hab
                exact hjoin.yields h.rooted hwa hwb (h.plain hwa hjoin.left)
            | none =>
                cases hba : ctx.climb b a with
                | some c =>
                    have hjoin := isJoin_of_climb (h.plain hwb) (h.plain hwa) hba
                    exact (hjoin.yields h.rooted hwb hwa (h.plain hwb hjoin.left)).trans and_comm
                | none =>
                    refine h.rooted.object_yields hwa hwb fun had hbd => ?_
                    exact eq_object_of_climb h.rooted hab had (conforms_of_descends hbd)

theorem join_comm (a b : TypeName) : ctx.join a b = ctx.join b a :=
  h.rooted.eq_of_yields fun d => by rw [h.join_yields, h.join_yields, and_comm]

theorem join_assoc (a b c : TypeName) : ctx.join (ctx.join a b) c = ctx.join a (ctx.join b c) :=
  h.rooted.eq_of_yields fun d => by simp only [h.join_yields, and_assoc]

theorem joinAll_yields (t : TypeName) (ts : List TypeName) (d : TypeName) :
    ctx.Yields (ctx.joinAll (t :: ts)) d ↔ ∀ x ∈ t :: ts, ctx.Yields x d := by
  induction ts generalizing t with
  | nil => simp [joinAll]
  | cons u us ih =>
      have hstep : ctx.joinAll (t :: u :: us) = ctx.joinAll (ctx.join t u :: us) := rfl
      rw [hstep, ih]
      simp [h.join_yields, and_assoc]

theorem joinAll_perm {ts us : List TypeName} (hperm : ts.Perm us) : ctx.joinAll ts = ctx.joinAll us := by
  cases ts with
  | nil => rw [List.nil_perm.mp hperm]
  | cons t ts =>
      cases us with
      | nil => exact absurd hperm.symm.nil_eq (by simp)
      | cons u us =>
          apply h.rooted.eq_of_yields
          intro d
          simp only [h.joinAll_yields, hperm.mem_iff]

end Untainted

/-! ## What many types have in common -/

/-- `c` is the least of the concrete types that all of `ts` conform to. -/
structure IsLeastConcrete (ctx : Context) (ts : List TypeName) (c : TypeName) : Prop where
  concrete : c ∈ ctx.concreteTypes
  above : ∀ t ∈ ts, ctx.conforms t c = true
  least : ∀ d ∈ ctx.concreteTypes, (∀ t ∈ ts, ctx.conforms t d = true) → ctx.conforms c d = true

theorem Regular.joinAll_isLeastConcrete (h : ctx.Regular) {ts : List TypeName} (hne : ts ≠ [])
    (hts : ∀ t ∈ ts, t ∈ ctx.concreteTypes) : ctx.IsLeastConcrete ts (ctx.joinAll ts) := by
  obtain ⟨t, us, rfl⟩ := List.exists_cons_of_ne_nil hne
  have hjoin := joinAll_isJoinAll h.rooted t us fun x hx => ⟨h.contains (hts x hx), h.plain (hts x hx)⟩
  have hconcrete := h.concrete_of_descends (hts t List.mem_cons_self) (hjoin.above t List.mem_cons_self)
  refine ⟨hconcrete, fun x hx => conforms_of_descends (hjoin.above x hx), fun d hd hall => ?_⟩
  refine conforms_of_descends (hjoin.least fun x hx => ?_)
  exact (h.conforms_iff (hts x hx) (h.isWildcard hd)).mp (hall x hx)

end Context

theorem value_typeArms (Γ : Env) (arms : List (Binder × Expr)) : (typeArms Γ arms).value =
    arms.map fun arm =>
      (typeOf (Γ.nested.declare arm.1.name (Γ.declaredAt arm.1.ty arm.1.span).value) arm.2).value := by
  induction arms with
  | nil => simp [typeArms]
  | cons arm arms ih => simp [typeArms, ih]

/-- Where no type but a wildcard is below a wildcard, the arms of a `case` may be put in any order. -/
theorem Context.Untainted.typeOf_caseOf {Γ : Env} (h : Γ.context.Untainted) (span : Span) (scrutinee : Expr)
    {arms arms' : List (Binder × Expr)} (hperm : arms.Perm arms') :
    (typeOf Γ (.caseOf span scrutinee arms)).value = (typeOf Γ (.caseOf span scrutinee arms')).value := by
  simp only [typeOf, Reporting.value_bind, Reporting.value_pure, value_typeArms]
  exact h.joinAll_perm (hperm.map _)

namespace ClassTable

variable {p : Program}

/-- Without a concrete type below `<error>` there is no type below it but itself. -/
theorem build_untainted (herror : ∀ t ∈ (build p).value.context.concreteTypes,
    TypeName.error ∉ (build p).value.context.ancestors t) : (build p).value.context.Untainted := by
  have hsettled := build_settled p
  refine ⟨hsettled.rooted, fun {t} ht x hx => ?_⟩
  obtain ⟨herr, hauto⟩ : t ≠ TypeName.error ∧ t ≠ TypeName.auto := by
    simpa [TypeName.isWildcard] using ht
  refine hsettled.plain hauto (fun hd => ?_) hx
  rcases hd.cases_tail with heq | ⟨y, _, hy⟩
  · exact herr heq.symm
  -- what is linked to `<error>` is a class
  have hclass : y ∉ Context.basic.names := by
    intro hbasic
    have hnone : ∀ t ∈ Context.basic.names, Context.basic.parent? t ≠ some TypeName.error := by decide
    exact hnone y hbasic ((hsettled.basics y hbasic).symm.trans hy)
  have hknown := Context.contains_iff.mpr (Context.mem_names_of_parent? hy)
  rcases (build_wellFormed p).concrete_of_contains hknown with hconcrete | rfl | rfl | rfl
  · exact herror y hconcrete (Context.mem_ancestors.mpr (.single hy))
  all_goals exact hclass (by decide)

theorem build_regular (herror : ∀ t ∈ (build p).value.context.concreteTypes,
    TypeName.error ∉ (build p).value.context.ancestors t) : (build p).value.context.Regular where
  rooted := build_rooted p
  known := (build_wellFormed p).known_iff
  basic := (build_wellFormed p).basic_concrete
  proper := (build_wellFormed p).concrete_ne
  parents {t q} ht hq := by
    have hknown := (build_wellFormed p).known_iff.mpr (.inl ht)
    have hq' := (build_rooted p).contains_of_descends hknown (.single hq)
    rcases (build_wellFormed p).concrete_of_contains hq' with hconcrete | rfl | rfl | rfl
    · exact hconcrete
    · exact absurd (by decide) ((build_settled p).unsealed hq)
    · exact absurd (by decide) ((build_settled p).unsealed hq)
    · exact absurd (Context.mem_ancestors.mpr (.single hq)) (herror t ht)

/-- Where no concrete type is below `<error>`, which is above itself only, an entry stands for the least
concrete type that all its candidates conform to. The order of the candidates does not matter, as joins are
commutative and associative, and neither does the order of the arms of a `case`. -/
theorem build_joins (herror : ∀ t ∈ (build p).value.context.concreteTypes,
    TypeName.error ∉ (build p).value.context.ancestors t) :
    let ctx := (build p).value.context
    (∀ e : Entry, e.candidates.toList ≠ [] → (∀ t ∈ e.candidates, t ∈ ctx.concreteTypes) →
      ctx.IsLeastConcrete e.candidates.toList (e.joined ctx) ∧
        ∀ f : Entry, f.candidates.toList.Perm e.candidates.toList → f.joined ctx = e.joined ctx) ∧
    (∀ a b, ctx.join a b = ctx.join b a) ∧
    (∀ a b c, ctx.join (ctx.join a b) c = ctx.join a (ctx.join b c)) ∧
    ∀ (Γ : Env) (span : Span) (scrutinee : Expr) (arms arms' : List (Binder × Expr)), Γ.context = ctx →
      arms.Perm arms' →
        (typeOf Γ (.caseOf span scrutinee arms)).value = (typeOf Γ (.caseOf span scrutinee arms')).value := by
  have hregular := build_regular herror
  have huntainted := build_untainted herror
  refine ⟨fun e hne hconcrete => ⟨hregular.joinAll_isLeastConcrete hne hconcrete, fun f hperm => ?_⟩,
    huntainted.join_comm, huntainted.join_assoc, fun Γ span scrutinee arms arms' hΓ hperm => ?_⟩
  · exact huntainted.joinAll_perm hperm
  · rw [← hΓ] at huntainted
    exact huntainted.typeOf_caseOf span scrutinee hperm

/-- A class without features. -/
def featureless (id : NodeId) (name : TypeName) (parent : Option TypeName) : ClassDecl :=
  ⟨id, name, parent, [], ⟨id, id + 1⟩⟩

/-- Two lines of classes below `A`. -/
def family : Program :=
  ⟨[featureless 0 "D" (some "B"), featureless 1 "B" (some "A"), featureless 2 "A" none,
    featureless 3 "C" (some "A")]⟩

theorem family_joins :
    let ctx := (build family).value.context
    (∀ t ∈ ctx.concreteTypes, TypeName.error ∉ ctx.ancestors t) ∧ ctx.IsLeastConcrete ["D", "C", "B"] "A" ∧
      ∀ f : Entry, f.candidates.toList.Perm ["D", "C", "B"] → f.joined ctx = "A" := by
  intro ctx
  have herror : ∀ t ∈ (build family).value.context.concreteTypes,
      TypeName.error ∉ (build family).value.context.ancestors t := by decide +kernel
  let e : Entry := .ofPlaceholder (.ofList ["D", "C", "B"]) ⟨0, 1⟩
  have hlist : e.candidates.toList = ["D", "C", "B"] := by decide
  have hA : e.joined ctx = "A" := by decide +kernel
  have hjoins := (build_joins herror).1 e (by simp [hlist]) (by decide +kernel)
  rw [hlist, hA] at hjoins
  exact ⟨herror, hjoins⟩

-- with a class below `<error>`, it matters which two types are joined first
example :
    let ctx := (build ⟨[⟨0, "A", none, [], ⟨0, 1⟩⟩, ⟨1, "B", some "A", [], ⟨1, 2⟩⟩,
      ⟨2, "U", some "Missing", [], ⟨2, 3⟩⟩]⟩).value.context
    ctx.join (ctx.join "U" "A") "B" = "B" ∧ ctx.join "U" (ctx.join "A" "B") = TypeName.error := by
  decide +kernel

end ClassTable

end CoolTyping
