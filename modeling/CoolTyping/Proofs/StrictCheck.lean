import CoolTyping.Proofs.Conformance
import CoolTyping.Proofs.KnownTypes
import CoolTyping.Proofs.TypingRules

/-!
# The strict check and the typing rules

Where no wildcard is in sight, the strict check types an expression without a report exactly if the rules
give it a type, and then both give the same one.
-/

namespace CoolTyping

open Reporting

/-! ## Definite contexts -/

/-- Neither a placeholder nor the type for errors. -/
def TypeName.Definite (t : TypeName) : Prop := t ≠ TypeName.auto ∧ t ≠ TypeName.error

/-- The methods are declared without wildcards. -/
structure Context.Definite (ctx : Context) : Prop extends ctx.Regular where
  params : ∀ {t m}, m ∈ ctx.ownMethods t → ∀ ty ∈ m.paramTypes, ty.Definite
  results : ∀ {t m}, m ∈ ctx.ownMethods t → m.ret = TypeName.selfType ∨ m.ret ∈ ctx.concreteTypes

variable {ctx : Context} {C : TypeName} {V : Vars}

theorem TypeName.Definite.isWildcard {t : TypeName} (h : t.Definite) : t.isWildcard = false := by
  simp [TypeName.isWildcard, h.1, h.2]

theorem Context.HasMethod.mem_ownMethods {name : String} {t : TypeName} {m : Signature}
    (h : ctx.HasMethod name t m) : ∃ owner, m ∈ ctx.ownMethods owner := by
  induction h with
  | @own t m hm => exact ⟨t, List.mem_of_find?_eq_some hm⟩
  | inherited _ _ _ ih => exact ih

theorem denotes_resolveSelf (hr : ctx.Regular) {t : TypeName}
    (h : t = TypeName.selfType ∨ t ∈ ctx.concreteTypes) : Denotes ctx C t (t.resolveSelf C) := by
  rcases h with rfl | h
  · exact .self
  · have hne : (t == TypeName.selfType) = false := by simpa using (hr.proper h).2.1
    rw [TypeName.resolveSelf, hne]
    exact .concrete h

theorem Denotes.resolveSelf_eq (hr : ctx.Regular) {t T : TypeName} (h : Denotes ctx C t T) :
    t.resolveSelf C = T := by
  cases h with
  | self => rfl
  | concrete h =>
      have hne : (t == TypeName.selfType) = false := by simpa using (hr.proper h).2.1
      rw [TypeName.resolveSelf, hne]
      rfl

theorem Denotes.isConcrete {t T : TypeName} (h : Denotes ctx C t T) (hC : C ∈ ctx.concreteTypes) :
    T ∈ ctx.concreteTypes := by
  cases h with
  | self => exact hC
  | concrete h => exact h

theorem Context.Regular.joinsTo_joinAll (hr : ctx.Regular) {ts : List TypeName}
    (h : ∀ t ∈ ts, t ∈ ctx.concreteTypes) : ctx.JoinsTo ts (ctx.joinAll ts) := by
  match ts with
  | [] => exact .none
  | [t] => exact .one
  | a :: b :: ts =>
      obtain ⟨ha, hb, hts⟩ := by simpa using h
      have hrest := List.forall_mem_cons.mpr ⟨hr.join_concrete ha hb, hts⟩
      exact .more (hr.isJoin ha hb) (joinsTo_joinAll hr hrest)
termination_by ts.length

theorem Context.JoinsTo.joinAll_eq (hr : ctx.Regular) {ts : List TypeName} {t : TypeName}
    (h : ctx.JoinsTo ts t) (hts : ∀ t ∈ ts, t ∈ ctx.concreteTypes) :
    ctx.joinAll ts = t ∧ t ∈ ctx.concreteTypes := by
  induction h with
  | none => exact ⟨rfl, hr.object⟩
  | one => exact ⟨rfl, hts _ List.mem_cons_self⟩
  | @more a b c ts t hjoin _ ih =>
      obtain ⟨ha, hb, hrest⟩ := by simpa using hts
      obtain rfl := (hr.isJoin_iff ha hb).mp hjoin
      exact ih (List.forall_mem_cons.mpr ⟨hr.join_concrete ha hb, hrest⟩)

/-! ## Calls -/

namespace Env

variable {Γ : Env} {owner R : TypeName} {method : String} {n : Nat} {span : Span}

theorem call_of_hasMethod {m : Signature} (hm : Γ.context.HasMethod method owner m) (hn : m.arity = n) :
    Γ.call owner R method n span = pure (m.paramTypes, m.ret.resolveSelf R) := by
  obtain ⟨o, ho⟩ := Context.hasMethod_iff.mp hm
  rw [call, ho]
  dsimp only
  rw [if_pos hn]

theorem call_of_missing (h : ∀ m, ¬Γ.context.HasMethod method TypeName.error m) :
    Γ.call TypeName.error R method n span = pure ([], TypeName.error) := by
  unfold call
  cases hm : Γ.context.method? TypeName.error method with
  | none => rfl
  | some om => exact absurd (Context.hasMethod_iff.mpr ⟨om.1, hm⟩) (h om.2)

/-- A call fits if there is such a method, or there is none but the owner is not known either. -/
theorem call_clean (h : (Γ.call owner R method n span).reports = []) :
    (∃ m, Γ.context.HasMethod method owner m ∧ m.arity = n) ∨
      owner = TypeName.error ∧ ∀ m, ¬Γ.context.HasMethod method owner m := by
  unfold call at h
  cases hm : Γ.context.method? owner method with
  | none =>
      rw [hm] at h
      simp only [reports_bind, reports_pure, List.append_nil] at h
      refine Or.inr ⟨beq_iff_eq.mp (reportUnless_clean.mp h), fun m hsome => ?_⟩
      obtain ⟨o, ho⟩ := Context.hasMethod_iff.mp hsome
      exact absurd (hm.symm.trans ho) (by simp)
  | some om =>
      obtain ⟨o, m⟩ := om
      rw [hm] at h
      dsimp only at h
      split at h
      · rename_i hn
        exact Or.inl ⟨m, Context.hasMethod_iff.mpr ⟨o, hm⟩, hn⟩
      · cases h

end Env

/-! ## Variables -/

@[simp] theorem Scope.lookup?_push (s : Scope) : s.push.lookup? = s.lookup? := rfl

@[simp] theorem Scope.lookup?_declare (s : Scope) (name : String) (ty : TypeName) :
    (s.declare name ty).lookup? = Vars.bind s.lookup? name ty := by
  obtain ⟨frames⟩ := s
  funext x
  unfold Vars.bind lookup? declare
  by_cases hx : x = name
  · cases frames <;> simp [hx]
  · cases frames <;> simp [hx, List.findSome?_cons, List.lookup_cons, beq_eq_false_iff_ne.mpr hx]

/-- The variables have concrete types. -/
def Vars.Concrete (V : Vars) (ctx : Context) : Prop := ∀ x T, V x = some T → T ∈ ctx.concreteTypes

theorem Vars.Concrete.bind (h : V.Concrete ctx) {name : String} {T : TypeName}
    (hT : T ∈ ctx.concreteTypes) : (V.bind name T).Concrete ctx := by
  intro x S hx
  unfold Vars.bind at hx
  split at hx
  · cases hx
    exact hT
  · exact h x S hx

/-- The variables `V` of concrete types are what is in sight in a class `C`. -/
structure Env.Strict (Γ : Env) (ctx : Context) (C : TypeName) (V : Vars) : Prop where
  context : Γ.context = ctx
  current : Γ.current = C
  scope : Γ.scope.lookup? = V
  concrete : V.Concrete ctx

namespace Env.Strict

variable {Γ : Env} {S T owner : TypeName} {span : Span}

theorem nested (hΓ : Γ.Strict ctx C V) : Γ.nested.Strict ctx C V :=
  ⟨hΓ.context, hΓ.current, hΓ.scope, hΓ.concrete⟩

theorem declare (hΓ : Γ.Strict ctx C V) (name : String) (hT : T ∈ ctx.concreteTypes) :
    (Γ.declare name T).Strict ctx C (V.bind name T) :=
  ⟨hΓ.context, hΓ.current, by rw [Env.declare, Scope.lookup?_declare, hΓ.scope], hΓ.concrete.bind hT⟩

/-! ## Single checks -/

theorem expect_clean (hΓ : Γ.Strict ctx C V) (hr : ctx.Regular) (hS : S ∈ ctx.concreteTypes)
    (hT : T.isWildcard = false) : (Γ.expect S T span).reports = [] ↔ ctx.Descends S T := by
  rw [expect, reportUnless_clean, hΓ.context, hr.conforms_iff hS hT]

theorem condition_clean (hΓ : Γ.Strict ctx C V) (hr : ctx.Regular) (hS : S ∈ ctx.concreteTypes) :
    (Γ.condition S span).reports = [] ↔ ctx.Descends S TypeName.bool := by
  rw [condition, reportUnless_clean, hΓ.context, hr.conforms_iff hS rfl]

theorem descends_clean (hΓ : Γ.Strict ctx C V) (hr : ctx.Regular) (hS : S ∈ ctx.concreteTypes)
    (hT : T ∈ ctx.concreteTypes) : (Γ.descends S T span).reports = [] ↔ ctx.Descends S T := by
  rw [Env.descends, reportUnless_clean, hΓ.context, hr.conforms_iff hS (hr.isWildcard hT)]

theorem declaredAt_sound (hΓ : Γ.Strict ctx C V) (hr : ctx.Regular) {t : TypeName} (ht : t.Definite)
    (h : (Γ.declaredAt t span).reports = []) : Denotes ctx C t (Γ.declaredAt t span).value := by
  have hknown := known_of_declaredAt h
  rw [Known, hΓ.context] at hknown
  have hvalue : (Γ.declaredAt t span).value = t.resolveSelf C := by
    rw [declaredAt, hΓ.context, hΓ.current, ClassTable.declaredType_eq hknown]
    rfl
  rw [hvalue]
  refine denotes_resolveSelf hr ?_
  rcases hr.known.mp hknown with hc | rfl | rfl | rfl
  · exact Or.inr hc
  · exact absurd rfl ht.1
  · exact Or.inl rfl
  · exact absurd rfl ht.2

theorem declaredAt_eq (hΓ : Γ.Strict ctx C V) (hr : ctx.Regular) {t : TypeName}
    (h : Denotes ctx C t T) : Γ.declaredAt t span = pure T := by
  have hknown : ctx.contains t = true := by
    cases h with
    | self => exact hr.known.mpr (Or.inr (Or.inr (Or.inl rfl)))
    | concrete h => exact hr.contains h
  rw [declaredAt, hΓ.context, hΓ.current, ClassTable.declaredType_eq hknown, pure_bind,
    h.resolveSelf_eq hr]

theorem call_sound (hΓ : Γ.Strict ctx C V) (hr : ctx.Regular) (ho : owner ∈ ctx.concreteTypes)
    {R : TypeName} {method : String} {n : Nat} (h : (Γ.call owner R method n span).reports = []) :
    ∃ m, ctx.HasMethod method owner m ∧ m.arity = n ∧
      (Γ.call owner R method n span).value = (m.paramTypes, m.ret.resolveSelf R) := by
  rw [← hΓ.context]
  rcases call_clean h with ⟨m, hm, hn⟩ | ⟨rfl, _⟩
  · exact ⟨m, hm, hn, by rw [call_of_hasMethod hm hn, value_pure]⟩
  · exact absurd rfl (hr.proper ho).2.2

theorem call_eq (hΓ : Γ.Strict ctx C V) {R : TypeName} {method : String} {n : Nat} {m : Signature}
    (hm : ctx.HasMethod method owner m) (hn : m.arity = n) :
    Γ.call owner R method n span = pure (m.paramTypes, m.ret.resolveSelf R) :=
  call_of_hasMethod (hΓ.context ▸ hm) hn

theorem arithmetic_clean (hΓ : Γ.Strict ctx C V) (hr : ctx.Regular) {op : BinaryOp}
    (hop : op.isArithmetic = true) (hS : S ∈ ctx.concreteTypes) (hT : T ∈ ctx.concreteTypes) :
    (Γ.binary op S T span).reports = [] ↔
      ctx.Descends S TypeName.int ∧ ctx.Descends T TypeName.int := by
  rw [Env.binary, if_pos hop, reports_bind, reports_pure, List.append_nil, reportUnless_clean,
    Bool.and_eq_true, hΓ.context, hr.conforms_iff hS rfl, hr.conforms_iff hT rfl]

theorem comparison_clean (hΓ : Γ.Strict ctx C V) (hr : ctx.Regular) {op : BinaryOp}
    (hop : op.isArithmetic = false) (hS : S ∈ ctx.concreteTypes) (hT : T ∈ ctx.concreteTypes) :
    (Γ.binary op S T span).reports = [] ↔ ctx.Descends S T ∨ ctx.Descends T S := by
  rw [Env.binary, if_neg (by simp [hop]), reports_bind, reports_pure, List.append_nil,
    reportUnless_clean, Bool.or_eq_true, hΓ.context, hr.conforms_iff hS (hr.isWildcard hT),
    hr.conforms_iff hT (hr.isWildcard hS)]

theorem not_clean (hr : ctx.Regular) {place : Span} (hS : S ∈ ctx.concreteTypes) :
    (Γ.unary .not S place span).reports = [] ↔ S = TypeName.bool := by
  rw [Env.unary, reports_bind, reports_pure, List.append_nil, reportUnless_clean, hr.isWildcard hS]
  simp

theorem negate_clean (hΓ : Γ.Strict ctx C V) (hr : ctx.Regular) {place : Span}
    (hS : S ∈ ctx.concreteTypes) :
    (Γ.unary .negate S place span).reports = [] ↔ ctx.Descends S TypeName.int := by
  rw [Env.unary, reports_bind, reports_pure, List.append_nil, reportUnless_clean, hΓ.context,
    hr.conforms_iff hS rfl]

end Env.Strict

theorem Env.value_binary (Γ : Env) (op : BinaryOp) (S T : TypeName) (span : Span) :
    (Γ.binary op S T span).value = if op.isArithmetic then TypeName.int else TypeName.bool := by
  unfold Env.binary
  split <;> rfl

/-! ## The types of the rules are concrete -/

theorem HasBindings.isConcrete (hC : C ∈ ctx.concreteTypes) {V W : Vars}
    {bindings : List (Binder × Option Expr)} :
    HasBindings ctx C V bindings W → V.Concrete ctx → W.Concrete ctx
  | .nil, hV => hV
  | .plain ht hrest, hV => hrest.isConcrete hC (hV.bind (ht.isConcrete hC))
  | .init ht _ _ hrest, hV => hrest.isConcrete hC (hV.bind (ht.isConcrete hC))

theorem HasParams.isConcrete (hC : C ∈ ctx.concreteTypes) {V W : Vars} {params : List Param} :
    HasParams ctx C V params W → V.Concrete ctx → W.Concrete ctx
  | .nil, hV => hV
  | .cons ht hrest, hV => hrest.isConcrete hC (hV.bind (ht.isConcrete hC))

mutual

theorem HasType.isConcrete (hr : ctx.Regular) (hC : C ∈ ctx.concreteTypes) {V : Vars} {e : Expr}
    {T : TypeName} : HasType ctx C V e T → V.Concrete ctx → T ∈ ctx.concreteTypes
  | .assign _ hx _ _, hV => hV _ _ hx
  | .dispatch hreceiver _ _ ht, hV => ht.isConcrete (hreceiver.isConcrete hr hC hV)
  | .staticDispatch hreceiver _ _ _ _ ht, hV => ht.isConcrete (hreceiver.isConcrete hr hC hV)
  | .cond _ _ ha _ hjoin, hV => hr.concrete_of_descends (ha.isConcrete hr hC hV) hjoin.left
  | .loop .., _ => hr.object
  | .letIn hbindings hbody, hV => hbody.isConcrete hr hC (hbindings.isConcrete hC hV)
  | .caseOf _ harms hjoins, hV => (hjoins.joinAll_eq hr (harms.isConcrete hr hC hV)).2
  | .emptyBlock, _ => hr.object
  | .block hbody, hV => hbody.isConcrete hr hC hV
  | .arithmetic .., _ => hr.int
  | .comparison .., _ => hr.bool
  | .not _, _ => hr.bool
  | .negate .., _ => hr.int
  | .isvoid _, _ => hr.bool
  | .new ht, _ => ht.isConcrete hC
  | .paren hinner, hV => hinner.isConcrete hr hC hV
  | .ident hx, hV => hV _ _ hx
  | .int, _ => hr.int
  | .str, _ => hr.string
  | .bool, _ => hr.bool

theorem HasReceiver.isConcrete (hr : ctx.Regular) (hC : C ∈ ctx.concreteTypes) {V : Vars}
    {receiver : Option Expr} {T : TypeName} :
    HasReceiver ctx C V receiver T → V.Concrete ctx → T ∈ ctx.concreteTypes
  | .self, _ => hC
  | .expr he, hV => he.isConcrete hr hC hV

theorem HasBlock.isConcrete (hr : ctx.Regular) (hC : C ∈ ctx.concreteTypes) {V : Vars}
    {es : List Expr} {T : TypeName} : HasBlock ctx C V es T → V.Concrete ctx → T ∈ ctx.concreteTypes
  | .last he, hV => he.isConcrete hr hC hV
  | .cons _ hes, hV => hes.isConcrete hr hC hV

theorem HasArms.isConcrete (hr : ctx.Regular) (hC : C ∈ ctx.concreteTypes) {V : Vars}
    {arms : List (Binder × Expr)} {Ts : List TypeName} :
    HasArms ctx C V arms Ts → V.Concrete ctx → ∀ T ∈ Ts, T ∈ ctx.concreteTypes
  | .nil, _ => by simp
  | .cons ht hbody harms, hV =>
      List.forall_mem_cons.mpr ⟨hbody.isConcrete hr hC (hV.bind (ht.isConcrete hC)),
        harms.isConcrete hr hC hV⟩

end

/-! ## What has a type is typed without a report -/

theorem HasArgs.length_eq {es : List Expr} {Ts : List TypeName} :
    HasArgs ctx C V es Ts → es.length = Ts.length
  | .nil => rfl
  | .cons _ _ hes => congrArg Nat.succ hes.length_eq

theorem Signature.length_paramTypes (m : Signature) : m.paramTypes.length = m.arity :=
  List.length_map ..

mutual

theorem HasType.typeOf_eq (hd : ctx.Definite) (hC : C ∈ ctx.concreteTypes) {Γ : Env} {V : Vars}
    {e : Expr} {T : TypeName} : HasType ctx C V e T → Γ.Strict ctx C V → typeOf Γ e = pure T
  | .assign hself hx hvalue hle, hΓ => by
      have hS := hvalue.isConcrete hd.toRegular hC hΓ.concrete
      have hT := hd.isWildcard (hΓ.concrete _ _ hx)
      rw [typeOf, hvalue.typeOf_eq hd hC hΓ, pure_bind, if_neg (by simpa using hself), hΓ.scope, hx]
      dsimp only
      rw [eq_pure ((hΓ.expect_clean hd.toRegular hS hT).mpr hle), pure_bind]
  | .dispatch hreceiver hm hargs ht, hΓ => by
      have hR := hreceiver.isConcrete hd.toRegular hC hΓ.concrete
      obtain ⟨owner, hmem⟩ := hm.mem_ownMethods
      have hn := hargs.length_eq.trans (Signature.length_paramTypes _)
      rw [typeOf, hreceiver.typeReceiver_eq hd hC hΓ, pure_bind, if_neg (by simpa using (hd.proper hR).1),
        hΓ.call_eq hm hn.symm, pure_bind]
      dsimp only
      rw [hargs.typeArgs_eq hd hC (hd.params hmem) hΓ, pure_bind, ht.resolveSelf_eq hd.toRegular]
  | .staticDispatch hreceiver hA hle hm hargs ht, hΓ => by
      have hR := hreceiver.isConcrete hd.toRegular hC hΓ.concrete
      obtain ⟨owner, hmem⟩ := hm.mem_ownMethods
      have hn := hargs.length_eq.trans (Signature.length_paramTypes _)
      rw [typeOf, hreceiver.typeOf_eq hd hC hΓ, pure_bind, hΓ.declaredAt_eq hd.toRegular hA, pure_bind,
        eq_pure ((hΓ.descends_clean hd.toRegular hR (hA.isConcrete hC)).mpr hle), pure_bind,
        hΓ.call_eq hm hn.symm, pure_bind]
      dsimp only
      rw [hargs.typeArgs_eq hd hC (hd.params hmem) hΓ, pure_bind, ht.resolveSelf_eq hd.toRegular]
  | .cond htest hle ha hb hjoin, hΓ => by
      have hS := htest.isConcrete hd.toRegular hC hΓ.concrete
      have hA := ha.isConcrete hd.toRegular hC hΓ.concrete
      have hB := hb.isConcrete hd.toRegular hC hΓ.concrete
      rw [typeOf, htest.typeOf_eq hd hC hΓ, pure_bind,
        eq_pure ((hΓ.condition_clean hd.toRegular hS).mpr hle), pure_bind, ha.typeOf_eq hd hC hΓ, pure_bind,
        hb.typeOf_eq hd hC hΓ, pure_bind, hΓ.context, (hd.isJoin_iff hA hB).mp hjoin]
  | .loop htest hle hbody, hΓ => by
      have hS := htest.isConcrete hd.toRegular hC hΓ.concrete
      rw [typeOf, htest.typeOf_eq hd hC hΓ, pure_bind,
        eq_pure ((hΓ.condition_clean hd.toRegular hS).mpr hle), pure_bind, hbody.typeOf_eq hd hC hΓ,
        pure_bind]
  | .letIn hbindings hbody, hΓ => by
      obtain ⟨Δ, heq, hΔ⟩ := hbindings.typeBindings_eq hd hC hΓ.nested
      rw [typeOf, heq, pure_bind, hbody.typeOf_eq hd hC hΔ]
  | .caseOf hscrutinee harms hjoins, hΓ => by
      have hTs := harms.isConcrete hd.toRegular hC hΓ.concrete
      rw [typeOf, hscrutinee.typeOf_eq hd hC hΓ, pure_bind, harms.typeArms_eq hd hC hΓ, pure_bind,
        hΓ.context, (hjoins.joinAll_eq hd.toRegular hTs).1]
  | .emptyBlock, _ => by rw [typeOf, typeBlock]
  | .block hbody, hΓ => by rw [typeOf, hbody.typeBlock_eq hd hC hΓ]
  | .arithmetic hop ha hb hle hle', hΓ => by
      have hA := ha.isConcrete hd.toRegular hC hΓ.concrete
      have hB := hb.isConcrete hd.toRegular hC hΓ.concrete
      rw [typeOf, ha.typeOf_eq hd hC hΓ, pure_bind, hb.typeOf_eq hd hC hΓ, pure_bind,
        eq_pure ((hΓ.arithmetic_clean hd.toRegular hop hA hB).mpr ⟨hle, hle'⟩), Env.value_binary,
        if_pos hop]
  | .comparison hop ha hb hle, hΓ => by
      have hA := ha.isConcrete hd.toRegular hC hΓ.concrete
      have hB := hb.isConcrete hd.toRegular hC hΓ.concrete
      rw [typeOf, ha.typeOf_eq hd hC hΓ, pure_bind, hb.typeOf_eq hd hC hΓ, pure_bind,
        eq_pure ((hΓ.comparison_clean hd.toRegular hop hA hB).mpr hle), Env.value_binary,
        if_neg (by simp [hop])]
  | .not hoperand, hΓ => by
      rw [typeOf, hoperand.typeOf_eq hd hC hΓ, pure_bind]
      exact eq_pure ((Env.Strict.not_clean hd.toRegular hd.bool).mpr rfl)
  | .negate hoperand hle, hΓ => by
      have hS := hoperand.isConcrete hd.toRegular hC hΓ.concrete
      rw [typeOf, hoperand.typeOf_eq hd hC hΓ, pure_bind]
      exact eq_pure ((hΓ.negate_clean hd.toRegular hS).mpr hle)
  | .isvoid hoperand, hΓ => by
      rw [typeOf, hoperand.typeOf_eq hd hC hΓ, pure_bind]
      rfl
  | .new ht, hΓ => by rw [typeOf, hΓ.declaredAt_eq hd.toRegular ht]
  | .paren hinner, hΓ => by rw [typeOf, hinner.typeOf_eq hd hC hΓ]
  | .ident hx, hΓ => by
      rw [typeOf, Env.variableType, hΓ.scope, hx]
  | .int, _ => by rw [typeOf]
  | .str, _ => by rw [typeOf]
  | .bool, _ => by rw [typeOf]

theorem HasReceiver.typeReceiver_eq (hd : ctx.Definite) (hC : C ∈ ctx.concreteTypes) {Γ : Env}
    {V : Vars} {receiver : Option Expr} {T : TypeName} :
    HasReceiver ctx C V receiver T → Γ.Strict ctx C V → typeReceiver Γ receiver = pure T
  | .self, hΓ => by rw [typeReceiver, hΓ.current]
  | .expr he, hΓ => by rw [typeReceiver, he.typeOf_eq hd hC hΓ]

theorem HasArgs.typeArgs_eq (hd : ctx.Definite) (hC : C ∈ ctx.concreteTypes) {Γ : Env} {V : Vars}
    {es : List Expr} {Ts : List TypeName} : HasArgs ctx C V es Ts → (∀ T ∈ Ts, T.Definite) →
      Γ.Strict ctx C V → typeArgs Γ es Ts = pure ()
  | .nil, _, _ => by rw [typeArgs]
  | .cons he hle hes, hTs, hΓ => by
      have hS := he.isConcrete hd.toRegular hC hΓ.concrete
      obtain ⟨hT, hTs⟩ := List.forall_mem_cons.mp hTs
      rw [typeArgs, he.typeOf_eq hd hC hΓ, pure_bind,
        eq_pure ((hΓ.expect_clean hd.toRegular hS hT.isWildcard).mpr hle), pure_bind,
        hes.typeArgs_eq hd hC hTs hΓ]

theorem HasBlock.typeBlock_eq (hd : ctx.Definite) (hC : C ∈ ctx.concreteTypes) {Γ : Env} {V : Vars}
    {es : List Expr} {T last : TypeName} :
    HasBlock ctx C V es T → Γ.Strict ctx C V → typeBlock Γ last es = pure T
  | .last he, hΓ => by rw [typeBlock, he.typeOf_eq hd hC hΓ, pure_bind, typeBlock]
  | .cons he hes, hΓ => by
      rw [typeBlock, he.typeOf_eq hd hC hΓ, pure_bind, hes.typeBlock_eq hd hC hΓ]

theorem HasBindings.typeBindings_eq (hd : ctx.Definite) (hC : C ∈ ctx.concreteTypes) {Γ : Env}
    {V W : Vars} {bindings : List (Binder × Option Expr)} :
    HasBindings ctx C V bindings W → Γ.Strict ctx C V →
      ∃ Δ : Env, typeBindings Γ bindings = pure Δ ∧ Δ.Strict ctx C W
  | .nil, hΓ => ⟨Γ, by rw [typeBindings], hΓ⟩
  | .plain ht hrest, hΓ => by
      rw [typeBindings, hΓ.declaredAt_eq hd.toRegular ht, pure_bind, checkInit, pure_bind]
      exact hrest.typeBindings_eq hd hC (hΓ.declare _ (ht.isConcrete hC))
  | .init ht he hle hrest, hΓ => by
      have hS := he.isConcrete hd.toRegular hC hΓ.concrete
      have hT := ht.isConcrete hC
      rw [typeBindings, hΓ.declaredAt_eq hd.toRegular ht, pure_bind, checkInit, he.typeOf_eq hd hC hΓ,
        pure_bind, eq_pure ((hΓ.expect_clean hd.toRegular hS (hd.isWildcard hT)).mpr hle), pure_bind]
      exact hrest.typeBindings_eq hd hC (hΓ.declare _ hT)

theorem HasArms.typeArms_eq (hd : ctx.Definite) (hC : C ∈ ctx.concreteTypes) {Γ : Env} {V : Vars}
    {arms : List (Binder × Expr)} {Ts : List TypeName} :
    HasArms ctx C V arms Ts → Γ.Strict ctx C V → typeArms Γ arms = pure Ts
  | .nil, _ => by rw [typeArms]
  | .cons ht hbody harms, hΓ => by
      rw [typeArms, hΓ.declaredAt_eq hd.toRegular ht, pure_bind,
        hbody.typeOf_eq hd hC (hΓ.nested.declare _ (ht.isConcrete hC)), pure_bind,
        harms.typeArms_eq hd hC hΓ, pure_bind]

end

/-! ## What is typed without a report has a type -/

mutual

theorem typeOf_sound (hd : ctx.Definite) (hC : C ∈ ctx.concreteTypes) {Γ : Env} {V : Vars}
    (hΓ : Γ.Strict ctx C V) : (e : Expr) → e.Writes TypeName.Definite → (typeOf Γ e).reports = [] →
      HasType ctx C V e (typeOf Γ e).value
  | .assign span name value, hw, h => by
      simp only [typeOf, reports_bind, value_bind, List.append_eq_nil_iff] at h ⊢
      obtain ⟨hvalue, h⟩ := h
      have hS := typeOf_sound hd hC hΓ value (Expr.writes_assign.mp hw) hvalue
      by_cases hself : name = selfName
      · simp only [hself, beq_self_eq_true, ↓reduceIte] at h
        cases h
      · rw [if_neg (by simpa using hself), hΓ.scope] at h ⊢
        cases hx : V name with
        | none =>
            rw [hx] at h
            cases h
        | some T =>
            rw [hx] at h
            simp only [reports_bind, reports_pure, List.append_nil] at h
            have hcS := hS.isConcrete hd.toRegular hC hΓ.concrete
            have hcT := hd.isWildcard (hΓ.concrete _ _ hx)
            exact .assign hself hx hS ((hΓ.expect_clean hd.toRegular hcS hcT).mp h)
  | .dispatch span receiver method args, hw, h => by
      obtain ⟨hwr, hwa⟩ := Expr.writes_dispatch.mp hw
      simp only [typeOf, reports_bind, value_bind, List.append_eq_nil_iff] at h ⊢
      obtain ⟨hreceiver, h⟩ := h
      have hR := typeReceiver_sound hd hC hΓ receiver hwr hreceiver
      have hconcrete := hR.isConcrete hd.toRegular hC hΓ.concrete
      rw [if_neg (by simpa using (hd.proper hconcrete).1)] at h ⊢
      simp only [reports_bind, value_bind, value_pure, List.append_eq_nil_iff] at h ⊢
      obtain ⟨hcall, hargs, _⟩ := h
      obtain ⟨m, hm, hn, hvalue⟩ := hΓ.call_sound hd.toRegular hconcrete hcall
      obtain ⟨owner, hmem⟩ := hm.mem_ownMethods
      rw [hvalue] at hargs ⊢
      have hlength := m.length_paramTypes.trans hn
      exact .dispatch hR hm (typeArgs_sound hd hC hΓ args _ hlength (hd.params hmem) hwa hargs)
        (denotes_resolveSelf hd.toRegular (hd.results hmem))
  | .staticDispatch span receiver ancestor method args, hw, h => by
      obtain ⟨hancestor, hwr, hwa⟩ := Expr.writes_staticDispatch.mp hw
      simp only [typeOf, reports_bind, value_bind, value_pure, List.append_eq_nil_iff] at h ⊢
      obtain ⟨hreceiver, hdeclared, hdescends, hcall, hargs, _⟩ := h
      have hR := typeOf_sound hd hC hΓ receiver hwr hreceiver
      have hA := hΓ.declaredAt_sound hd.toRegular hancestor hdeclared
      have hcR := hR.isConcrete hd.toRegular hC hΓ.concrete
      have hcA := hA.isConcrete hC
      obtain ⟨m, hm, hn, hvalue⟩ := hΓ.call_sound hd.toRegular hcA hcall
      obtain ⟨owner, hmem⟩ := hm.mem_ownMethods
      rw [hvalue] at hargs ⊢
      have hlength := m.length_paramTypes.trans hn
      exact .staticDispatch hR hA ((hΓ.descends_clean hd.toRegular hcR hcA).mp hdescends) hm
        (typeArgs_sound hd hC hΓ args _ hlength (hd.params hmem) hwa hargs)
        (denotes_resolveSelf hd.toRegular (hd.results hmem))
  | .cond span test thenBranch elseBranch, hw, h => by
      obtain ⟨hwt, hwa, hwb⟩ := Expr.writes_cond.mp hw
      simp only [typeOf, reports_bind, value_bind, value_pure, List.append_eq_nil_iff] at h ⊢
      obtain ⟨htest, hcondition, ha, hb, _⟩ := h
      have hS := typeOf_sound hd hC hΓ test hwt htest
      have hA := typeOf_sound hd hC hΓ thenBranch hwa ha
      have hB := typeOf_sound hd hC hΓ elseBranch hwb hb
      have hcS := hS.isConcrete hd.toRegular hC hΓ.concrete
      have hcA := hA.isConcrete hd.toRegular hC hΓ.concrete
      have hcB := hB.isConcrete hd.toRegular hC hΓ.concrete
      rw [hΓ.context]
      exact .cond hS ((hΓ.condition_clean hd.toRegular hcS).mp hcondition) hA hB (hd.isJoin hcA hcB)
  | .loop span test body, hw, h => by
      obtain ⟨hwt, hwb⟩ := Expr.writes_loop.mp hw
      simp only [typeOf, reports_bind, value_bind, value_pure, List.append_eq_nil_iff] at h ⊢
      obtain ⟨htest, hcondition, hbody, _⟩ := h
      have hS := typeOf_sound hd hC hΓ test hwt htest
      have hcS := hS.isConcrete hd.toRegular hC hΓ.concrete
      exact .loop hS ((hΓ.condition_clean hd.toRegular hcS).mp hcondition)
        (typeOf_sound hd hC hΓ body hwb hbody)
  | .letIn span bindings body, hw, h => by
      obtain ⟨hwi, hwb⟩ := Expr.writes_letIn.mp hw
      simp only [typeOf, reports_bind, value_bind, List.append_eq_nil_iff] at h ⊢
      obtain ⟨W, hbindings, hΔ⟩ := typeBindings_sound hd hC hΓ.nested bindings hwi h.1
      exact .letIn hbindings (typeOf_sound hd hC hΔ body hwb h.2)
  | .caseOf span scrutinee arms, hw, h => by
      obtain ⟨hws, hwa⟩ := Expr.writes_caseOf.mp hw
      simp only [typeOf, reports_bind, value_bind, value_pure, List.append_eq_nil_iff] at h ⊢
      have harms := typeArms_sound hd hC hΓ arms hwa h.2.1
      rw [hΓ.context]
      exact .caseOf (typeOf_sound hd hC hΓ scrutinee hws h.1) harms
        (hd.joinsTo_joinAll (harms.isConcrete hd.toRegular hC hΓ.concrete))
  | .block span [], _, _ => by
      rw [typeOf, typeBlock]
      exact .emptyBlock
  | .block span (e :: es), hw, h => by
      rw [typeOf] at h ⊢
      exact .block (typeBlock_sound hd hC hΓ (e :: es) (List.cons_ne_nil e es) (Expr.writes_block.mp hw) h)
  | .binary span op left right, hw, h => by
      obtain ⟨hwl, hwr⟩ := Expr.writes_binary.mp hw
      simp only [typeOf, reports_bind, value_bind, List.append_eq_nil_iff] at h ⊢
      have hA := typeOf_sound hd hC hΓ left hwl h.1
      have hB := typeOf_sound hd hC hΓ right hwr h.2.1
      have hcA := hA.isConcrete hd.toRegular hC hΓ.concrete
      have hcB := hB.isConcrete hd.toRegular hC hΓ.concrete
      rw [Env.value_binary]
      cases hop : op.isArithmetic with
      | true =>
          obtain ⟨hle, hle'⟩ := (hΓ.arithmetic_clean hd.toRegular hop hcA hcB).mp h.2.2
          exact .arithmetic hop hA hB hle hle'
      | false => exact .comparison hop hA hB ((hΓ.comparison_clean hd.toRegular hop hcA hcB).mp h.2.2)
  | .unary span op operand, hw, h => by
      simp only [typeOf, reports_bind, value_bind, List.append_eq_nil_iff] at h ⊢
      have hS := typeOf_sound hd hC hΓ operand (Expr.writes_unary.mp hw) h.1
      have hconcrete := hS.isConcrete hd.toRegular hC hΓ.concrete
      cases op with
      | not => exact .not ((Env.Strict.not_clean hd.toRegular hconcrete).mp h.2 ▸ hS)
      | negate => exact .negate hS ((hΓ.negate_clean hd.toRegular hconcrete).mp h.2)
      | isvoid => exact .isvoid hS
  | .new span ty, hw, h => by
      rw [typeOf] at h ⊢
      exact .new (hΓ.declaredAt_sound hd.toRegular (Expr.writes_new.mp hw) h)
  | .paren span inner, hw, h => by
      rw [typeOf] at h ⊢
      exact .paren (typeOf_sound hd hC hΓ inner (Expr.writes_paren.mp hw) h)
  | .ident span name, _, h => by
      rw [typeOf, Env.variableType, hΓ.scope] at h ⊢
      cases hx : V name with
      | none =>
          rw [hx] at h
          cases h
      | some T => exact .ident hx
  | .int .., _, _ => by
      rw [typeOf]
      exact .int
  | .str .., _, _ => by
      rw [typeOf]
      exact .str
  | .bool .., _, _ => by
      rw [typeOf]
      exact .bool

theorem typeReceiver_sound (hd : ctx.Definite) (hC : C ∈ ctx.concreteTypes) {Γ : Env} {V : Vars}
    (hΓ : Γ.Strict ctx C V) : (receiver : Option Expr) → (∀ e ∈ receiver, e.Writes TypeName.Definite) →
      (typeReceiver Γ receiver).reports = [] → HasReceiver ctx C V receiver (typeReceiver Γ receiver).value
  | none, _, _ => by
      rw [typeReceiver, hΓ.current]
      exact .self
  | some e, hw, h => by
      rw [typeReceiver] at h ⊢
      exact .expr (typeOf_sound hd hC hΓ e (hw e rfl) h)

theorem typeArgs_sound (hd : ctx.Definite) (hC : C ∈ ctx.concreteTypes) {Γ : Env} {V : Vars}
    (hΓ : Γ.Strict ctx C V) : (es : List Expr) → (Ts : List TypeName) → Ts.length = es.length →
      (∀ T ∈ Ts, T.Definite) → (∀ e ∈ es, e.Writes TypeName.Definite) →
      (typeArgs Γ es Ts).reports = [] → HasArgs ctx C V es Ts
  | [], [], _, _, _, _ => .nil
  | e :: es, T :: Ts, hn, hTs, hw, h => by
      obtain ⟨hT, hTs⟩ := List.forall_mem_cons.mp hTs
      obtain ⟨hwe, hw⟩ := List.forall_mem_cons.mp hw
      simp only [typeArgs, reports_bind, List.append_eq_nil_iff] at h
      have hS := typeOf_sound hd hC hΓ e hwe h.1
      have hcS := hS.isConcrete hd.toRegular hC hΓ.concrete
      exact .cons hS ((hΓ.expect_clean hd.toRegular hcS hT.isWildcard).mp h.2.1)
        (typeArgs_sound hd hC hΓ es Ts (Nat.succ.inj hn) hTs hw h.2.2)

theorem typeBlock_sound (hd : ctx.Definite) (hC : C ∈ ctx.concreteTypes) {Γ : Env} {V : Vars}
    (hΓ : Γ.Strict ctx C V) {last : TypeName} : (es : List Expr) → es ≠ [] →
      (∀ e ∈ es, e.Writes TypeName.Definite) → (typeBlock Γ last es).reports = [] →
      HasBlock ctx C V es (typeBlock Γ last es).value
  | [], hne, _, _ => absurd rfl hne
  | [e], _, hw, h => by
      simp only [typeBlock, reports_bind, value_bind, value_pure, List.append_eq_nil_iff] at h ⊢
      exact .last (typeOf_sound hd hC hΓ e (hw e List.mem_cons_self) h.1)
  | e :: x :: es, _, hw, h => by
      obtain ⟨hwe, hw⟩ := List.forall_mem_cons.mp hw
      rw [typeBlock] at h ⊢
      simp only [reports_bind, value_bind, List.append_eq_nil_iff] at h ⊢
      exact .cons (typeOf_sound hd hC hΓ e hwe h.1)
        (typeBlock_sound hd hC hΓ (x :: es) (List.cons_ne_nil x es) hw h.2)

theorem checkInit_sound (hd : ctx.Definite) (hC : C ∈ ctx.concreteTypes) {Γ : Env} {V : Vars}
    (hΓ : Γ.Strict ctx C V) {T : TypeName} (hT : T ∈ ctx.concreteTypes) : (init : Option Expr) →
      (∀ e ∈ init, e.Writes TypeName.Definite) → (checkInit Γ T init).reports = [] →
      ∀ e ∈ init, ∃ S, HasType ctx C V e S ∧ ctx.Descends S T
  | none, _, _ => by simp
  | some e, hw, h => by
      simp only [checkInit, reports_bind, List.append_eq_nil_iff] at h
      have hS := typeOf_sound hd hC hΓ e (hw e rfl) h.1
      have hcS := hS.isConcrete hd.toRegular hC hΓ.concrete
      rintro _ ⟨⟩
      exact ⟨_, hS, (hΓ.expect_clean hd.toRegular hcS (hd.isWildcard hT)).mp h.2⟩

theorem typeBindings_sound (hd : ctx.Definite) (hC : C ∈ ctx.concreteTypes) {Γ : Env} {V : Vars}
    (hΓ : Γ.Strict ctx C V) : (bindings : List (Binder × Option Expr)) →
      (∀ b ∈ bindings, b.1.ty.Definite ∧ ∀ e ∈ b.2, e.Writes TypeName.Definite) →
      (typeBindings Γ bindings).reports = [] →
      ∃ W, HasBindings ctx C V bindings W ∧ (typeBindings Γ bindings).value.Strict ctx C W
  | [], _, _ => ⟨V, .nil, hΓ⟩
  | (b, init) :: bindings, hw, h => by
      obtain ⟨⟨hty, hwi⟩, hw⟩ := List.forall_mem_cons.mp hw
      simp only [typeBindings, reports_bind, value_bind, List.append_eq_nil_iff] at h ⊢
      have hT := hΓ.declaredAt_sound hd.toRegular hty h.1
      have hconcrete := hT.isConcrete hC
      have hinit := checkInit_sound hd hC hΓ hconcrete init hwi h.2.1
      obtain ⟨W, hrest, hΔ⟩ :=
        typeBindings_sound hd hC (hΓ.declare b.name hconcrete) bindings hw h.2.2
      refine ⟨W, ?_, hΔ⟩
      cases init with
      | none => exact .plain hT hrest
      | some e =>
          obtain ⟨S, hS, hle⟩ := hinit e rfl
          exact .init hT hS hle hrest

theorem typeArms_sound (hd : ctx.Definite) (hC : C ∈ ctx.concreteTypes) {Γ : Env} {V : Vars}
    (hΓ : Γ.Strict ctx C V) : (arms : List (Binder × Expr)) →
      (∀ a ∈ arms, a.1.ty.Definite ∧ a.2.Writes TypeName.Definite) →
      (typeArms Γ arms).reports = [] → HasArms ctx C V arms (typeArms Γ arms).value
  | [], _, _ => by
      rw [typeArms]
      exact .nil
  | (b, body) :: arms, hw, h => by
      obtain ⟨⟨hty, hwb⟩, hw⟩ := List.forall_mem_cons.mp hw
      simp only [typeArms, reports_bind, value_bind, value_pure, List.append_eq_nil_iff] at h ⊢
      have hT := hΓ.declaredAt_sound hd.toRegular hty h.1
      exact .cons hT
        (typeOf_sound hd hC (hΓ.nested.declare b.name (hT.isConcrete hC)) body hwb h.2.1)
        (typeArms_sound hd hC hΓ arms hw h.2.2.1)

end

end CoolTyping
