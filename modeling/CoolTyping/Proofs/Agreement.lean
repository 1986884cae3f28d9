import Mathlib
import CoolTyping.Proofs.Everywhere
import CoolTyping.Proofs.Fixpoint
import CoolTyping.Proofs.Sights

/-!
# Programs with nothing to infer

Where all types are declared, no entry can change. What is left of a sweep is the look-up of methods, and
it finds what the rules find: the candidates of an expression are not none, and all descend from the type
that the expression has by the rules, so they have the methods of that type.
-/

namespace CoolTyping

open Reporting Seed

/-! ## Trees that cannot change -/

namespace BagTree

variable {t u : BagTree}

/-- All types were declared. -/
def Locked (t : BagTree) : Prop := ∀ b ∈ t.bags, ∀ x ∈ b.entries.toList, x.2.locked = true

theorem Locked.eq_of_evolvesTo (h : t.Locked) (hu : t.EvolvesTo u) : u = t := by
  refine hu.eq_of (pointwise_eq hu.bags fun a ha b hab => ?_)
  refine hab.eq_of (pointwise_eq hab.entries fun x hx y hxy => ?_)
  exact Prod.ext hxy.1 (hxy.2.fixed (h a ha x hx))

theorem Locked.entryAt? (h : t.Locked) {i : BagId} {slot : Slot} {e : Entry}
    (he : t.entryAt? i slot = some e) : e.locked = true := by
  obtain ⟨b, hb, hx⟩ := mem_of_entryAt? he
  exact h b hb _ hx

end BagTree

namespace Sweep

/-- The tree is `T`, and there was nothing to report. -/
def Still (T : BagTree) (s : State) : Prop := s.tree = T ∧ s.reports = []

variable {T : BagTree} {Γ : Env} {bag inner : BagId}

theorem narrow_still (h : T.Locked) (slot : Slot) (incoming : Candidates) :
    Keeps (Still T) (narrow Γ bag slot incoming) (fun _ => True) := by
  rintro ⟨_, _⟩ ⟨rfl, rfl⟩
  exact ⟨⟨h.eq_of_evolvesTo (BagTree.evolvesTo_narrow _ _ _ _ _), rfl⟩, trivial⟩

theorem snapshot_still (slot : Slot) : Keeps (Still T) (snapshot Γ bag slot)
    (· = (T.get? Γ.context bag slot).map Entry.snapshot) :=
  Keeps.get.bind fun _ hs => .pure (by rw [hs.1])

theorem scopeBag_still (b : Binder) :
    Keeps (Still T) (scopeBag b.id bag) (· = Constraint.scopeOf T bag b) :=
  Keeps.get.bind fun _ hs => .pure (by rw [hs.1]; rfl)

theorem narrowVar_still (h : T.Locked) (e : Expr) (incoming : Candidates) :
    Keeps (Still T) (narrowVar Γ bag e incoming) (fun _ => True) := by
  unfold narrowVar
  cases e.variableName? with
  | none => exact .pure trivial
  | some name => exact narrow_still h _ _

theorem narrowReceiver_still (h : T.Locked) (receiver : Option Expr) (incoming : Candidates) :
    Keeps (Still T) (narrowReceiver Γ bag receiver incoming) (fun _ => True) := by
  cases receiver with
  | none => exact .pure trivial
  | some e => exact narrowVar_still h e _

theorem narrowTo_still (h : T.Locked) (e : Expr) (restriction : Option Candidates) :
    Keeps (Still T) (narrowTo Γ bag e restriction) (fun _ => True) := by
  cases restriction with
  | none => exact .pure trivial
  | some types => exact narrowVar_still h e types

theorem narrowParam_still (h : T.Locked) (methodBag : Option BagId) (name : String) (found : Candidates) :
    Keeps (Still T) (narrowParam Γ methodBag name found) (fun _ => True) := by
  cases methodBag with
  | none => exact .pure trivial
  | some bag => exact narrow_still h _ _

theorem paramTypes_still (methodBag : Option BagId) (param : String × TypeName) :
    Keeps (Still T) (paramTypes Γ methodBag param) (fun _ => True) := by
  cases methodBag with
  | none => exact .pure trivial
  | some bag => exact (snapshot_still _).bind fun _ _ => .pure trivial

theorem store_still (h : T.Locked) (value : Expr) (found : Candidates) (slot : Slot) :
    Keeps (Still T) (store Γ bag value found inner slot) (fun _ => True) := by
  refine (narrow_still h _ _).bind fun _ _ => (snapshot_still _).bind fun target _ => ?_
  cases target with
  | none => exact .pure trivial
  | some target =>
      unfold restrict
      dsimp only
      cases value.variableName? with
      | none => exact .pure trivial
      | some name =>
          refine Keeps.get.bind fun s _ => ?_
          cases s.tree.get? Γ.context bag (.var name) with
          | none => exact .pure trivial
          | some entry => exact .ite (fun _ => .pure trivial) fun _ => narrow_still h _ _

end Sweep

/-! ## Candidates below a type -/

/-- There are candidates, and all descend from `τ`. -/
structure Candidates.Under (ctx : Context) (τ : TypeName) (c : Candidates) : Prop where
  nonempty : ∃ t, t ∈ c.types
  descends : c.In (ctx.Descends · τ)

namespace Candidates

variable {ctx : Context} {σ τ t : TypeName} {a b : Candidates}

theorem under_single (h : ctx.Descends t τ) : (single t).Under ctx τ :=
  ⟨⟨t, TypeSet.mem_single.mpr rfl⟩, in_single h⟩

theorem Under.mono (h : a.Under ctx σ) (hστ : ctx.Descends σ τ) : a.Under ctx τ :=
  ⟨h.nonempty, fun t ht => (h.descends t ht).trans hστ⟩

theorem Under.merge (ha : a.Under ctx τ) (hb : b.Under ctx τ) : (a.merge b).Under ctx τ :=
  ⟨merge_nonempty ha.nonempty, ha.descends.merge hb.descends⟩

theorem under_snapshot {e : Entry} (h : e.candidates.toList = [τ]) : e.snapshot.Under ctx τ := by
  have hmem : ∀ t, t ∈ e.candidates ↔ t = τ := fun t => by rw [← TypeSet.mem_toList, h, List.mem_singleton]
  refine ⟨⟨τ, (hmem τ).mpr rfl⟩, fun t ht => ?_⟩
  rw [(hmem t).mp ht]
  exact .refl

end Candidates

theorem Context.JoinsTo.descends {ctx : Context} {ts : List TypeName} {τ : TypeName}
    (h : ctx.JoinsTo ts τ) : ∀ t ∈ ts, ctx.Descends t τ := by
  induction h with
  | none => simp
  | one =>
      rw [List.forall_mem_singleton]
      exact .refl
  | more hjoin _ ih =>
      obtain ⟨hc, hts⟩ := List.forall_mem_cons.mp ih
      exact List.forall_mem_cons.mpr ⟨hjoin.left.trans hc,
        List.forall_mem_cons.mpr ⟨hjoin.right.trans hc, hts⟩⟩

/-! ## The rules and a sweep -/

/-- The call does not name `SELF_TYPE` as the ancestor whose method is meant. -/
def Expr.NamesAncestor : Expr → Prop
  | .staticDispatch _ _ ancestor _ _ => ancestor ≠ TypeName.selfType
  | _ => True

instance : DecidablePred Expr.NamesAncestor
  | .staticDispatch _ _ ancestor _ _ => inferInstanceAs (Decidable (ancestor ≠ TypeName.selfType))
  | .assign .. | .dispatch .. | .cond .. | .loop .. | .letIn .. | .caseOf .. | .block .. | .binary ..
  | .unary .. | .new .. | .paren .. | .ident .. | .int .. | .str .. | .bool .. => isTrue trivial

/-- The classes fit together, and every type that the tree has come from was declared. -/
structure Rigid (cs : List ClassDecl) (T : BagTree) : Prop extends
    Legible cs T (Context.ofClasses cs) where
  locked : T.Locked
  overriding : ∀ c ∈ cs, ClassTable.mismatchReports (Context.ofClasses cs) c = []

/-- From the bag, which lies in the class, everything in sight shows its type. -/
structure Views (cs : List ClassDecl) (T : BagTree) (c : ClassDecl) (bag : BagId) (V : Vars) : Prop where
  inClass : T.classOf bag = c.name
  sights : Sights True (Context.ofClasses cs) T bag V

theorem Denotes.ne_auto {ctx : Context} {C t τ : TypeName} (h : Denotes ctx C t τ) (hr : ctx.Regular) :
    t ≠ TypeName.auto := by
  cases h with
  | self => decide
  | concrete hc => exact (hr.proper hc).1

theorem HasParams.denotes {ctx : Context} {C : TypeName} {V W : Vars} {params : List Param}
    (h : HasParams ctx C V params W) : ∀ p ∈ params, ∃ τ, Denotes ctx C p.ty τ := by
  induction h with
  | nil => simp
  | cons hτ _ ih => exact List.forall_mem_cons.mpr ⟨⟨_, hτ⟩, ih⟩

namespace Rigid

variable {cs : List ClassDecl} {T : BagTree} {c : ClassDecl} {bag inner : BagId} {V W : Vars}
  {τ : TypeName}

theorem views_binder (h : Rigid cs T) (hv : Views cs T c bag V) {b : Binder}
    (hplaced : Placed (Context.ofClasses cs) T c (.ofBinder b) (some bag) inner)
    (hτ : Denotes (Context.ofClasses cs) c.name b.ty τ) : Views cs T c inner (V.bind b.name τ) where
  inClass := hplaced.inClass
  sights := by
    refine h.sights_binder hv.sights hv.inClass hplaced ?_
    have hne : (b.ty == TypeName.auto) = false := by simpa using hτ.ne_auto h.regular
    rwa [BagTree.filledBinder?, BagTree.filled?, hne]

/-- A variable in sight has the one candidate that the rules give it. -/
theorem get?_var (hv : Views cs T c bag V) {x : String} (hx : V x = some τ) :
    ∃ e, T.get? (Context.ofClasses cs) bag (.var x) = some e ∧ e.candidates.toList = [τ] := by
  obtain ⟨e, he, σ, hσ, _, heq⟩ := hv.sights x τ hx
  rw [← heq (Or.inl trivial)] at hσ
  exact ⟨e, he, hσ⟩

/-- The result of a method is found in the bag of its class. -/
theorem result_eq (h : Rigid cs T) {t owner : TypeName} {name : String} {m : Signature} {e : Entry}
    (hm : (Context.ofClasses cs).method? t name = some (owner, m))
    (hret : m.ret ∈ (Context.ofClasses cs).concreteTypes)
    (hresult : (T.classBag? owner).bind (T.get? (Context.ofClasses cs) · (.result m.name)) = some e) :
    e.candidates.toList = [m.ret] := by
  obtain ⟨bag, hbag, he⟩ := Option.bind_eq_some_iff.mp hresult
  obtain ⟨c, hc, rfl, hplaced⟩ := h.class_of_classBag? hbag
  have hown := (Context.mem_ownMethods_of_method? hm).1
  rw [h.fitting.ownMethods_class hc] at hown
  obtain ⟨d, hd, rfl⟩ := List.mem_map.mp hown
  obtain ⟨f, hf, hfound, hev⟩ := h.get?_result hc hplaced hd
  cases he.symm.trans hf
  refine h.candidates_eq hfound hev ?_
  have hne : (d.ret == TypeName.auto) = false := beq_eq_false_iff_ne.mpr (h.regular.proper hret).1
  rw [BagTree.filled?, hne]
  exact .concrete hret

open Candidates Sweep

/-- A call on a descendant of a type may have a type below the one that it has on the type itself. -/
theorem resultOf_under (h : Rigid cs T) {t R owner : TypeName} {name : String} {m n : Signature}
    (ht : (Context.ofClasses cs).Descends t R) (hn : (Context.ofClasses cs).method? t name = some (owner, n))
    (hret : n.ret = m.ret) (hτ : Denotes (Context.ofClasses cs) R m.ret τ) :
    (resultOf (Context.ofClasses cs) T owner t n).Under (Context.ofClasses cs) τ := by
  unfold resultOf
  rw [← hret] at hτ
  rcases denotes_iff.mp hτ with ⟨hself, rfl⟩ | ⟨rfl, hconcrete⟩
  · rw [if_pos (by simp [hself])]
    exact under_single ht
  · rw [if_neg (by simpa using (h.regular.proper hconcrete).2.1)]
    split
    · rename_i e he
      exact under_snapshot (h.result_eq hn hconcrete he)
    · exact under_single .refl

theorem resultsOf_under (h : Rigid cs T) {R : TypeName} {name : String} {m : Signature} {ts : TypeSet}
    (hne : ∃ t, t ∈ ts) (hts : ∀ t ∈ ts, (Context.ofClasses cs).Descends t R)
    (hm : (Context.ofClasses cs).HasMethod name R m) (hτ : Denotes (Context.ofClasses cs) R m.ret τ) :
    (resultsOf (Context.ofClasses cs) T name ts).Under (Context.ofClasses cs) τ := by
  have hmethod : ∀ t ∈ ts, ∃ owner n, (Context.ofClasses cs).method? t name = some (owner, n) ∧
      (resultOf (Context.ofClasses cs) T owner t n).Under (Context.ofClasses cs) τ := by
    intro t ht
    obtain ⟨n, hn, hret, _⟩ := ClassTable.hasMethod_of_descends h.overriding (hts t ht) hm
    obtain ⟨owner, hn⟩ := Context.hasMethod_iff.mp hn
    exact ⟨owner, n, hn, h.resultOf_under (hts t ht) hn hret hτ⟩
  constructor
  · obtain ⟨t, ht⟩ := hne
    obtain ⟨owner, n, hn, hunder⟩ := hmethod t ht
    obtain ⟨x, hx⟩ := hunder.nonempty
    exact ⟨x, mem_resultsOf.mpr ⟨t, ht, owner, n, hn, hx⟩⟩
  · intro x hx
    obtain ⟨t, ht, owner, n, hn, hx⟩ := mem_resultsOf.mp hx
    obtain ⟨owner', n', hn', hunder⟩ := hmethod t ht
    rw [hn] at hn'
    cases hn'
    exact hunder.descends x hx

/-- A method that the rules find for a type is found for every candidate below it. -/
theorem fitting?_isSome (h : Rigid cs T) {t R : TypeName} {name : String} {m : Signature} {argCount : Nat}
    (ht : (Context.ofClasses cs).Descends t R) (hm : (Context.ofClasses cs).HasMethod name R m)
    (hargs : argCount = m.paramTypes.length) :
    (fitting? (Context.ofClasses cs) t name argCount).isSome = true := by
  obtain ⟨n, hn, _, hparams⟩ := ClassTable.hasMethod_of_descends h.overriding ht hm
  obtain ⟨owner, hn⟩ := Context.hasMethod_iff.mp hn
  have harity : n.arity = argCount := by
    rw [hargs, ← hparams, Signature.paramTypes, List.length_map, Signature.arity]
  rw [fitting?, hn]
  simp [harity]

end Rigid

namespace Sweep

open Candidates

variable {cs : List ClassDecl} {T : BagTree} {c : ClassDecl}

/-- What is asked of every part of an expression. -/
def Asked (e : Expr) : Prop := e.HasArms ∧ e.NamesAncestor

mutual

theorem visit_agrees (h : Rigid cs T) {V : Vars} {e : Expr} {τ : TypeName} {bag : BagId} :
    HasType (Context.ofClasses cs) c.name V e τ → Views cs T c bag V →
    Nested (Context.ofClasses cs) T c bag e → e.Everywhere Asked →
    ∀ restriction, Keeps (Still T) (visit ⟨Context.ofClasses cs, c.name⟩ bag restriction e)
      (Under (Context.ofClasses cs) τ)
  | .int, _, _, _, _ | .str, _, _, _, _ | .bool, _, _, _, _ => .pure (under_single .refl)
  | .ident hx, hv, _, _, _ => by
      obtain ⟨e, he, hτ⟩ := Rigid.get?_var hv hx
      refine (snapshot_still _).bind fun o ho => ?_
      subst ho
      rw [he]
      exact .pure (under_snapshot hτ)
  | .new hτ, _, _, _, _ => by
      rcases denotes_iff.mp hτ with ⟨rfl, rfl⟩ | ⟨rfl, hc⟩
      · exact .pure (under_single .refl)
      · refine .ite (fun hself => absurd (by simpa using hself) (h.regular.proper hc).2.1) fun _ => ?_
        refine .ite (fun hunknown => ?_) fun _ => .pure (under_single .refl)
        have hne := (h.regular.proper hc).1
        simp [h.regular.contains hc, hne] at hunknown
  | .paren he, hv, hn, ha, r => visit_agrees h he hv hn (ha.child List.mem_cons_self) r
  | .assign _ hx he _, hv, hn, ha, _ => by
      obtain ⟨e, hget, hτ⟩ := Rigid.get?_var hv hx
      refine (snapshot_still _).bind fun target _ => ?_
      refine (visit_agrees h he hv hn (ha.child List.mem_cons_self) target).bind fun found _ => ?_
      refine (store_still h.locked _ _ _).bind fun _ _ => (snapshot_still _).bind fun o ho => ?_
      subst ho
      rw [hget]
      exact .pure (under_snapshot hτ)
  | .emptyBlock, _, _, _, _ => .pure (under_single .refl)
  | .block hb, hv, hn, ha, r => visitBlock_agrees h _ hb hv hn (fun x hx => ha.child hx) r
  | .arithmetic hop hl hr _ _, hv, hn, ha, _ => by
      refine .ite (fun _ => ?_) fun hnot => absurd hop hnot
      refine (visit_agrees h hl hv hn.1 (ha.child List.mem_cons_self) _).bind fun _ _ => ?_
      refine (visit_agrees h hr hv hn.2 (ha.child (by simp [Expr.children])) _).bind fun _ _ => ?_
      refine (narrowVar_still h.locked _ _).bind fun _ _ => (narrowVar_still h.locked _ _).bind fun _ _ => ?_
      exact .pure (under_single .refl)
  | .comparison hop hl hr _, hv, hn, ha, _ => by
      refine .ite (fun hnot => absurd hnot (by simp [hop])) fun _ => ?_
      refine (visit_agrees h hl hv hn.1 (ha.child List.mem_cons_self) _).bind fun _ _ => ?_
      refine (visit_agrees h hr hv hn.2 (ha.child (by simp [Expr.children])) _).bind fun _ _ => ?_
      exact .pure (under_single .refl)
  | .not he, hv, hn, ha, _ => by
      refine (visit_agrees h he hv hn (ha.child List.mem_cons_self) _).bind fun _ _ => ?_
      exact (narrowVar_still h.locked _ _).bind fun _ _ => .pure (under_single .refl)
  | .negate he _, hv, hn, ha, _ => by
      refine (visit_agrees h he hv hn (ha.child List.mem_cons_self) _).bind fun _ _ => ?_
      exact (narrowVar_still h.locked _ _).bind fun _ _ => .pure (under_single .refl)
  | .isvoid he, hv, hn, ha, _ => by
      refine (visit_agrees h he hv hn (ha.child List.mem_cons_self) _).bind fun _ _ => ?_
      exact .pure (under_single .refl)
  | .loop ht _ hb, hv, hn, ha, _ => by
      refine (visit_agrees h ht hv hn.1 (ha.child List.mem_cons_self) _).bind fun _ _ => ?_
      refine (narrowVar_still h.locked _ _).bind fun _ _ => ?_
      refine (visit_agrees h hb hv hn.2 (ha.child (by simp [Expr.children])) _).bind fun _ _ => ?_
      exact .pure (under_single .refl)
  | .cond ht _ h₁ h₂ hjoin, hv, hn, ha, _ => by
      refine (visit_agrees h ht hv hn.1 (ha.child List.mem_cons_self) _).bind fun _ _ => ?_
      refine (narrowVar_still h.locked _ _).bind fun _ _ => ?_
      refine (visit_agrees h h₁ hv hn.2.1 (ha.child (by simp [Expr.children])) _).bind fun a hle => ?_
      refine (visit_agrees h h₂ hv hn.2.2 (ha.child (by simp [Expr.children])) _).bind fun b hle' => ?_
      exact .pure ((hle.mono hjoin.left).merge (hle'.mono hjoin.right))
  | .letIn hbindings hbody, hv, hn, ha, r => by
      refine (visitBindings_agrees h hbindings hv hn.1 fun b hb e he => ha.child ?_).bind
        fun scope hscope => ?_
      · exact List.mem_append_left _ (List.mem_filterMap.mpr ⟨b, hb, he⟩)
      · obtain ⟨rfl, hv⟩ := hscope
        exact visit_agrees h hbody hv hn.2 (ha.child (by simp [Expr.children])) r
  | .caseOf he harms hjoin, hv, hn, ha, _ => by
      refine (visit_agrees h he hv hn.1 (ha.child List.mem_cons_self) _).bind fun _ _ => ?_
      refine visitArms_agrees h harms hv hn.2 (fun b hb => ha.child ?_) hjoin.descends in_none
        (Or.inr ha.here.1)
      exact List.mem_cons_of_mem _ (List.mem_map_of_mem hb)
  | .dispatch hreceiver hm hargs hτ, hv, hn, ha, _ => by
      refine (visitReceiver_agrees h hreceiver hv hn.1 fun e he => ha.child ?_).bind fun found hfound => ?_
      · exact List.mem_append_left _ (Option.mem_toList.mpr he)
      have hall : ∀ t ∈ found.types, t ∈ found.types.filter fun t =>
          (fitting? (Context.ofClasses cs) t _ _).isSome := fun t ht =>
        TypeSet.mem_filter.mpr ⟨ht, h.fitting?_isSome (hfound.descends t ht) hm hargs.length_eq⟩
      have hne := hfound.nonempty.imp hall
      refine .ite (fun hempty => ?_) fun _ => ?_
      · obtain ⟨t, ht⟩ := hne
        rw [← TypeSet.mem_toList, TypeSet.isEmpty_iff.mp hempty] at ht
        cases ht
      have hunder := h.resultsOf_under hne (fun t ht => hfound.descends t (TypeSet.mem_filter.mp ht).1) hm hτ
      refine (narrowReceiver_still h.locked _ _).bind fun _ _ => ?_
      split
      · refine Keeps.get.bind fun s _ => (visitArgs_agrees h hargs hv hn.2
          (fun e he => ha.child (List.mem_append_right _ he)) _ _).bind fun _ _ => ?_
        exact Keeps.get.bind fun s hs => .pure (by rw [hs.1]; exact hunder)
      · refine Keeps.get.bind fun s hs => (visitAll_agrees h hargs hv hn.2
          (fun e he => ha.child (List.mem_append_right _ he))).bind fun _ _ => .pure ?_
        rw [hs.1]
        exact hunder
  | .staticDispatch hreceiver hA hle hm hargs hτ, hv, hn, ha, _ => by
      refine (visit_agrees h hreceiver hv hn.1 (ha.child List.mem_cons_self) _).bind fun found hfound => ?_
      obtain ⟨rfl, hconcrete⟩ := (denotes_iff.mp hA).resolve_left fun hself => ha.here.2 hself.1
      have hsome := h.fitting?_isSome .refl hm hargs.length_eq
      simp only [h.regular.contains hconcrete, ↓reduceIte]
      split
      · rename_i hnone
        rw [hnone] at hsome
        cases hsome
      · rename_i owner n hfit
        obtain ⟨owner', hm⟩ := Context.hasMethod_iff.mp hm
        obtain ⟨hn', _⟩ := fitting?_eq_some hfit
        cases hm.symm.trans hn'
        refine Keeps.get.bind fun s _ => (visitArgs_agrees h hargs hv hn.2
          (fun e he => ha.child (List.mem_cons_of_mem _ he)) _ _).bind fun _ _ => ?_
        rcases denotes_iff.mp hτ with ⟨hself, rfl⟩ | ⟨heq, hconcrete⟩
        · exact .ite (fun _ => .pure hfound) fun hnot => absurd (by simpa using hself) hnot
        · refine .ite (fun hself => absurd (by simpa using hself) (h.regular.proper hconcrete).2.1)
            fun _ => ?_
          refine Keeps.get.bind fun s hs => .pure ?_
          rw [hs.1]
          exact h.resultOf_under .refl hm rfl (denotes_iff.mpr (Or.inr ⟨heq, hconcrete⟩))

theorem visitReceiver_agrees (h : Rigid cs T) {V : Vars} {receiver : Option Expr} {τ : TypeName}
    {bag : BagId} :
    HasReceiver (Context.ofClasses cs) c.name V receiver τ → Views cs T c bag V →
    NestedOpt (Context.ofClasses cs) T c bag receiver → (∀ e ∈ receiver, e.Everywhere Asked) →
      Keeps (Still T) (visitReceiver ⟨Context.ofClasses cs, c.name⟩ bag receiver)
        (Under (Context.ofClasses cs) τ)
  | .self, _, _, _ => .pure (under_single .refl)
  | .expr he, hv, hn, ha => visit_agrees h he hv hn (ha _ rfl) _

theorem visitAll_agrees (h : Rigid cs T) {V : Vars} {es : List Expr} {Ts : List TypeName} {bag : BagId} :
    HasArgs (Context.ofClasses cs) c.name V es Ts → Views cs T c bag V →
    NestedAll (Context.ofClasses cs) T c bag es → (∀ e ∈ es, e.Everywhere Asked) →
      Keeps (Still T) (visitAll ⟨Context.ofClasses cs, c.name⟩ bag es) (fun _ => True)
  | .nil, _, _, _ => .pure trivial
  | .cons he _ hes, hv, hn, ha => by
      obtain ⟨ha, has⟩ := List.forall_mem_cons.mp ha
      exact (visit_agrees h he hv hn.1 ha _).bind fun _ _ => visitAll_agrees h hes hv hn.2 has

theorem visitArgs_agrees (h : Rigid cs T) {V : Vars} {es : List Expr} {Ts : List TypeName} {bag : BagId} :
    HasArgs (Context.ofClasses cs) c.name V es Ts → Views cs T c bag V →
    NestedAll (Context.ofClasses cs) T c bag es → (∀ e ∈ es, e.Everywhere Asked) → ∀ methodBag params,
      Keeps (Still T) (visitArgs ⟨Context.ofClasses cs, c.name⟩ bag methodBag params es) (fun _ => True)
  | .nil, _, _, _, _, _ => by unfold visitArgs; exact .pure trivial
  | .cons _ _ _, _, _, _, _, [] => .pure trivial
  | .cons he _ hes, hv, hn, ha, methodBag, param :: params => by
      obtain ⟨ha, has⟩ := List.forall_mem_cons.mp ha
      refine (paramTypes_still _ _).bind fun types _ => ?_
      refine (visit_agrees h he hv hn.1 ha _).bind fun found _ => ?_
      refine (narrowParam_still h.locked _ _ _).bind fun _ _ => ?_
      refine (narrowVar_still h.locked _ _).bind fun _ _ => ?_
      exact visitArgs_agrees h hes hv hn.2 has methodBag params

theorem visitBlock_agrees (h : Rigid cs T) {V : Vars} {τ : TypeName} {bag : BagId} : (es : List Expr) →
    HasBlock (Context.ofClasses cs) c.name V es τ → Views cs T c bag V →
    NestedAll (Context.ofClasses cs) T c bag es → (∀ e ∈ es, e.Everywhere Asked) → ∀ restriction,
      Keeps (Still T) (visitBlock ⟨Context.ofClasses cs, c.name⟩ bag restriction es)
        (Under (Context.ofClasses cs) τ)
  | _, .last he, hv, hn, ha, r => by
      refine (visit_agrees h he hv hn.1 (ha _ List.mem_cons_self) r).bind fun found hfound => ?_
      exact (narrowTo_still h.locked _ _).bind fun _ _ => .pure hfound
  | [_], .cons _ hes, _, _, _, _ => nomatch hes
  | _ :: e :: es, .cons he hes, hv, hn, ha, r => by
      obtain ⟨ha, has⟩ := List.forall_mem_cons.mp ha
      exact (visit_agrees h he hv hn.1 ha _).bind fun _ _ => visitBlock_agrees h (e :: es) hes hv hn.2 has r

theorem visitBindings_agrees (h : Rigid cs T) {V W : Vars} {bindings : List (Binder × Option Expr)}
    {bag : BagId} :
    HasBindings (Context.ofClasses cs) c.name V bindings W → Views cs T c bag V →
    NestedLets (Context.ofClasses cs) T c bag bindings → (∀ b ∈ bindings, ∀ e ∈ b.2, e.Everywhere Asked) →
      Keeps (Still T) (visitBindings ⟨Context.ofClasses cs, c.name⟩ bag bindings)
        (fun scope => scope = Constraint.letScope T bag bindings ∧ Views cs T c scope W)
  | .nil, hv, _, _ => .pure ⟨rfl, hv⟩
  | .plain hτ hrest, hv, hn, ha => by
      refine (scopeBag_still _).bind fun inner hinner => ?_
      subst hinner
      refine (Keeps.pure trivial : Keeps _ _ fun _ => True).bind fun _ _ => ?_
      exact visitBindings_agrees h hrest (h.views_binder hv hn.2.1 hτ) hn.2.2 (List.forall_mem_cons.mp ha).2
  | .init hτ he _ hrest, hv, hn, ha => by
      obtain ⟨ha, has⟩ := List.forall_mem_cons.mp ha
      refine (scopeBag_still _).bind fun inner hinner => ?_
      subst hinner
      refine ((visit_agrees h he hv hn.1 (ha _ rfl) _).bind fun found _ => store_still h.locked _ found _).bind
        fun _ _ => ?_
      exact visitBindings_agrees h hrest (h.views_binder hv hn.2.1 hτ) hn.2.2 has

theorem visitArms_agrees (h : Rigid cs T) {V : Vars} {arms : List (Binder × Expr)} {Ts : List TypeName}
    {τ : TypeName} {acc : Candidates} {bag : BagId} :
    HasArms (Context.ofClasses cs) c.name V arms Ts → Views cs T c bag V →
    NestedArms (Context.ofClasses cs) T c bag arms → (∀ a ∈ arms, a.2.Everywhere Asked) →
    (∀ S ∈ Ts, (Context.ofClasses cs).Descends S τ) → acc.In ((Context.ofClasses cs).Descends · τ) →
    ((∃ t, t ∈ acc.types) ∨ arms ≠ []) →
      Keeps (Still T) (visitArms ⟨Context.ofClasses cs, c.name⟩ bag acc arms) (Under (Context.ofClasses cs) τ)
  | .nil, _, _, _, _, hacc, hne => .pure ⟨hne.resolve_right (by simp), hacc⟩
  | .cons hS hbody hrest, hv, hn, ha, hTs, hacc, _ => by
      obtain ⟨ha, has⟩ := List.forall_mem_cons.mp ha
      obtain ⟨hle, hles⟩ := List.forall_mem_cons.mp hTs
      refine (scopeBag_still _).bind fun inner hinner => ?_
      subst hinner
      refine (visit_agrees h hbody (h.views_binder hv hn.1 hS) hn.2.1 ha _).bind fun found hfound => ?_
      have hfound := hfound.mono hle
      obtain ⟨t, ht⟩ := hfound.nonempty
      exact visitArms_agrees h hrest hv hn.2.2 has hles (hacc.union hfound.descends)
        (Or.inl ⟨t, TypeSet.mem_union.mpr (Or.inr ht)⟩)

end

theorem visitInit_agrees (h : Rigid cs T) {V : Vars} {e : Expr} {τ : TypeName} {bag inner : BagId}
    {name : String} (he : HasType (Context.ofClasses cs) c.name V e τ) (hv : Views cs T c bag V)
    (hn : Nested (Context.ofClasses cs) T c bag e) (ha : e.Everywhere Asked) :
    Keeps (Still T) (visitInit ⟨Context.ofClasses cs, c.name⟩ bag inner name (some e)) (fun _ => True) :=
  (visit_agrees h he hv hn ha _).bind fun _ _ => store_still h.locked _ _ _

theorem feature_agrees (h : Rigid cs T) {V : Vars} {bag : BagId} {f : Feature} (hv : Views cs T c bag V)
    (hf : FeatureTyped (Context.ofClasses cs) c.name V f) (hn : NestedFeature (Context.ofClasses cs) T c bag f)
    (hparams : ∀ m, f = .method m → (m.params.map (·.name)).Nodup)
    (ha : ∀ e ∈ f.expr?, e.Everywhere Asked) :
    Keeps (Still T) (feature ⟨Context.ofClasses cs, c.name⟩ bag f) (fun _ => True) := by
  cases hf with
  | @plain a hinit =>
      rw [feature, hinit]
      exact .pure trivial
  | @init a e _ _ hinit he =>
      simp only [NestedFeature, hinit] at hn
      rw [feature, hinit]
      exact visitInit_agrees h he hv hn (ha e hinit)
  | @method m W S τ hW hbody =>
      obtain ⟨inner, hplaced, hnested⟩ := hn
      have hfilled : m.params.map (T.fillParam (Context.ofClasses cs) m) = m.params := by
        refine (List.map_congr_left fun p hp => ?_).trans (List.map_id m.params)
        obtain ⟨σ, hσ⟩ := hW.denotes p hp
        have hne : (p.ty == TypeName.auto) = false := beq_eq_false_iff_ne.mpr (hσ.ne_auto h.regular)
        simp [BagTree.fillParam, BagTree.filled?, hne]
      have hsights : Sights True (Context.ofClasses cs) T inner W :=
        h.sights_params hv.sights hv.inClass (hparams m rfl) hplaced (hfilled.symm ▸ hW)
      have hfound : T.bagOf? m.id = some inner := hplaced.found
      refine Keeps.get.bind fun s hs => ?_
      rw [hs.1, hfound]
      refine (visit_agrees h hbody ⟨hplaced.inClass, hsights⟩ hnested (ha _ rfl) _).bind fun found _ => ?_
      exact store_still h.locked _ _ _

end Sweep

/-! ## Sweeping through a checked program -/

/-- The bags of the program show the same types as the rules see. -/
structure Program.Plain (p : Program) : Prop where
  /-- `self` is not hidden by an attribute. -/
  selfless : ∀ c ∈ p.classes, ∀ a ∈ c.attributes, a.name ≠ selfName
  /-- No method has two parameters of the same name. -/
  params : ∀ c ∈ p.classes, ∀ m ∈ c.methods, (m.params.map (·.name)).Nodup
  /-- No class inherits an attribute of type `SELF_TYPE`. -/
  inherited : ∀ c ∈ p.classes, ∀ d ∈ p.classes, d.parent = some c.name →
    ∀ a ∈ c.attributes, a.ty ≠ TypeName.selfType
  /-- No call names `SELF_TYPE` as the ancestor whose method is meant. -/
  ancestors : p.Everywhere Expr.NamesAncestor

namespace ClassTable

/-- In a program without errors all classes are typed. -/
theorem Definite.classTyped {p : Program} (hd : Definite p.classes) (h : (typecheck p).diagnostics = []) :
    ∀ c ∈ p.classes, ClassTyped (Context.ofClasses p.classes) c := by
  intro c hc
  have hclean := (reports_of_typecheck h).2
  rw [hd.toFitting.build_eq, check, reports_forM, List.flatMap_eq_nil_iff, classes_all] at hclean
  exact (hd.checkClass_clean hc).mp (hclean c hc)

theorem seed_locked {t : ClassTable} (h : ∀ c ∈ t.classes, c.Writes (· ≠ TypeName.auto)) :
    t.seed.Locked := by
  intro b hb x hx
  obtain ⟨c, hc, hself | ⟨f, hf, ty, hty, span, hentry⟩⟩ := mem_seed_entries hb hx
  · rw [hself]
    rfl
  · rw [hentry, entry_locked, bne_iff_ne]
    exact ((h c hc).features f hf).declaredTypes ty hty

theorem Fitting.eq_of_descends_class {cs : List ClassDecl} (h : Fitting cs) {c : ClassDecl} {C : TypeName}
    (hc : c ∈ cs) (hnone : ∀ d ∈ cs, d.parent ≠ some c.name) (hC : (Context.ofClasses cs).Descends C c.name) :
    C = c.name := by
  rcases Relation.ReflTransGen.cases_tail hC with heq | ⟨x, _, hx⟩
  · exact heq.symm
  have hobject : c.name ≠ TypeName.object := by
    intro hobject
    have hfresh := h.names.fresh c hc
    rw [hobject] at hfresh
    exact absurd hfresh (by decide)
  obtain ⟨d, hd, -, hparent⟩ := (parent_ofClasses hx).resolve_left hobject
  unfold ClassDecl.parentName at hparent
  cases hp : d.parent with
  | none =>
      rw [hp] at hparent
      exact absurd hparent.symm hobject
  | some q =>
      rw [hp] at hparent
      exact absurd (hp.trans (congrArg some hparent)) (hnone d hd)

/-- The bags of a program with nothing to infer cannot change. -/
theorem rigid_seed {source : String} {p : Program} (hp : parse source = .ok p)
    (hauto : ∀ c ∈ p.classes, c.Writes (· ≠ TypeName.auto)) (h : (typecheck p).diagnostics = [])
    (hself : ∀ c ∈ p.classes, ∀ a ∈ c.attributes, a.name ≠ selfName) :
    Rigid p.classes (ofClasses p.classes).seed where
  fitting := (build_fitting (reports_of_typecheck h).1).1
  regular := by
    have hregular := typecheck_regular hp h
    rwa [typecheck_value h] at hregular
  selfless := hself
  distinct := seed_distinctOwners hp (Legible.classes_eq _)
  evolved := .refl _
  single he hunlocked := by
    have hlocked : (ofClasses p.classes).seed.Locked := seed_locked (by rwa [Legible.classes_eq])
    rw [hlocked.entryAt? he] at hunlocked
    cases hunlocked
  descends := Iff.rfl
  concrete := Iff.rfl
  attributes ha := by
    obtain ⟨c, hc, hname, d, hd, rfl⟩ := mem_ownAttributes ha
    refine ⟨c, hc, hname, d, hd, rfl, ?_⟩
    obtain ⟨f, hf, hfd⟩ := List.mem_filterMap.mp hd
    have hne : (d.ty == TypeName.auto) = false := by
      cases f with
      | attr a =>
          cases hfd
          exact beq_eq_false_iff_ne.mpr ((hauto c hc).features _ hf).1
      | method m => cases hfd
    rw [BagTree.filled?, hne]
    rfl
  locked := seed_locked (by rwa [Legible.classes_eq])
  overriding := (build_fitting (reports_of_typecheck h).1).2

/-- One sweep through a program with nothing to infer changes nothing and finds all methods. -/
theorem sweep_agrees {source : String} {p : Program} (hp : parse source = .ok p)
    (hauto : ∀ c ∈ p.classes, c.Writes (· ≠ TypeName.auto)) (h : (typecheck p).diagnostics = [])
    (hplain : p.Plain) :
    (ofClasses p.classes).sweep (ofClasses p.classes).seed = ((ofClasses p.classes).seed, []) := by
  have hr := rigid_seed hp hauto h hplain.selfless
  have hdefinite : Definite p.classes :=
    definite_of_build hp hauto (diagnostics_eq_nil.mpr (reports_of_typecheck h).1)
  have hkeeps : Sweep.Keeps (Sweep.Still (ofClasses p.classes).seed)
      ((ofClasses p.classes).classes.forM (Sweep.classDecl (ofClasses p.classes).context))
      (fun _ => True) := by
    refine .forM fun c hc => ?_
    rw [Legible.classes_eq] at hc
    obtain ⟨bag, hbag, -⟩ := hr.nested hc
    obtain ⟨V, hV, hfeatures⟩ := hdefinite.classTyped h c hc
    have hsights : Sights True (Context.ofClasses p.classes) (ofClasses p.classes).seed bag V := by
      refine hr.sights_class hc hbag.placed (fun x τ hx => (hV x τ).mp hx) fun _ d hd a ha hself C hC => ?_
      refine hr.fitting.eq_of_descends_class hd (fun e he hparent => ?_) hC
      exact hplain.inherited d hd e he hparent a ha hself
    have hfound : (ofClasses p.classes).seed.bagOf? c.id = some bag := hbag.placed.found
    refine Sweep.Keeps.get.bind fun s hs => ?_
    rw [hs.1, hfound]
    refine .forM fun f hf => ?_
    refine Sweep.feature_agrees hr ⟨hbag.placed.inClass, hsights⟩ (hfeatures f hf) (hbag.features f hf) ?_ ?_
    · rintro m rfl
      exact hplain.params c hc m (List.mem_filterMap.mpr ⟨_, hf, rfl⟩)
    · exact fun e he => (parse_hasArms hp c hc f hf e he).and (hplain.ancestors c hc f hf e he)
  obtain ⟨⟨htree, hreports⟩, -⟩ := hkeeps (s := ⟨(ofClasses p.classes).seed, []⟩) ⟨rfl, rfl⟩
  exact Prod.ext htree hreports

/-- Where all types of a plain program without errors are declared, the first sweep is the last one. It
leaves the bags as they are and finds a method for every call. -/
theorem reduce_agrees {source : String} {p : Program} (hp : parse source = .ok p)
    (hauto : ∀ c ∈ p.classes, c.Writes (· ≠ TypeName.auto)) (h : (typecheck p).diagnostics = [])
    (hplain : p.Plain) {maxSweeps : Option Nat} (hmax : maxSweeps ≠ some 0) :
    let t := (typecheck p).value
    t.reduce maxSweeps t.seed = (.ok ⟨1, []⟩, t.seed) := by
  intro t
  have ht : t = ofClasses p.classes := typecheck_value h
  rw [ht]
  have hsweep := sweep_agrees hp hauto h hplain
  have hbound : 0 < maxSweeps.getD (ofClasses p.classes).seed.sweepBound := by
    cases maxSweeps with
    | none => exact Nat.lt_of_lt_of_le Nat.one_pos (Nat.le_add_right 1 _)
    | some n => exact Nat.pos_of_ne_zero fun hn => hmax (congrArg some hn)
  have hsettles : (ofClasses p.classes).SettlesAt 0 (ofClasses p.classes).seed := by
    rw [settlesAt_zero, hsweep]
  rw [reduce_of_settlesAt hsettles hbound, swept_zero, finalDiagnostics, hsweep]
  rfl

end ClassTable

theorem picker_agrees :
    let t := (typecheck picker).value
    parse pickerText = .ok picker ∧ (∀ c ∈ picker.classes, c.Writes (· ≠ TypeName.auto)) ∧
      (typecheck picker).diagnostics = [] ∧ picker.Plain ∧
      t.reduce none t.seed = (.ok ⟨1, []⟩, t.seed) := by
  have hp : parse pickerText = .ok picker := by cbv
  have hauto : ∀ c ∈ picker.classes, c.Writes (· ≠ TypeName.auto) := by decide +kernel
  have hclean : (typecheck picker).diagnostics = [] := by decide +kernel
  have hplain : picker.Plain :=
    ⟨by decide +kernel, by decide +kernel, by decide +kernel, by decide +kernel⟩
  exact ⟨hp, hauto, hclean, hplain, ClassTable.reduce_agrees hp hauto hclean hplain (by decide)⟩

/-! Four programs that are not plain, each without errors. The bag of a class has its `self` before an
attribute of this name, the bag of a method has the first of two parameters, an inherited attribute of type
`SELF_TYPE` has the type of its owner, and `SELF_TYPE` is no ancestor with methods. -/

def maskingText : String :=
  "class A \x7b f() : Int \x7b 1 \x7d; \x7d; class B \x7b self : A; g() : Int \x7b self.f() \x7d; \x7d;"

def masking : Program :=
  ⟨[⟨0, "A", none, [.method ⟨1, "f", [], TypeName.int, .int ⟨22, 23⟩ 1, ⟨10, 25⟩⟩], ⟨0, 29⟩⟩,
    ⟨2, "B", none, [
      .attr ⟨"self", "A", none, ⟨40, 48⟩⟩,
      .method ⟨3, "g", [], TypeName.int,
        .dispatch ⟨62, 70⟩ (some (.ident ⟨62, 66⟩ "self")) "f" [], ⟨50, 72⟩⟩], ⟨30, 76⟩⟩]⟩

def repeatingText : String :=
  "class A \x7b f() : Int \x7b 1 \x7d; \x7d; class B \x7b g(x : Int, x : A) : Int \x7b x.f() \x7d; \x7d;"

def repeating : Program :=
  ⟨[⟨0, "A", none, [.method ⟨1, "f", [], TypeName.int, .int ⟨22, 23⟩ 1, ⟨10, 25⟩⟩], ⟨0, 29⟩⟩,
    ⟨2, "B", none, [
      .method ⟨3, "g", [⟨"x", TypeName.int, ⟨42, 49⟩⟩, ⟨"x", "A", ⟨51, 56⟩⟩], TypeName.int,
        .dispatch ⟨66, 71⟩ (some (.ident ⟨66, 67⟩ "x")) "f" [], ⟨40, 73⟩⟩], ⟨30, 77⟩⟩]⟩

def inheritingText : String :=
  "class A \x7b me : SELF_TYPE; \x7d; class B inherits A \x7b only() : Int \x7b 1 \x7d; " ++
    "f() : Int \x7b me.only() \x7d; \x7d;"

def inheriting : Program :=
  ⟨[⟨0, "A", none, [.attr ⟨"me", TypeName.selfType, none, ⟨10, 24⟩⟩], ⟨0, 28⟩⟩,
    ⟨1, "B", some "A", [
      .method ⟨2, "only", [], TypeName.int, .int ⟨65, 66⟩ 1, ⟨50, 68⟩⟩,
      .method ⟨3, "f", [], TypeName.int,
        .dispatch ⟨82, 91⟩ (some (.ident ⟨82, 84⟩ "me")) "only" [], ⟨70, 93⟩⟩], ⟨29, 97⟩⟩]⟩

def namingText : String :=
  "class A \x7b foo() : Int \x7b 1 \x7d; g() : Int \x7b self@SELF_TYPE.foo() \x7d; \x7d;"

def naming : Program :=
  ⟨[⟨0, "A", none, [
      .method ⟨1, "foo", [], TypeName.int, .int ⟨24, 25⟩ 1, ⟨10, 27⟩⟩,
      .method ⟨2, "g", [], TypeName.int,
        .staticDispatch ⟨41, 61⟩ (.ident ⟨41, 45⟩ "self") TypeName.selfType "foo" [],
        ⟨29, 63⟩⟩], ⟨0, 67⟩⟩]⟩

/-- The text is read as a program that mentions no placeholder and has no errors, but the first sweep does
not end with nothing to report. -/
def MissesMethod (text : String) (p : Program) : Prop :=
  parse text = .ok p ∧ (∀ c ∈ p.classes, c.Writes (· ≠ TypeName.auto)) ∧ (typecheck p).diagnostics = [] ∧
    ((typecheck p).value.reduce none (typecheck p).value.seed).1 ≠ .ok ⟨1, []⟩

/-- The sweep misses a method that the check found. -/
theorem missed_methods : MissesMethod maskingText masking ∧ MissesMethod repeatingText repeating ∧
    MissesMethod inheritingText inheriting ∧ MissesMethod namingText naming := by
  refine ⟨⟨by cbv, ?_⟩, ⟨by cbv, ?_⟩, ⟨by cbv, ?_⟩, ⟨by cbv, ?_⟩⟩
  · exact ⟨by decide +kernel, by decide +kernel, by decide +kernel⟩
  · exact ⟨by decide +kernel, by decide +kernel, by decide +kernel⟩
  · exact ⟨by decide +kernel, by decide +kernel, by decide +kernel⟩
  · exact ⟨by decide +kernel, by decide +kernel, by decide +kernel⟩

end CoolTyping
