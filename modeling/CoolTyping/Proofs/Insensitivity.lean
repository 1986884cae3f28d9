import CoolTyping.Program.Fill
import CoolTyping.Proofs.Alikeness
import CoolTyping.Proofs.Fixpoint
import CoolTyping.Proofs.Joins

/-!
# Inference does not depend on the order of candidates

From alike trees, sweeps go the same way: they lead to alike trees, and report the same missing methods at the
same places. So inference ends after the same number of sweeps, and the types it puts in are the same.
-/

namespace CoolTyping

namespace Report

/-- Of a report that no method fits a call: the place, the method and the number of arguments. The types of
the receiver, which the text may list in any order, are left out. -/
def call? (r : Report) : Option (Span × String × Nat) :=
  match r.error with
  | .noMethodCandidate _ method arity => some (r.span, method, arity)
  | _ => none

/-- No method fits the same call. -/
def Alike (r r' : Report) : Prop := ∃ call, r.call? = some call ∧ r'.call? = some call

end Report

namespace Sweep

structure State.Alike (s s' : State) : Prop where
  tree : s.tree.Alike s'.tree
  reports : List.Forall₂ Report.Alike s.reports s'.reports

variable {α β α' β' : Type}

/-- From alike states, the computations lead to alike states and give values in `R`. -/
def Alike (R : α → α' → Prop) (x : Sweep α) (y : Sweep α') : Prop :=
  ∀ ⦃s s'⦄, s.Alike s' → (next x s).Alike (next y s') ∧ R (result x s) (result y s')

namespace Alike

variable {R : α → α' → Prop} {S : β → β' → Prop}

theorem pure {a : α} {b : α'} (h : R a b) : Alike R (Pure.pure a) (Pure.pure b) := fun _ _ hs => ⟨hs, h⟩

theorem bind {x : Sweep α} {y : Sweep α'} {f : α → Sweep β} {g : α' → Sweep β'} (hx : Alike R x y)
    (hf : ∀ a b, R a b → Alike S (f a) (g b)) : Alike S (x >>= f) (y >>= g) := by
  intro s s' hs
  obtain ⟨hs', hab⟩ := hx hs
  exact hf _ _ hab hs'

theorem get : Alike State.Alike (MonadState.get : Sweep State) MonadState.get := fun _ _ hs => ⟨hs, hs⟩

theorem ite {c : Prop} [Decidable c] {x y : Sweep α} {x' y' : Sweep α'} (hx : c → Alike R x x')
    (hy : ¬ c → Alike R y y') : Alike R (if c then x else y) (if c then x' else y') := by
  by_cases hc : c
  · rw [if_pos hc, if_pos hc]; exact hx hc
  · rw [if_neg hc, if_neg hc]; exact hy hc

theorem forM {f : α → Sweep Unit} {as : List α} (h : ∀ a ∈ as, Alike Eq (f a) (f a)) :
    Alike Eq (as.forM f) (as.forM f) := by
  induction as with
  | nil => exact pure rfl
  | cons a as ih =>
      refine (h a List.mem_cons_self).bind fun _ _ _ => ?_
      exact ih fun b hb => h b (List.mem_cons_of_mem _ hb)

end Alike

/-! ## Steps -/

variable {Γ : Env} {bag inner : BagId} {a b : Candidates}

theorem report_alike (receiver receiver' method : String) (arity : Nat) (span : Span) :
    Alike Eq (report (.noMethodCandidate receiver method arity) span)
      (report (.noMethodCandidate receiver' method arity) span) := by
  intro s s' hs
  have hreport : Report.Alike ⟨.noMethodCandidate receiver method arity, span⟩
      ⟨.noMethodCandidate receiver' method arity, span⟩ := ⟨(span, method, arity), rfl, rfl⟩
  exact ⟨⟨hs.tree, List.rel_append hs.reports (.cons hreport .nil)⟩, rfl⟩

theorem narrow_alike (h : a.Alike b) (slot : Slot) :
    Alike Eq (narrow Γ bag slot a) (narrow Γ bag slot b) :=
  fun _ _ hs => ⟨⟨hs.tree.narrow _ _ _ h, hs.reports⟩, rfl⟩

theorem snapshot_alike (slot : Slot) :
    Alike (Option.Rel Candidates.Alike) (snapshot Γ bag slot) (snapshot Γ bag slot) := by
  refine Alike.get.bind fun s s' hs => .pure ?_
  have hentry := hs.tree.get? Γ.context bag slot
  generalize s.tree.get? Γ.context bag slot = x, s'.tree.get? Γ.context bag slot = y at hentry
  cases hentry with
  | none => exact .none
  | some h => exact .some h.snapshot

theorem everything_alike : Alike Candidates.Alike everything everything := by
  refine Alike.get.bind fun s s' hs => .pure ?_
  rw [hs.tree.everything]

theorem narrowVar_alike (h : a.Alike b) (e : Expr) :
    Alike Eq (narrowVar Γ bag e a) (narrowVar Γ bag e b) := by
  unfold narrowVar
  cases e.variableName? with
  | none => exact .pure rfl
  | some name => exact narrow_alike h _

theorem narrowReceiver_alike (h : a.Alike b) (receiver : Option Expr) :
    Alike Eq (narrowReceiver Γ bag receiver a) (narrowReceiver Γ bag receiver b) := by
  cases receiver with
  | none => exact .pure rfl
  | some e => exact narrowVar_alike h e

theorem narrowTo_alike {r r' : Option Candidates} (h : Option.Rel Candidates.Alike r r') (e : Expr) :
    Alike Eq (narrowTo Γ bag e r) (narrowTo Γ bag e r') := by
  cases h with
  | none => exact .pure rfl
  | some h => exact narrowVar_alike h e

theorem restrict_alike (h : a.Alike b) (value : Expr) :
    Alike Eq (restrict Γ bag value a) (restrict Γ bag value b) := by
  unfold restrict
  cases value.variableName? with
  | none => exact .pure rfl
  | some name =>
      refine Alike.get.bind fun s s' hs => ?_
      have hentry := hs.tree.get? Γ.context bag (.var name)
      dsimp only
      generalize s.tree.get? Γ.context bag (.var name) = x, s'.tree.get? Γ.context bag (.var name) = y
        at hentry
      cases hentry with
      | none => exact .pure rfl
      | some he =>
          dsimp only
          simp only [h.ambiguous, he.locked, he.ambiguous, h.types.any]
          refine .ite (fun _ => .pure rfl) fun _ => ?_
          exact narrow_alike (.of_types (he.candidates.filter _) false) _

theorem store_alike (h : a.Alike b) (value : Expr) (slot : Slot) :
    Alike Eq (store Γ bag value a inner slot) (store Γ bag value b inner slot) := by
  refine (narrow_alike h slot).bind fun _ _ _ => (snapshot_alike slot).bind fun o o' ho => ?_
  cases ho with
  | none => exact .pure rfl
  | some h => exact restrict_alike h value

theorem scopeBag_alike (id : NodeId) (outer : BagId) :
    Alike Eq (scopeBag id outer) (scopeBag id outer) := by
  refine Alike.get.bind fun s s' hs => .pure ?_
  rw [hs.tree.bagOf?]

theorem narrowParam_alike (h : a.Alike b) (methodBag : Option BagId) (name : String) :
    Alike Eq (narrowParam Γ methodBag name a) (narrowParam Γ methodBag name b) := by
  cases methodBag with
  | none => exact .pure rfl
  | some bag => exact narrow_alike h _

theorem paramTypes_alike (methodBag : Option BagId) (param : String × TypeName) :
    Alike Candidates.Alike (paramTypes Γ methodBag param) (paramTypes Γ methodBag param) := by
  cases methodBag with
  | none => exact .pure (.refl _)
  | some bag =>
      refine (snapshot_alike _).bind fun o o' ho => .pure ?_
      cases ho with
      | none => exact .refl _
      | some h => exact h

/-! ## Calls -/

theorem onlyMethod?_alike {ctx : Context} {ts us : TypeSet} (h : ts.Alike us) (method : String) :
    onlyMethod? ctx ts method = onlyMethod? ctx us method := by
  unfold onlyMethod?
  split
  · rename_i t ht
    rw [h.toList_eq_singleton_iff.mp ht]
  · rename_i hts
    split
    · rename_i t ht
      exact absurd (h.toList_eq_singleton_iff.mpr ht) (hts t)
    · rfl

theorem resultOf_alike {ctx : Context} {T U : BagTree} (h : T.Alike U) (owner t : TypeName)
    (m : Signature) : (resultOf ctx T owner t m).Alike (resultOf ctx U owner t m) := by
  unfold resultOf
  split
  · rfl
  rw [h.classBag?]
  cases U.classBag? owner with
  | none => rfl
  | some bag =>
      have hentry := h.get? ctx bag (.result m.name)
      simp only [Option.bind_some]
      generalize T.get? ctx bag (.result m.name) = x, U.get? ctx bag (.result m.name) = y at hentry
      cases hentry with
      | none => rfl
      | some he => exact he.snapshot

/-- The types that a call may have come from a conflict if those of one of the methods do. -/
theorem ambiguous_resultsOf {ctx : Context} {T : BagTree} {method : String} {ts : TypeSet} :
    (resultsOf ctx T method ts).ambiguous = ts.any fun t =>
      (ctx.method? t method).any fun r => (resultOf ctx T r.1 t r.2).ambiguous := by
  have hfold : ∀ (us : List TypeName) (acc : Candidates),
      (us.foldl (fun acc t => (ctx.method? t method).elim acc fun r =>
        acc.union (resultOf ctx T r.1 t r.2)) acc).ambiguous =
      (acc.ambiguous || us.any fun t =>
        (ctx.method? t method).any fun r => (resultOf ctx T r.1 t r.2).ambiguous) := by
    intro us
    induction us with
    | nil => simp
    | cons u us ih =>
        intro acc
        rw [List.foldl_cons, ih, List.any_cons]
        cases ctx.method? u method with
        | none => simp
        | some r => simp [Candidates.union, Bool.or_assoc]
  exact (hfold ts.toList Candidates.none).trans (Bool.false_or _)

theorem resultsOf_alike {ctx : Context} {T U : BagTree} (h : T.Alike U) (method : String)
    {ts us : TypeSet} (hts : ts.Alike us) :
    (resultsOf ctx T method ts).Alike (resultsOf ctx U method us) where
  types x := by
    simp only [mem_resultsOf, hts _, (resultOf_alike h _ _ _).types x]
  ambiguous := by
    simp only [ambiguous_resultsOf, hts.any, (resultOf_alike h _ _ _).ambiguous]

/-! ## Expressions -/

mutual

theorem visit_alike {bag : BagId} {r r' : Option Candidates} (hr : Option.Rel Candidates.Alike r r') :
    (e : Expr) → Alike Candidates.Alike (visit Γ bag r e) (visit Γ bag r' e)
  | .int .. | .str .. | .bool .. => .pure (.refl _)
  | .ident _ name => by
      refine (snapshot_alike _).bind fun o o' ho => ?_
      cases ho with
      | none => exact everything_alike
      | some h => exact .pure h
  | .new _ ty => by
      refine .ite (fun _ => .pure (.refl _)) fun _ => ?_
      exact .ite (fun _ => everything_alike) fun _ => .pure (.refl _)
  | .paren _ inner => visit_alike hr inner
  | .assign _ name value => by
      refine (snapshot_alike _).bind fun target target' htarget => ?_
      refine (visit_alike htarget value).bind fun found found' hfound => ?_
      refine (store_alike hfound value _).bind fun _ _ _ => ?_
      refine (snapshot_alike _).bind fun o o' ho => .pure ?_
      cases ho with
      | none => exact hfound
      | some h => exact h
  | .block _ body => visitBlock_alike hr body
  | .binary _ op left right => by
      refine .ite (fun _ => ?_) fun _ => ?_
      · refine (visit_alike (.some (.refl _)) left).bind fun _ _ _ => ?_
        refine (visit_alike (.some (.refl _)) right).bind fun _ _ _ => ?_
        refine (narrowVar_alike (.refl _) left).bind fun _ _ _ => ?_
        exact (narrowVar_alike (.refl _) right).bind fun _ _ _ => .pure (.refl _)
      · refine (visit_alike .none left).bind fun _ _ _ => ?_
        exact (visit_alike .none right).bind fun _ _ _ => .pure (.refl _)
  | .unary _ op operand => by
      cases op with
      | not =>
          refine (visit_alike (.some (.refl _)) operand).bind fun _ _ _ => ?_
          exact (narrowVar_alike (.refl _) operand).bind fun _ _ _ => .pure (.refl _)
      | negate =>
          refine (visit_alike (.some (.refl _)) operand).bind fun _ _ _ => ?_
          exact (narrowVar_alike (.refl _) operand).bind fun _ _ _ => .pure (.refl _)
      | isvoid => exact (visit_alike .none operand).bind fun _ _ _ => .pure (.refl _)
  | .loop _ test body => by
      refine (visit_alike (.some (.refl _)) test).bind fun _ _ _ => ?_
      refine (narrowVar_alike (.refl _) test).bind fun _ _ _ => ?_
      exact (visit_alike .none body).bind fun _ _ _ => .pure (.refl _)
  | .cond _ test thenBranch elseBranch => by
      refine (visit_alike (.some (.refl _)) test).bind fun _ _ _ => ?_
      refine (narrowVar_alike (.refl _) test).bind fun _ _ _ => ?_
      refine (visit_alike .none thenBranch).bind fun a a' ha => ?_
      exact (visit_alike .none elseBranch).bind fun b b' hb => .pure (ha.merge hb)
  | .letIn _ bindings body => by
      refine (visitBindings_alike bindings).bind fun scope scope' hscope => ?_
      subst hscope
      exact visit_alike hr body
  | .caseOf _ scrutinee arms => by
      refine (visit_alike .none scrutinee).bind fun _ _ _ => ?_
      exact visitArms_alike (.refl _) arms
  | .dispatch span receiver method args => by
      refine (visitReceiver_alike receiver).bind fun found found' hfound => ?_
      have hfits := hfound.types.filter fun t => (fitting? Γ.context t method args.length).isSome
      dsimp only
      rw [hfits.isEmpty]
      refine .ite (fun _ => ?_) fun _ => ?_
      · refine (report_alike _ _ _ _ _).bind fun _ _ _ => ?_
        exact (visitAll_alike args).bind fun _ _ _ => everything_alike
      refine (narrowReceiver_alike (.of_types hfits false) receiver).bind fun _ _ _ => ?_
      rw [onlyMethod?_alike hfits]
      split
      · refine Alike.get.bind fun s s' hs => ?_
        rw [hs.tree.methodBag?]
        refine (visitArgs_alike _ args).bind fun _ _ _ => ?_
        exact Alike.get.bind fun s s' hs => .pure (resultsOf_alike hs.tree method hfits)
      · refine Alike.get.bind fun s s' hs => ?_
        exact (visitAll_alike args).bind fun _ _ _ => .pure (resultsOf_alike hs.tree method hfits)
  | .staticDispatch span receiver ancestor method args => by
      refine (visit_alike .none receiver).bind fun found found' hfound => ?_
      dsimp only
      split
      · refine (report_alike _ _ _ _ _).bind fun _ _ _ => ?_
        exact (visitAll_alike args).bind fun _ _ _ => everything_alike
      · refine Alike.get.bind fun s s' hs => ?_
        rw [hs.tree.methodBag?]
        refine (visitArgs_alike _ args).bind fun _ _ _ => ?_
        refine .ite (fun _ => .pure hfound) fun _ => ?_
        exact Alike.get.bind fun s s' hs => .pure (resultOf_alike hs.tree _ _ _)

theorem visitReceiver_alike {bag : BagId} : (receiver : Option Expr) →
    Alike Candidates.Alike (visitReceiver Γ bag receiver) (visitReceiver Γ bag receiver)
  | some e => visit_alike .none e
  | none => .pure (.refl _)

theorem visitAll_alike {bag : BagId} : (es : List Expr) →
    Alike Eq (visitAll Γ bag es) (visitAll Γ bag es)
  | [] => .pure rfl
  | e :: es => (visit_alike .none e).bind fun _ _ _ => visitAll_alike es

theorem visitBlock_alike {bag : BagId} {r r' : Option Candidates}
    (hr : Option.Rel Candidates.Alike r r') : (es : List Expr) →
    Alike Candidates.Alike (visitBlock Γ bag r es) (visitBlock Γ bag r' es)
  | [] => .pure (.refl _)
  | [e] => by
      refine (visit_alike hr e).bind fun found found' hfound => ?_
      exact (narrowTo_alike hr e).bind fun _ _ _ => .pure hfound
  | e :: e' :: es => (visit_alike .none e).bind fun _ _ _ => visitBlock_alike hr (e' :: es)

theorem visitArgs_alike {bag : BagId} {methodBag : Option BagId} :
    (params : List (String × TypeName)) → (es : List Expr) →
    Alike Eq (visitArgs Γ bag methodBag params es) (visitArgs Γ bag methodBag params es)
  | _, [] => by unfold visitArgs; exact .pure rfl
  | [], _ :: _ => .pure rfl
  | param :: params, e :: es => by
      refine (paramTypes_alike methodBag param).bind fun types types' htypes => ?_
      refine (visit_alike (.some htypes) e).bind fun found found' hfound => ?_
      refine (narrowParam_alike hfound methodBag _).bind fun _ _ _ => ?_
      refine (narrowVar_alike htypes e).bind fun _ _ _ => ?_
      exact visitArgs_alike params es

theorem visitInit_alike {bag inner : BagId} {name : String} : (init : Option Expr) →
    Alike Eq (visitInit Γ bag inner name init) (visitInit Γ bag inner name init)
  | some e => (visit_alike .none e).bind fun _ _ hfound => store_alike hfound e _
  | none => .pure rfl

theorem visitBindings_alike {bag : BagId} : (bindings : List (Binder × Option Expr)) →
    Alike Eq (visitBindings Γ bag bindings) (visitBindings Γ bag bindings)
  | [] => .pure rfl
  | (b, init) :: bindings => by
      refine (scopeBag_alike b.id bag).bind fun inner inner' hinner => ?_
      subst hinner
      refine (visitInit_alike init).bind fun _ _ _ => ?_
      exact visitBindings_alike bindings

theorem visitArms_alike {bag : BagId} {acc acc' : Candidates} (hacc : acc.Alike acc') :
    (arms : List (Binder × Expr)) →
    Alike Candidates.Alike (visitArms Γ bag acc arms) (visitArms Γ bag acc' arms)
  | [] => .pure hacc
  | (b, body) :: arms => by
      refine (scopeBag_alike b.id bag).bind fun inner inner' hinner => ?_
      subst hinner
      refine (visit_alike .none body).bind fun found found' hfound => ?_
      exact visitArms_alike (hacc.union hfound) arms

end

/-! ## Classes -/

theorem feature_alike (f : Feature) : Alike Eq (feature Γ bag f) (feature Γ bag f) := by
  cases f with
  | attr a => exact visitInit_alike a.init
  | method m =>
      refine Alike.get.bind fun s s' hs => ?_
      rw [hs.tree.bagOf?]
      cases s'.tree.bagOf? m.id with
      | none => exact .pure rfl
      | some inner =>
          refine (visit_alike .none m.body).bind fun found found' hfound => ?_
          exact store_alike hfound m.body _

theorem classDecl_alike (ctx : Context) (c : ClassDecl) :
    Alike Eq (classDecl ctx c) (classDecl ctx c) := by
  refine Alike.get.bind fun s s' hs => ?_
  rw [hs.tree.bagOf?]
  cases s'.tree.bagOf? c.id with
  | none => exact .pure rfl
  | some bag => exact .forM fun f _ => feature_alike f

end Sweep

/-! ## Repeated sweeps -/

/-- Reports about the same calls. -/
def Diagnostics.Alike (d d' : Diagnostics) : Prop := ∀ call, call ∈ d.map Report.call? ↔ call ∈ d'.map Report.call?

theorem Diagnostics.ofReports_alike {rs rs' : List Report} (h : List.Forall₂ Report.Alike rs rs') :
    (ofReports rs).Alike (ofReports rs') := by
  have hcalls : rs.map Report.call? = rs'.map Report.call? :=
    forall₂_map_eq h fun _ _ hr => by
      obtain ⟨call, hr, hr'⟩ := hr
      rw [hr, hr']
  intro call
  have hmem : ∀ {rs : List Report}, call ∈ (ofReports rs).map Report.call? ↔ call ∈ rs.map Report.call? := by
    simp [List.mem_map]
  rw [hmem, hmem, hcalls]

/-- The same number of sweeps with alike results. -/
inductive Outcome.Alike : Outcome → Outcome → Prop
  | converged {n T U d d'} : T.Alike U → d.Alike d' → Outcome.Alike (.converged n T d) (.converged n U d')
  | exhausted {T U} : T.Alike U → Outcome.Alike (.exhausted T) (.exhausted U)

/-- The same number of sweeps with reports about the same calls, or no end within the same bound. -/
inductive EndsAlike : Except NotConverged Reduction → Except NotConverged Reduction → Prop
  | ok {n d d'} : d.Alike d' → EndsAlike (.ok ⟨n, d⟩) (.ok ⟨n, d'⟩)
  | error {n} : EndsAlike (.error ⟨n⟩) (.error ⟨n⟩)

namespace ClassTable

open Sweep

variable {t : ClassTable} {T U : BagTree}

theorem sweep_alike (h : T.Alike U) : (t.sweep T).1.Alike (t.sweep U).1 ∧
    List.Forall₂ Report.Alike (t.sweep T).2 (t.sweep U).2 := by
  have hall : Sweep.Alike Eq (t.classes.forM (Sweep.classDecl t.context))
      (t.classes.forM (Sweep.classDecl t.context)) := .forM fun c _ => classDecl_alike _ c
  have hnext := (hall (⟨h, .nil⟩ : State.Alike ⟨T, []⟩ ⟨U, []⟩)).1
  exact ⟨hnext.tree, hnext.reports⟩

/-- Where a sweep leaves one of the trees as it is, it leaves the other. -/
theorem sweep_eq_of_alike (h : T.Alike U) (hT : (t.sweep T).1 = T) : (t.sweep U).1 = U := by
  have hswept := (sweep_alike (t := t) h).1
  rw [hT] at hswept
  exact (t.sweep_evolvesTo U).eq_of_alike (h.symm.trans hswept)

theorem solveFrom_alike (h : T.Alike U) (fuel done : Nat) :
    (t.solveFrom fuel done T).Alike (t.solveFrom fuel done U) := by
  induction fuel generalizing done T U with
  | zero => exact .exhausted h
  | succ fuel ih =>
      obtain ⟨htree, hreports⟩ := sweep_alike (t := t) h
      have hsame : (t.sweep T).1.same T = (t.sweep U).1.same U := by
        rw [Bool.eq_iff_iff, sweep_same_iff, sweep_same_iff]
        exact ⟨sweep_eq_of_alike h, sweep_eq_of_alike h.symm⟩
      unfold solveFrom
      dsimp only
      rw [hsame]
      split
      · exact .converged htree (Diagnostics.ofReports_alike hreports)
      · exact ih htree (done + 1)

theorem reduce_ends (h : T.Alike U) (bound : Option Nat) :
    EndsAlike (t.reduce bound T).1 (t.reduce bound U).1 ∧
      (t.reduce bound T).2.Alike (t.reduce bound U).2 := by
  have hsolve := solveFrom_alike (t := t) h (bound.getD U.sweepBound) 0
  unfold reduce solve
  rw [h.sweepBound]
  dsimp only
  generalize t.solveFrom (bound.getD U.sweepBound) 0 T = x at hsolve ⊢
  generalize t.solveFrom (bound.getD U.sweepBound) 0 U = y at hsolve ⊢
  cases hsolve with
  | converged htree hd => exact ⟨.ok hd, htree⟩
  | exhausted htree => exact ⟨.error, htree⟩

end ClassTable

/-! ## Filling in -/

namespace BagTree

variable {T U : BagTree} {ctx : Context}

/-- All candidates of all entries are in the list. -/
def CandidatesIn (T : BagTree) (ts : List TypeName) : Prop :=
  ∀ b ∈ T.bags, ∀ x ∈ b.entries.toList, ∀ t ∈ x.2.candidates.toList, t ∈ ts

instance (T : BagTree) (ts : List TypeName) : Decidable (T.CandidatesIn ts) :=
  inferInstanceAs (Decidable (∀ b ∈ T.bags, ∀ x ∈ b.entries.toList, ∀ t ∈ x.2.candidates.toList, t ∈ ts))

theorem CandidatesIn.of_entryAt? {ts : List TypeName} (h : T.CandidatesIn ts) {i : BagId} {slot : Slot}
    {e : Entry} (he : T.entryAt? i slot = some e) : ∀ t ∈ e.candidates.toList, t ∈ ts := by
  obtain ⟨b, hb, he⟩ := Option.bind_eq_some_iff.mp he
  exact h b (List.mem_of_getElem? hb) (slot, e) (Entries.get?_eq_some_iff.mp he)

/-- In whatever program, the same types are put in. -/
def FillsAlike (ctx : Context) (T U : BagTree) : Prop :=
  ∀ p, T.fill ctx p = U.fill ctx p ∧ T.filledIn ctx p = U.filledIn ctx p

/-- What is put in depends on the places of the bags and on the joins of their entries. -/
theorem FillsAlike.of_joined (hbag : T.bagOf? = U.bagOf?)
    (hjoined : ∀ i slot, (T.entryAt? i slot).map (·.joined ctx) = (U.entryAt? i slot).map (·.joined ctx)) :
    FillsAlike ctx T U := by
  have hfilled : T.filled? ctx = U.filled? ctx := by
    funext bag slot ty
    unfold filled?
    cases bag with
    | none => rfl
    | some i => rw [Option.bind_some, Option.bind_some, hjoined]
  have hbinder : T.filledBinder? ctx = U.filledBinder? ctx := by
    funext b
    rw [filledBinder?, filledBinder?, hfilled, hbag]
  have hexpr : T.fillExpr ctx = U.fillExpr ctx := by
    funext e
    rw [fillExpr, fillExpr, hbinder]
  have htypes : T.filledTypes ctx = U.filledTypes ctx := by
    funext e
    rw [filledTypes, filledTypes, hbinder]
  have hparam : T.fillParam ctx = U.fillParam ctx := by
    funext m p
    rw [fillParam, fillParam, hfilled, hbag]
  have hfeature : T.fillFeature ctx = U.fillFeature ctx := by
    funext i f
    cases f <;> simp only [fillFeature, hfilled, hexpr, hparam]
  have hinFeature : T.filledInFeature ctx = U.filledInFeature ctx := by
    funext i f
    cases f <;> simp only [filledInFeature, hfilled, htypes, hbag]
  have hclass : T.fillClass ctx = U.fillClass ctx := by
    funext c
    rw [fillClass, fillClass, hfeature, hbag]
  have hinClass : T.filledInClass ctx = U.filledInClass ctx := by
    funext c
    rw [filledInClass, filledInClass, hinFeature, hbag]
  intro p
  rw [fill, fill, filledIn, filledIn, hclass, hinClass]
  exact ⟨rfl, rfl⟩

/-- Where no concrete type is below `<error>`, the order of concrete candidates does not show in the types
that are put in. -/
theorem Alike.fillsAlike {q : Program} (h : T.Alike U)
    (herror : ∀ t ∈ (ClassTable.build q).value.context.concreteTypes,
      TypeName.error ∉ (ClassTable.build q).value.context.ancestors t)
    (hin : T.CandidatesIn (ClassTable.build q).value.context.concreteTypes) :
    FillsAlike (ClassTable.build q).value.context T U := by
  refine .of_joined (funext h.bagOf?) fun i slot => ?_
  have hentry := h.entryAt? i slot
  have hmem : ∀ e, T.entryAt? i slot = some e →
      ∀ t ∈ e.candidates.toList, t ∈ (ClassTable.build q).value.context.concreteTypes :=
    fun e he => hin.of_entryAt? he
  generalize T.entryAt? i slot = x, U.entryAt? i slot = y at hentry hmem ⊢
  cases hentry with
  | none => rfl
  | @some e f halike =>
      have hjoin := Context.joinAll_perm (ClassTable.build_rooted q) halike.candidates.perm fun t ht => by
        have hconcrete := hmem e rfl t ht
        exact ⟨Context.contains_iff.mpr ((Context.concreteTypes_sublist _).subset hconcrete), ClassTable.build_plain q hconcrete fun hd =>
          herror t hconcrete (Context.mem_ancestors.mpr hd)⟩
      exact congrArg some hjoin

end BagTree

namespace ClassTable

/-- Alike trees end alike, with the same number of sweeps, reports about the same calls, and trees that are
alike. Where no concrete type is below `<error>` and all candidates are concrete, the same types are then
put in, before the sweeps and after them. -/
theorem reduce_insensitive (t : ClassTable) {T U : BagTree} (h : T.Alike U) (bound : Option Nat) :
    EndsAlike (t.reduce bound T).1 (t.reduce bound U).1 ∧
    (t.reduce bound T).2.Alike (t.reduce bound U).2 ∧
    ∀ q, t.context = (build q).value.context →
      (∀ x ∈ t.context.concreteTypes, TypeName.error ∉ t.context.ancestors x) →
      (T.CandidatesIn t.context.concreteTypes → BagTree.FillsAlike t.context T U) ∧
      ((t.reduce bound T).2.CandidatesIn t.context.concreteTypes →
        BagTree.FillsAlike t.context (t.reduce bound T).2 (t.reduce bound U).2) := by
  obtain ⟨hends, htrees⟩ := reduce_ends (t := t) h bound
  refine ⟨hends, htrees, fun q hq herror => ?_⟩
  rw [hq] at herror ⊢
  exact ⟨h.fillsAlike herror, htrees.fillsAlike herror⟩

end ClassTable

/-! ## Reversed trees -/

def TypeSet.reversed (s : TypeSet) : TypeSet := ⟨s.toList.reverse, List.nodup_reverse.mpr s.nodup⟩

def Entry.reversed (e : Entry) : Entry := { e with candidates := e.candidates.reversed }

def Entries.reversed (es : Entries) : Entries where
  toList := es.toList.reverse.map fun x => (x.1, x.2.reversed)
  distinct := by
    have h := List.nodup_reverse.mpr es.distinct
    rw [← List.map_reverse] at h
    simpa [Function.comp_def] using h

/-- All entries and all candidates in the opposite order. -/
def BagTree.reversed (T : BagTree) : BagTree :=
  { T with bags := T.bags.map fun b => { b with entries := b.entries.reversed } }

theorem Entry.alike_reversed (e : Entry) : e.Alike e.reversed :=
  ⟨fun _ => List.mem_reverse.symm, rfl, rfl, rfl⟩

theorem Entries.alike_reversed (es : Entries) : es.Alike es.reversed := by
  have hmem : ∀ {slot e}, es.get? slot = some e → es.reversed.get? slot = some e.reversed := by
    intro slot e he
    exact get?_eq_some_iff.mpr (List.mem_map.mpr
      ⟨(slot, e), List.mem_reverse.mpr (get?_eq_some_iff.mp he), rfl⟩)
  intro slot
  cases he : es.get? slot with
  | some e =>
      rw [hmem he]
      exact .some e.alike_reversed
  | none =>
      cases hf : es.reversed.get? slot with
      | none => exact .none
      | some f =>
          obtain ⟨x, hx, heq⟩ := List.mem_map.mp (get?_eq_some_iff.mp hf)
          cases heq
          rw [get?_eq_some_iff.mpr (List.mem_reverse.mp hx)] at he
          cases he

theorem BagTree.alike_reversed (T : BagTree) : T.Alike T.reversed where
  concrete := rfl
  bags := by
    rw [reversed, List.forall₂_map_right_iff]
    exact List.forall₂_same.mpr fun b _ => ⟨rfl, rfl, rfl, b.entries.alike_reversed⟩
  bagOf? owner := by
    have howners : List.Forall₂ (fun a b : Bag => a.owner = b.owner) T.bags T.reversed.bags := by
      rw [reversed, List.forall₂_map_right_iff]
      exact List.forall₂_same.mpr fun _ _ => rfl
    exact (pointwise_lastIdx? (fun _ _ hab => by rw [hab]) howners).symm

namespace ClassTable

/-- The receivers of `f` are siblings, and nothing has the method `lost`. -/
def siblings : Program :=
  let here : Span := ⟨0, 0⟩
  let call (x method : String) : Expr := .dispatch here (some (.ident here x)) method []
  let f : Feature := .method ⟨9, "f", [], TypeName.int, .int here 1, here⟩
  ⟨[⟨0, "A", none, [], here⟩, ⟨1, "B", some "A", [f], here⟩, ⟨2, "C", some "A", [f], here⟩,
    ⟨3, "D", none, [.method ⟨4, "m", [⟨"x", TypeName.auto, here⟩, ⟨"y", TypeName.auto, here⟩],
      TypeName.auto, .block here [call "y" "lost", call "x" "f"], here⟩], here⟩]⟩

theorem siblings_insensitive :
    let t := (build siblings).value
    let T := t.seed
    let U := T.reversed
    T ≠ U ∧ T.Alike U ∧ EndsAlike (t.reduce none T).1 (t.reduce none U).1 ∧
    (t.reduce none T).2.Alike (t.reduce none U).2 ∧
    (t.reduce none T).2.filledIn t.context siblings = ["Int", "A", "Object"] ∧
    (t.reduce none T).2.fill t.context siblings = (t.reduce none U).2.fill t.context siblings := by
  have h := reduce_insensitive (build siblings).value (build siblings).value.seed.alike_reversed none
  have hfills := (h.2.2 siblings rfl (by decide +kernel)).2 (by decide +kernel)
  exact ⟨by decide +kernel, BagTree.alike_reversed _, h.1, h.2.1, by decide +kernel, (hfills siblings).1⟩

end ClassTable

end CoolTyping
