import CoolTyping.Bag.Solve
import CoolTyping.Proofs.Evolution
import CoolTyping.Proofs.WrittenTypes
import Mathlib.Logic.Function.Iterate

/-!
# What a sweep can do

A sweep changes the tree by narrowing entries, so the tree evolves, and it adds reports at the end.
Where `P` holds of the types that a program writes and of those that methods are declared with, it
holds of every candidate that a sweep comes across.
-/

namespace CoolTyping

/-! ## Candidates -/

namespace Candidates

variable {P : TypeName → Prop} {a b : Candidates}

/-- All types are in `P`. -/
def In (P : TypeName → Prop) (c : Candidates) : Prop := ∀ t ∈ c.types, P t

theorem in_none : none.In P := fun _ ht => absurd ht TypeSet.not_mem_empty

theorem in_single {t : TypeName} (h : P t) : (single t).In P := by
  intro u hu
  rw [TypeSet.mem_single.mp hu]
  exact h

theorem In.union (ha : a.In P) (hb : b.In P) : (a.union b).In P := by
  intro t ht
  rcases TypeSet.mem_union.mp ht with ht | ht
  · exact ha t ht
  · exact hb t ht

theorem In.merge (ha : a.In P) (hb : b.In P) : (a.merge b).In P := by
  unfold Candidates.merge
  dsimp only
  split
  · exact ha.union hb
  · exact fun t ht => ha t (TypeSet.mem_inter.mp ht).1

theorem merge_nonempty (h : ∃ t, t ∈ a.types) : ∃ t, t ∈ (a.merge b).types := by
  unfold merge
  dsimp only
  split
  · obtain ⟨t, ht⟩ := h
    exact ⟨t, TypeSet.mem_union.mpr (Or.inl ht)⟩
  · rename_i hcommon
    rw [TypeSet.isEmpty_iff] at hcommon
    exact List.exists_mem_of_ne_nil _ hcommon

theorem mem_foldl {α : Type} {f : Candidates → α → Candidates} {Q : α → Prop} {t : TypeName}
    (hf : ∀ acc a, t ∈ (f acc a).types ↔ t ∈ acc.types ∨ Q a) (as : List α) (acc : Candidates) :
    t ∈ (as.foldl f acc).types ↔ t ∈ acc.types ∨ ∃ a ∈ as, Q a := by
  induction as generalizing acc with
  | nil => simp
  | cons a as ih => rw [List.foldl_cons, ih, hf, or_assoc, List.exists_mem_cons_iff]

end Candidates

namespace BagTree

variable {t : BagTree} {i : BagId} {slot : Slot}

theorem isSome_entryAt?_of_has (h : t.has i slot = true) : (t.entryAt? i slot).isSome = true := by
  unfold has at h
  unfold entryAt?
  cases hb : t.bags[i]? with
  | none => simp [hb] at h
  | some b =>
      simp only [hb, Option.any_some, Entries.contains, Entries.slots, List.contains_iff_mem,
        List.mem_map] at h
      obtain ⟨⟨s, e⟩, he, rfl⟩ := h
      simp only [Option.bind_some, Entries.get?]
      rw [Option.isSome_iff_ne_none, ne_eq, List.lookup_eq_none_iff]
      intro hne
      simpa using hne _ he

/-- A slot of the bag itself comes before those of the bags around it. -/
theorem isSome_get?_of_has (ctx : Context) (h : t.has i slot = true) : (t.get? ctx i slot).isSome = true := by
  have hresolve : t.resolve? ctx i slot = some i := by
    simp [resolve?, enclosing, enclosingN, h]
  simpa [get?, hresolve] using isSome_entryAt?_of_has h

end BagTree

namespace Sweep

variable {α β : Type}

/-! ## Running a sweep -/

/-- What the computation gives. -/
def result (x : Sweep α) (s : State) : α := (x s : α × State).1

/-- The state that the computation leaves. -/
def next (x : Sweep α) (s : State) : State := (x s : α × State).2

/-- From a state in `K`, the computation leads to one in `K` and gives a value in `post`. -/
def Keeps (K : State → Prop) (x : Sweep α) (post : α → Prop) : Prop :=
  ∀ ⦃s⦄, K s → K (next x s) ∧ post (result x s)

namespace Keeps

variable {K : State → Prop} {post : α → Prop} {post' : β → Prop}

theorem pure {a : α} (h : post a) : Keeps K (Pure.pure a) post := fun _ hs => ⟨hs, h⟩

theorem bind {x : Sweep α} {f : α → Sweep β} (hx : Keeps K x post)
    (hf : ∀ a, post a → Keeps K (f a) post') : Keeps K (x >>= f) post' := by
  intro s hs
  obtain ⟨hs', ha⟩ := hx hs
  exact hf _ ha hs'

/-- The state that is read is the one at hand. -/
theorem get : Keeps K (MonadState.get : Sweep State) K := fun _ hs => ⟨hs, hs⟩

theorem ite {c : Prop} [Decidable c] {x y : Sweep α} (hx : c → Keeps K x post)
    (hy : ¬ c → Keeps K y post) : Keeps K (if c then x else y) post := by
  by_cases hc : c
  · rw [if_pos hc]; exact hx hc
  · rw [if_neg hc]; exact hy hc

theorem forM {f : α → Sweep Unit} {as : List α} (h : ∀ a ∈ as, Keeps K (f a) (fun _ => True)) :
    Keeps K (as.forM f) (fun _ => True) := by
  induction as with
  | nil => exact pure trivial
  | cons a as ih =>
      refine (h a List.mem_cons_self).bind fun _ _ => ?_
      exact ih fun b hb => h b (List.mem_cons_of_mem _ hb)

end Keeps

/-! ## The invariant of a sweep -/

/-- What holds in the state `s` of a sweep that was in the state `s₀` before. -/
structure After (P : TypeName → Prop) (s₀ s : State) : Prop where
  tree : s₀.tree.EvolvesTo s.tree
  reports : s₀.reports <+: s.reports
  within : s.tree.Within P

/-- A parameter is declared with a type in `P`, or has an entry in the bag of its method. -/
def ParamIn (P : TypeName → Prop) (t : BagTree) (methodBag : Option BagId)
    (param : String × TypeName) : Prop :=
  P param.2 ∨ ∃ bag, methodBag = some bag ∧ t.has bag (.var param.1) = true

/-- `P` holds of the types that expressions have by themselves. The result and the parameters of a
method are declared with types in `P`, unless the tree has entries for them. -/
structure Env.Covers (Γ : Env) (P : TypeName → Prop) (t : BagTree) : Prop where
  object : P TypeName.object
  int : P TypeName.int
  string : P TypeName.string
  bool : P TypeName.bool
  current : P Γ.current
  result : ∀ {ty name owner m}, Γ.context.method? ty name = some (owner, m) →
    m.ret = TypeName.selfType ∨ P m.ret ∨
      ∃ bag, t.classBag? owner = some bag ∧ t.has bag (.result m.name) = true
  params : ∀ {ty name owner m}, Γ.context.method? ty name = some (owner, m) →
    ∀ p ∈ m.params, ParamIn P t (t.methodBag? owner m.name) p

/-- The type `ty` may be written behind `new`. -/
def Env.MayCreate (Γ : Env) (P : TypeName → Prop) (ty : TypeName) : Prop :=
  Γ.context.contains ty = true → ty ≠ TypeName.selfType → ty ≠ TypeName.auto → P ty

variable {Γ : Env} {P : TypeName → Prop} {s₀ s : State} {bag inner : BagId}

theorem After.refl (h : s.tree.Within P) : After P s s := ⟨.refl _, List.prefix_refl _, h⟩

/-! ## Steps -/

theorem report_keeps (error : SemanticError) (span : Span) :
    Keeps (After P s₀) (report error span) (fun _ => True) :=
  fun _ hs => ⟨⟨hs.tree, hs.reports.trans (List.prefix_append _ _), hs.within⟩, trivial⟩

theorem narrow_keeps {incoming : Candidates} (h : incoming.In P) (slot : Slot) :
    Keeps (After P s₀) (narrow Γ bag slot incoming) (fun _ => True) :=
  fun _ hs => ⟨⟨hs.tree.trans (BagTree.evolvesTo_narrow _ _ _ _ _), hs.reports,
    hs.within.narrow h⟩, trivial⟩

theorem snapshot_keeps (slot : Slot) :
    Keeps (After P s₀) (snapshot Γ bag slot) (fun o => ∀ c ∈ o, c.In P) := by
  refine Keeps.get.bind fun s hs => .pure fun c hc => ?_
  obtain ⟨e, he, rfl⟩ := Option.map_eq_some_iff.mp hc
  exact hs.within.get? he

theorem everything_keeps : Keeps (After P s₀) everything (Candidates.In P) :=
  Keeps.get.bind fun _ hs => .pure hs.within.concrete

theorem narrowVar_keeps {incoming : Candidates} (h : incoming.In P) (e : Expr) :
    Keeps (After P s₀) (narrowVar Γ bag e incoming) (fun _ => True) := by
  unfold narrowVar
  cases e.variableName? with
  | none => exact .pure trivial
  | some name => exact narrow_keeps h _

theorem narrowReceiver_keeps {incoming : Candidates} (h : incoming.In P) (receiver : Option Expr) :
    Keeps (After P s₀) (narrowReceiver Γ bag receiver incoming) (fun _ => True) := by
  cases receiver with
  | none => exact .pure trivial
  | some e => exact narrowVar_keeps h e

theorem narrowTo_keeps {restriction : Option Candidates} (h : ∀ c ∈ restriction, c.In P)
    (e : Expr) : Keeps (After P s₀) (narrowTo Γ bag e restriction) (fun _ => True) := by
  cases restriction with
  | none => exact .pure trivial
  | some c => exact narrowVar_keeps (h c rfl) e

theorem restrict_keeps (value : Expr) (target : Candidates) :
    Keeps (After P s₀) (restrict Γ bag value target) (fun _ => True) := by
  unfold restrict
  cases value.variableName? with
  | none => exact .pure trivial
  | some name =>
      refine Keeps.get.bind fun s hs => ?_
      cases he : s.tree.get? Γ.context bag (.var name) with
      | none => exact .pure trivial
      | some entry =>
          refine .ite (fun _ => .pure trivial) fun _ => narrow_keeps (fun t ht => ?_) _
          exact hs.within.get? he t (TypeSet.mem_filter.mp ht).1

theorem store_keeps {found : Candidates} (h : found.In P) (value : Expr) (slot : Slot) :
    Keeps (After P s₀) (store Γ bag value found inner slot) (fun _ => True) := by
  refine (narrow_keeps h slot).bind fun _ _ => (snapshot_keeps slot).bind fun o _ => ?_
  cases o with
  | none => exact .pure trivial
  | some target => exact restrict_keeps value target

theorem scopeBag_keeps (id : NodeId) (outer : BagId) :
    Keeps (After P s₀) (scopeBag id outer) (fun _ => True) :=
  Keeps.get.bind fun _ _ => .pure trivial

theorem narrowParam_keeps {found : Candidates} (h : found.In P) (methodBag : Option BagId)
    (name : String) : Keeps (After P s₀) (narrowParam Γ methodBag name found) (fun _ => True) := by
  cases methodBag with
  | none => exact .pure trivial
  | some bag => exact narrow_keeps h _

/-- A slot that the bag itself has is found. -/
theorem snapshot_keeps_of_has {slot : Slot} (h : s₀.tree.has bag slot = true) :
    Keeps (After P s₀) (snapshot Γ bag slot) (fun o => ∃ c, o = some c ∧ c.In P) := by
  refine Keeps.get.bind fun s hs => .pure ?_
  have hhas : s.tree.has bag slot = true := (hs.tree.has bag slot).trans h
  obtain ⟨e, he⟩ := Option.isSome_iff_exists.mp (BagTree.isSome_get?_of_has Γ.context hhas)
  exact ⟨e.snapshot, by rw [he]; rfl, hs.within.get? he⟩

theorem paramTypes_keeps {methodBag : Option BagId} {param : String × TypeName}
    (h : ParamIn P s₀.tree methodBag param) :
    Keeps (After P s₀) (paramTypes Γ methodBag param) (Candidates.In P) := by
  cases methodBag with
  | none =>
      rcases h with h | ⟨_, h, _⟩
      · exact .pure (Candidates.in_single h)
      · cases h
  | some bag =>
      rcases h with h | ⟨_, h, hhas⟩
      · refine (snapshot_keeps _).bind fun o ho => .pure ?_
        cases o with
        | none => exact Candidates.in_single h
        | some c => exact ho c rfl
      · cases h
        refine (snapshot_keeps_of_has hhas).bind fun o ho => .pure ?_
        obtain ⟨c, rfl, hc⟩ := ho
        exact hc

theorem resultOf_in (hΓ : Γ.Covers P s₀.tree) (hs : After P s₀ s) {ty t owner : TypeName}
    {name : String} {m : Signature} (hm : Γ.context.method? ty name = some (owner, m))
    (ht : m.ret = TypeName.selfType → P t) : (resultOf Γ.context s.tree owner t m).In P := by
  unfold resultOf
  split
  · rename_i hself
    exact Candidates.in_single (ht (by simpa using hself))
  rename_i hself
  split
  · rename_i entry hentry
    obtain ⟨bag, _, he⟩ := Option.bind_eq_some_iff.mp hentry
    exact hs.within.get? he
  · rename_i hnone
    rcases hΓ.result hm with h | h | ⟨bag, hbag, hhas⟩
    · exact absurd (by simp [h]) hself
    · exact Candidates.in_single h
    · -- the class has an entry for the result, so the look-up cannot fail
      have hhas' := (hs.tree.has bag (.result m.name)).trans hhas
      have hsome := BagTree.isSome_get?_of_has Γ.context hhas'
      rw [hs.tree.classBag?, hbag, Option.bind_some] at hnone
      simp [hnone] at hsome

theorem resultsOf_in (hΓ : Γ.Covers P s₀.tree) (hs : After P s₀ s) (method : String) {ts : TypeSet}
    (hts : ∀ t ∈ ts, P t) : (resultsOf Γ.context s.tree method ts).In P := by
  unfold resultsOf
  refine List.foldlRecOn _ _ Candidates.in_none fun acc hacc t ht => ?_
  cases hm : Γ.context.method? t method with
  | none => exact hacc
  | some r => exact hacc.union (resultOf_in hΓ hs hm fun _ => hts t ht)

/-- The types that a call may have are those of the methods that it may mean. -/
theorem mem_resultsOf {ctx : Context} {T : BagTree} {method : String} {ts : TypeSet} {x : TypeName} :
    x ∈ (resultsOf ctx T method ts).types ↔ ∃ t ∈ ts, ∃ owner m,
      ctx.method? t method = some (owner, m) ∧ x ∈ (resultOf ctx T owner t m).types := by
  have hstep : ∀ (acc : Candidates) (t : TypeName), x ∈ ((ctx.method? t method).elim acc fun r =>
      acc.union (resultOf ctx T r.1 t r.2)).types ↔ x ∈ acc.types ∨ ∃ owner m,
        ctx.method? t method = some (owner, m) ∧ x ∈ (resultOf ctx T owner t m).types := by
    intro acc t
    cases ctx.method? t method with
    | none => simp
    | some r => simp [Candidates.union, Prod.ext_iff]
  rw [resultsOf, Candidates.mem_foldl hstep]
  simp [Candidates.none]

/-- Where there is only one method that a call can mean, its receivers are of one type. -/
theorem onlyMethod?_eq_some {ctx : Context} {ts : TypeSet} {method : String} {owner : TypeName}
    {m : Signature} (h : onlyMethod? ctx ts method = some (owner, m)) :
    ∃ t, ts.toList = [t] ∧ ctx.method? t method = some (owner, m) := by
  unfold onlyMethod? at h
  split at h
  · exact ⟨_, ‹_›, h⟩
  · cases h

theorem fitting?_eq_some {ctx : Context} {t owner : TypeName} {method : String} {argCount : Nat}
    {m : Signature} (h : fitting? ctx t method argCount = some (owner, m)) :
    ctx.method? t method = some (owner, m) ∧ m.arity = argCount := by
  obtain ⟨hm, ha⟩ := Option.filter_eq_some_iff.mp h
  exact ⟨hm, by simpa using ha⟩

/-! ## Expressions -/

mutual

theorem visit_keeps (hΓ : Γ.Covers P s₀.tree) {bag : BagId} {restriction : Option Candidates}
    (hr : ∀ c ∈ restriction, c.In P) :
    (e : Expr) → e.Writes (Γ.MayCreate P) →
      Keeps (After P s₀) (visit Γ bag restriction e) (Candidates.In P)
  | .int .., _ => .pure (Candidates.in_single hΓ.int)
  | .str .., _ => .pure (Candidates.in_single hΓ.string)
  | .bool .., _ => .pure (Candidates.in_single hΓ.bool)
  | .ident _ name, _ => by
      refine (snapshot_keeps _).bind fun o ho => ?_
      cases o with
      | none => exact everything_keeps
      | some c => exact .pure (ho c rfl)
  | .new _ ty, he => by
      have he := Expr.writes_new.mp he
      refine .ite (fun _ => .pure (Candidates.in_single hΓ.current)) fun hself => ?_
      refine .ite (fun _ => everything_keeps) fun h => .pure (Candidates.in_single ?_)
      simp only [beq_iff_eq, Bool.or_eq_true, Bool.not_eq_true', not_or, Bool.not_eq_false] at hself h
      exact he h.2 hself h.1
  | .paren _ inner, he => visit_keeps hΓ hr inner (Expr.writes_paren.mp he)
  | .assign _ name value, he => by
      refine (snapshot_keeps _).bind fun target htarget => ?_
      refine (visit_keeps hΓ htarget value (Expr.writes_assign.mp he)).bind fun found hfound => ?_
      refine (store_keeps hfound _ _).bind fun _ _ => (snapshot_keeps _).bind fun o ho => .pure ?_
      cases o with
      | none => exact hfound
      | some c => exact ho c rfl
  | .block _ body, he => visitBlock_keeps hΓ hr body (Expr.writes_block.mp he)
  | .binary _ op left right, he => by
      obtain ⟨hl, hr⟩ := Expr.writes_binary.mp he
      have hint := Candidates.in_single hΓ.int
      refine .ite (fun _ => ?_) fun _ => ?_
      · refine (visit_keeps hΓ (by simpa using hint) left hl).bind fun _ _ => ?_
        refine (visit_keeps hΓ (by simpa using hint) right hr).bind fun _ _ => ?_
        refine (narrowVar_keeps hint left).bind fun _ _ => ?_
        exact (narrowVar_keeps hint right).bind fun _ _ => .pure hint
      · refine (visit_keeps hΓ (by simp) left hl).bind fun _ _ => ?_
        refine (visit_keeps hΓ (by simp) right hr).bind fun _ _ => ?_
        exact .pure (Candidates.in_single hΓ.bool)
  | .unary _ op operand, he => by
      have hoperand := Expr.writes_unary.mp he
      have hint := Candidates.in_single hΓ.int
      have hbool := Candidates.in_single hΓ.bool
      cases op with
      | not =>
          refine (visit_keeps hΓ (by simpa using hbool) operand hoperand).bind fun _ _ => ?_
          exact (narrowVar_keeps hbool operand).bind fun _ _ => .pure hbool
      | negate =>
          refine (visit_keeps hΓ (by simpa using hint) operand hoperand).bind fun _ _ => ?_
          exact (narrowVar_keeps hint operand).bind fun _ _ => .pure hint
      | isvoid => exact (visit_keeps hΓ (by simp) operand hoperand).bind fun _ _ => .pure hbool
  | .loop _ test body, he => by
      obtain ⟨ht, hb⟩ := Expr.writes_loop.mp he
      have hbool := Candidates.in_single hΓ.bool
      refine (visit_keeps hΓ (by simpa using hbool) test ht).bind fun _ _ => ?_
      refine (narrowVar_keeps hbool test).bind fun _ _ => ?_
      refine (visit_keeps hΓ (by simp) body hb).bind fun _ _ => ?_
      exact .pure (Candidates.in_single hΓ.object)
  | .cond _ test thenBranch elseBranch, he => by
      obtain ⟨ht, ha, hb⟩ := Expr.writes_cond.mp he
      have hbool := Candidates.in_single hΓ.bool
      refine (visit_keeps hΓ (by simpa using hbool) test ht).bind fun _ _ => ?_
      refine (narrowVar_keeps hbool test).bind fun _ _ => ?_
      refine (visit_keeps hΓ (by simp) thenBranch ha).bind fun a ha => ?_
      exact (visit_keeps hΓ (by simp) elseBranch hb).bind fun b hb => .pure (ha.merge hb)
  | .letIn _ bindings body, he => by
      obtain ⟨hbindings, hbody⟩ := Expr.writes_letIn.mp he
      refine (visitBindings_keeps hΓ bindings hbindings).bind fun _ _ => ?_
      exact visit_keeps hΓ hr body hbody
  | .caseOf _ scrutinee arms, he => by
      obtain ⟨hs, harms⟩ := Expr.writes_caseOf.mp he
      refine (visit_keeps hΓ (by simp) scrutinee hs).bind fun _ _ => ?_
      exact visitArms_keeps hΓ Candidates.in_none arms harms
  | .dispatch span receiver method args, he => by
      obtain ⟨hreceiver, hargs⟩ := Expr.writes_dispatch.mp he
      refine (visitReceiver_keeps hΓ receiver hreceiver).bind fun found hfound => ?_
      refine .ite (fun _ => ?_) fun _ => ?_
      · refine (report_keeps _ _).bind fun _ _ => ?_
        exact (visitAll_keeps hΓ args hargs).bind fun _ _ => everything_keeps
      have hfits : Candidates.In P ⟨found.types.filter fun t =>
          (fitting? Γ.context t method args.length).isSome, false⟩ :=
        fun t ht => hfound t (TypeSet.mem_filter.mp ht).1
      refine (narrowReceiver_keeps hfits receiver).bind fun _ _ => ?_
      split
      · rename_i owner m hm
        obtain ⟨t, _, hm⟩ := onlyMethod?_eq_some hm
        refine Keeps.get.bind fun s hs => ?_
        rw [hs.tree.methodBag?]
        refine (visitArgs_keeps hΓ m.params (hΓ.params hm) args hargs).bind fun _ _ => ?_
        exact Keeps.get.bind fun s hs => .pure (resultsOf_in hΓ hs method hfits)
      · refine Keeps.get.bind fun s hs => ?_
        refine (visitAll_keeps hΓ args hargs).bind fun _ _ => ?_
        exact .pure (resultsOf_in hΓ hs method hfits)
  | .staticDispatch span receiver ancestor method args, he => by
      obtain ⟨_, hreceiver, hargs⟩ := Expr.writes_staticDispatch.mp he
      refine (visit_keeps hΓ (by simp) receiver hreceiver).bind fun found hfound => ?_
      dsimp only
      split
      · refine (report_keeps _ _).bind fun _ _ => ?_
        exact (visitAll_keeps hΓ args hargs).bind fun _ _ => everything_keeps
      · rename_i owner m hm
        obtain ⟨hm, _⟩ := fitting?_eq_some hm
        refine Keeps.get.bind fun s hs => ?_
        rw [hs.tree.methodBag?]
        refine (visitArgs_keeps hΓ m.params (hΓ.params hm) args hargs).bind fun _ _ => ?_
        refine .ite (fun _ => .pure hfound) fun hself => Keeps.get.bind fun s hs => .pure ?_
        exact resultOf_in hΓ hs hm fun h => absurd (by simp [h]) hself

theorem visitReceiver_keeps (hΓ : Γ.Covers P s₀.tree) {bag : BagId} :
    (receiver : Option Expr) → (∀ e ∈ receiver, e.Writes (Γ.MayCreate P)) →
      Keeps (After P s₀) (visitReceiver Γ bag receiver) (Candidates.In P)
  | some e, he => visit_keeps hΓ (by simp) e (he e rfl)
  | none, _ => .pure (Candidates.in_single hΓ.current)

theorem visitAll_keeps (hΓ : Γ.Covers P s₀.tree) {bag : BagId} :
    (es : List Expr) → (∀ e ∈ es, e.Writes (Γ.MayCreate P)) →
      Keeps (After P s₀) (visitAll Γ bag es) (fun _ => True)
  | [], _ => .pure trivial
  | e :: es, he => by
      obtain ⟨he, hes⟩ := List.forall_mem_cons.mp he
      exact (visit_keeps hΓ (by simp) e he).bind fun _ _ => visitAll_keeps hΓ es hes

theorem visitBlock_keeps (hΓ : Γ.Covers P s₀.tree) {bag : BagId} {restriction : Option Candidates}
    (hr : ∀ c ∈ restriction, c.In P) :
    (es : List Expr) → (∀ e ∈ es, e.Writes (Γ.MayCreate P)) →
      Keeps (After P s₀) (visitBlock Γ bag restriction es) (Candidates.In P)
  | [], _ => .pure (Candidates.in_single hΓ.object)
  | [e], he => by
      refine (visit_keeps hΓ hr e (he e List.mem_cons_self)).bind fun found hfound => ?_
      exact (narrowTo_keeps hr e).bind fun _ _ => .pure hfound
  | e :: e' :: es, he => by
      obtain ⟨he, hes⟩ := List.forall_mem_cons.mp he
      exact (visit_keeps hΓ (by simp) e he).bind fun _ _ => visitBlock_keeps hΓ hr (e' :: es) hes

theorem visitArgs_keeps (hΓ : Γ.Covers P s₀.tree) {bag : BagId} {methodBag : Option BagId} :
    (params : List (String × TypeName)) → (∀ p ∈ params, ParamIn P s₀.tree methodBag p) →
    (es : List Expr) → (∀ e ∈ es, e.Writes (Γ.MayCreate P)) →
      Keeps (After P s₀) (visitArgs Γ bag methodBag params es) (fun _ => True)
  | _, _, [], _ => by unfold visitArgs; exact .pure trivial
  | [], _, _ :: _, _ => .pure trivial
  | param :: params, hp, e :: es, he => by
      obtain ⟨hp, hps⟩ := List.forall_mem_cons.mp hp
      obtain ⟨he, hes⟩ := List.forall_mem_cons.mp he
      refine (paramTypes_keeps hp).bind fun types htypes => ?_
      refine (visit_keeps hΓ (by simpa using htypes) e he).bind fun found hfound => ?_
      refine (narrowParam_keeps hfound _ _).bind fun _ _ => ?_
      refine (narrowVar_keeps htypes e).bind fun _ _ => ?_
      exact visitArgs_keeps hΓ params hps es hes

theorem visitInit_keeps (hΓ : Γ.Covers P s₀.tree) {bag inner : BagId} {name : String} :
    (init : Option Expr) → (∀ e ∈ init, e.Writes (Γ.MayCreate P)) →
      Keeps (After P s₀) (visitInit Γ bag inner name init) (fun _ => True)
  | some e, he => by
      refine (visit_keeps hΓ (by simp) e (he e rfl)).bind fun found hfound => ?_
      exact store_keeps hfound _ _
  | none, _ => .pure trivial

theorem visitBindings_keeps (hΓ : Γ.Covers P s₀.tree) {bag : BagId} :
    (bindings : List (Binder × Option Expr)) →
    (∀ b ∈ bindings, Γ.MayCreate P b.1.ty ∧ ∀ e ∈ b.2, e.Writes (Γ.MayCreate P)) →
      Keeps (After P s₀) (visitBindings Γ bag bindings) (fun _ => True)
  | [], _ => .pure trivial
  | (b, init) :: bindings, h => by
      obtain ⟨hb, hbs⟩ := List.forall_mem_cons.mp h
      refine (scopeBag_keeps _ _).bind fun inner _ => ?_
      refine (visitInit_keeps hΓ init hb.2).bind fun _ _ => ?_
      exact visitBindings_keeps hΓ bindings hbs

theorem visitArms_keeps (hΓ : Γ.Covers P s₀.tree) {bag : BagId} {acc : Candidates}
    (hacc : acc.In P) :
    (arms : List (Binder × Expr)) →
    (∀ a ∈ arms, Γ.MayCreate P a.1.ty ∧ a.2.Writes (Γ.MayCreate P)) →
      Keeps (After P s₀) (visitArms Γ bag acc arms) (Candidates.In P)
  | [], _ => .pure hacc
  | (b, body) :: arms, h => by
      obtain ⟨ha, has⟩ := List.forall_mem_cons.mp h
      refine (scopeBag_keeps _ _).bind fun inner _ => ?_
      refine (visit_keeps hΓ (by simp) body ha.2).bind fun found hfound => ?_
      exact visitArms_keeps hΓ (hacc.union hfound) arms has

end

/-! ## Classes -/

theorem feature_keeps (hΓ : Γ.Covers P s₀.tree) {bag : BagId} (f : Feature)
    (hf : f.Writes (Γ.MayCreate P)) : Keeps (After P s₀) (feature Γ bag f) (fun _ => True) := by
  cases f with
  | attr a => exact visitInit_keeps hΓ a.init hf.2
  | method m =>
      refine Keeps.get.bind fun s _ => ?_
      cases s.tree.bagOf? m.id with
      | none => exact .pure trivial
      | some inner =>
          refine (visit_keeps hΓ (by simp) m.body hf.2.2).bind fun found hfound => ?_
          exact store_keeps hfound _ _

theorem Env.Covers.evolvesTo {t u : BagTree} (hΓ : Γ.Covers P t) (h : t.EvolvesTo u) :
    Γ.Covers P u where
  object := hΓ.object
  int := hΓ.int
  string := hΓ.string
  bool := hΓ.bool
  current := hΓ.current
  result hm := by simpa only [h.classBag?, h.has] using hΓ.result hm
  params hm p hp := by simpa only [ParamIn, h.methodBag?, h.has] using hΓ.params hm p hp

/-- Whatever the tree, all types are covered by the condition that holds of all types. -/
theorem Env.covers_true (Γ : Env) (t : BagTree) : Γ.Covers (fun _ => True) t :=
  ⟨trivial, trivial, trivial, trivial, trivial, fun _ => Or.inr (Or.inl trivial), fun _ _ _ => Or.inl trivial⟩

end Sweep

namespace ClassTable

open Sweep

/-- `P` holds of all types that a sweep through the classes starts from. -/
def Covers (t : ClassTable) (P : TypeName → Prop) (tree : BagTree) : Prop :=
  ∀ c ∈ t.classes, Sweep.Env.Covers ⟨t.context, c.name⟩ P tree ∧
    ∀ f ∈ c.features, f.Writes (Sweep.Env.MayCreate ⟨t.context, c.name⟩ P)

variable {t : ClassTable} {P : TypeName → Prop} {tree u : BagTree}

theorem Covers.evolvesTo (h : t.Covers P tree) (hu : tree.EvolvesTo u) : t.Covers P u :=
  fun c hc => ⟨(h c hc).1.evolvesTo hu, (h c hc).2⟩

theorem sweep_after (h : t.Covers P tree) (hw : tree.Within P) :
    After P ⟨tree, []⟩ ⟨(t.sweep tree).1, (t.sweep tree).2⟩ := by
  have hall : Keeps (After P ⟨tree, []⟩) (t.classes.forM (Sweep.classDecl t.context))
      (fun _ => True) := by
    refine .forM fun c hc => Keeps.get.bind fun s _ => ?_
    cases s.tree.bagOf? c.id with
    | none => exact .pure trivial
    | some bag => exact .forM fun f hf => feature_keeps (h c hc).1 f ((h c hc).2 f hf)
  exact (hall (.refl hw)).1

theorem covers_true (t : ClassTable) (tree : BagTree) : t.Covers (fun _ => True) tree :=
  fun _ _ => ⟨Env.covers_true _ tree, fun f _ => f.writes_of_forall fun _ _ _ _ => trivial⟩

theorem sweep_evolvesTo (t : ClassTable) (tree : BagTree) : tree.EvolvesTo (t.sweep tree).1 :=
  (sweep_after (t.covers_true tree) ⟨fun _ _ => trivial, fun _ _ _ _ _ _ => trivial⟩).tree

/-! ## Repeated sweeps -/

/-- The tree after `n` sweeps. -/
def swept (t : ClassTable) (n : Nat) (tree : BagTree) : BagTree := (fun u => (t.sweep u).1)^[n] tree

@[simp] theorem swept_zero : t.swept 0 tree = tree := rfl

theorem swept_succ (n : Nat) : t.swept (n + 1) tree = t.swept n (t.sweep tree).1 := rfl

theorem swept_succ' (n : Nat) : t.swept (n + 1) tree = (t.sweep (t.swept n tree)).1 :=
  Function.iterate_succ_apply' _ _ _

theorem swept_evolvesTo (t : ClassTable) (n : Nat) (tree : BagTree) :
    tree.EvolvesTo (t.swept n tree) := by
  induction n with
  | zero => exact .refl tree
  | succ n ih => rw [swept_succ']; exact ih.trans (t.sweep_evolvesTo _)

theorem swept_within (h : t.Covers P tree) (hw : tree.Within P) (n : Nat) :
    (t.swept n tree).Within P := by
  induction n with
  | zero => exact hw
  | succ n ih =>
      rw [swept_succ']
      exact (sweep_after (h.evolvesTo (t.swept_evolvesTo n tree)) ih).within

end ClassTable

end CoolTyping
