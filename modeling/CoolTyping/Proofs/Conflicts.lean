import CoolTyping.Proofs.Everywhere
import CoolTyping.Proofs.Flows

/-!
# Conflicts that are not swallowed

An entry whose uses conflict may still have one candidate, and then no ambiguity is reported. If all is well
at the end, this has not happened. A conflict with candidates on both sides leaves more than one of them
for good. So the first conflict would be one with nothing on the other side. Only a value that fits no
candidate of its place leads to such a conflict, and at the end all values fit their places.
-/

namespace CoolTyping

/-! ## What a single candidate at the end says -/

namespace Entry

variable {e f g : Entry}

/-- If `f` has one candidate, it was one of `e`. -/
def Retains (e f : Entry) : Prop :=
  e.candidates.toList ≠ [] → ∀ c, f.candidates.toList = [c] → c ∈ e.candidates

theorem Retains.refl (e : Entry) : e.Retains e := fun _ c hc => by
  rw [← TypeSet.mem_toList, hc]
  exact List.mem_cons_self

theorem Retains.trans (hef : e.EvolvesTo f) (hfg : f.EvolvesTo g) (h : e.Retains f) (h' : f.Retains g) :
    e.Retains g := by
  intro hne c hc
  have hmem := h' (hef.nonempty hne) c hc
  cases hf : f.ambiguous with
  | false => exact (hef.shrinks hf).2.subset hmem
  | true =>
      -- From a conflict on candidates are only gained, so `f` has no other one.
      obtain ⟨rest, hrest⟩ := (hfg.grows hf).2
      rw [hc, List.append_eq_singleton_iff] at hrest
      rcases hrest with ⟨hnil, _⟩ | ⟨hsingle, _⟩
      · exact absurd hnil (hef.nonempty hne)
      · exact h hne c hsingle

theorem retains_narrow (e : Entry) (incoming : Candidates) : e.Retains (e.narrow incoming) := by
  intro hne c hc
  rcases narrow_cases e incoming with
    ⟨_, h⟩ | ⟨_, _, h⟩ | ⟨_, _, hcommon, ⟨_, h⟩ | ⟨_, h⟩⟩ <;> rw [h] at hc
  · exact Retains.refl e hne c hc
  · obtain ⟨rest, hrest⟩ := TypeSet.isPrefix_union e.candidates incoming.types
    have hc : (e.candidates.union incoming.types).toList = [c] := hc
    rw [hc, List.append_eq_singleton_iff] at hrest
    rcases hrest with ⟨hnil, _⟩ | ⟨hsingle, _⟩
    · exact absurd hnil hne
    · exact Retains.refl e hne c hsingle
  · obtain ⟨t, ht⟩ := List.exists_mem_of_ne_nil _ hcommon
    have htc : t ∈ incoming.types.toList := (TypeSet.mem_inter.mp ht).2
    rw [show incoming.types.toList = [c] from hc, List.mem_singleton] at htc
    exact htc ▸ (TypeSet.mem_inter.mp ht).1
  · have hmem : c ∈ (e.candidates.inter incoming.types).toList := by
      rw [show (e.candidates.inter incoming.types).toList = [c] from hc]
      exact List.mem_cons_self
    exact (TypeSet.mem_inter.mp hmem).1

end Entry

/-- There are candidates, and they do not come out of a conflict. -/
structure Candidates.Clear (c : Candidates) : Prop where
  nonempty : ∃ t, t ∈ c.types
  unambiguous : c.ambiguous = false

namespace Candidates

variable {a b : Candidates}

theorem clear_single (t : TypeName) : (single t).Clear := ⟨⟨t, TypeSet.mem_single.mpr rfl⟩, rfl⟩

theorem Clear.merge (ha : a.Clear) (hb : b.Clear) : (a.merge b).Clear := by
  refine ⟨merge_nonempty ha.nonempty, ?_⟩
  unfold Candidates.merge
  dsimp only
  split <;> simp [union, ha.unambiguous, hb.unambiguous]

end Candidates

namespace BagTree

variable {t u v T : BagTree} {ctx : Context} {i j : BagId} {s slot : Slot} {e f : Entry}
  {incoming : Candidates}

theorem entryAt?_of_narrow (hf : (t.narrow ctx i slot incoming).entryAt? j s = some f) :
    t.entryAt? j s = some f ∨ ∃ e, t.entryAt? j s = some e ∧ f = e.narrow incoming := by
  rw [entryAt?_narrow] at hf
  split at hf
  · obtain ⟨e, he, rfl⟩ := Option.map_eq_some_iff.mp hf
    exact Or.inr ⟨e, he, rfl⟩
  · exact Or.inl hf

/-! ## Trees on the way to another -/

/-- The tree `t` may turn into `u`, and a candidate that is the only one in the end is one before. -/
structure LeadsTo (t u : BagTree) : Prop extends t.EvolvesTo u where
  retains : ∀ {i slot e f}, t.entryAt? i slot = some e → u.entryAt? i slot = some f → e.Retains f

namespace LeadsTo

theorem refl (t : BagTree) : t.LeadsTo t :=
  ⟨.refl t, fun he hf => Option.some.inj (he.symm.trans hf) ▸ .refl _⟩

theorem trans (h : t.LeadsTo u) (h' : u.LeadsTo v) : t.LeadsTo v where
  toEvolvesTo := h.toEvolvesTo.trans h'.toEvolvesTo
  retains he hg := by
    obtain ⟨f, hf, hef⟩ := h.entryAt?_eq_some he
    obtain ⟨g, hg', hfg⟩ := h'.entryAt?_eq_some hf
    cases hg.symm.trans hg'
    exact .trans hef hfg (h.retains he hf) (h'.retains hf hg)

theorem narrow (t : BagTree) (ctx : Context) (i : BagId) (slot : Slot) (incoming : Candidates) :
    t.LeadsTo (t.narrow ctx i slot incoming) where
  toEvolvesTo := evolvesTo_narrow t ctx i slot incoming
  retains he hf := by
    rcases entryAt?_of_narrow hf with hf | ⟨e, he', rfl⟩
    · cases he.symm.trans hf
      exact .refl _
    · cases he.symm.trans he'
      exact Entry.retains_narrow _ _

end LeadsTo

theorem EvolvesTo.enclosingN (h : t.EvolvesTo u) (n : Nat) (i : BagId) :
    u.enclosingN n i = t.enclosingN n i := by
  induction n generalizing i with
  | zero => rfl
  | succ n ih =>
      rw [BagTree.enclosingN, BagTree.enclosingN, h.parent?]
      cases t.parent? i with
      | none => rfl
      | some j => rw [Option.elim_some, Option.elim_some, ih]

theorem EvolvesTo.resolve? (h : t.EvolvesTo u) (ctx : Context) (i : BagId) (slot : Slot) :
    u.resolve? ctx i slot = t.resolve? ctx i slot := by
  have hhas : (u.has · slot) = (t.has · slot) := funext fun j => h.has j slot
  have hclass : u.classBag? = t.classBag? := funext h.classBag?
  rw [BagTree.resolve?, BagTree.resolve?, enclosing, enclosing, h.enclosingN, h.classOf, hhas, hclass]

/-- The entry that a slot refers to turns into the one that it refers to later. -/
theorem EvolvesTo.get?_eq_some (h : t.EvolvesTo u) (he : t.get? ctx i slot = some e) :
    ∃ f, u.get? ctx i slot = some f ∧ e.EvolvesTo f := by
  obtain ⟨j, hj, he⟩ := Option.bind_eq_some_iff.mp he
  obtain ⟨f, hf, hef⟩ := h.entryAt?_eq_some he
  exact ⟨f, by rw [get?, h.resolve?, hj, Option.bind_some, hf], hef⟩

/-- The entry that a slot refers to leads to the one that it refers to later. -/
theorem LeadsTo.get?_eq_some (h : t.LeadsTo u) (he : t.get? ctx i slot = some e) :
    ∃ f, u.get? ctx i slot = some f ∧ e.EvolvesTo f ∧ e.Retains f := by
  obtain ⟨j, hj, he⟩ := Option.bind_eq_some_iff.mp he
  obtain ⟨f, hf, hef⟩ := h.entryAt?_eq_some he
  refine ⟨f, ?_, hef, h.retains he hf⟩
  rw [get?, h.resolve?, hj, Option.bind_some, hf]

/-! ## Trees without conflicts -/

/-- Every entry that is open has one candidate. -/
def Single (t : BagTree) : Prop :=
  ∀ {i slot e}, t.entryAt? i slot = some e → e.locked = false → ∃ c, e.candidates.toList = [c]

/-- No uses conflict, and there are candidates for everything. -/
structure Clear (t : BagTree) : Prop where
  entries : ∀ {i slot e}, t.entryAt? i slot = some e → e.snapshot.Clear
  everything : t.everything.Clear

theorem Clear.get? (h : t.Clear) (he : t.get? ctx i slot = some e) : e.snapshot.Clear := by
  obtain ⟨j, _, he⟩ := Option.bind_eq_some_iff.mp he
  exact h.entries he

end BagTree

/-- A use that conflicts leaves more than one candidate behind. So it does not conflict if one is left in
the end. -/
theorem Entry.clear_narrow {e g : Entry} {incoming : Candidates} {c : TypeName} (he : e.snapshot.Clear)
    (hin : incoming.Clear) (hg : (e.narrow incoming).EvolvesTo g)
    (hc : e.locked = false → g.candidates.toList = [c]) : (e.narrow incoming).snapshot.Clear := by
  rcases narrow_cases e incoming with
    ⟨_, h⟩ | ⟨hl, hconflict, h⟩ | ⟨_, _, hcommon, ⟨ha, _⟩ | ⟨_, h⟩⟩
  · rwa [h]
  · exfalso
    obtain ⟨x, hx⟩ := he.nonempty
    obtain ⟨y, hy⟩ := hin.nonempty
    rw [h] at hg
    have hsub : ∀ z ∈ e.candidates.union incoming.types, z = c := fun z hz => by
      have hz' : z ∈ g.candidates.toList := (hg.grows rfl).2.subset hz
      rwa [hc hl, List.mem_singleton] at hz'
    rcases hconflict with ha | hnil
    · exact Bool.false_ne_true (he.unambiguous.symm.trans ha)
    · have hxy : x = y := (hsub x (TypeSet.mem_union.mpr (Or.inl hx))).trans
        (hsub y (TypeSet.mem_union.mpr (Or.inr hy))).symm
      exact List.ne_nil_of_mem (TypeSet.mem_inter.mpr ⟨hx, hxy ▸ hy⟩) hnil
  · exact absurd (hin.unambiguous.symm.trans ha) Bool.false_ne_true
  · rw [h]
    exact ⟨List.exists_mem_of_ne_nil _ hcommon, he.unambiguous⟩

theorem BagTree.Clear.narrow {t T : BagTree} {ctx : Context} {i : BagId} {slot : Slot} {incoming : Candidates}
    (h : t.Clear) (hT : T.Single) (hin : incoming.Clear)
    (hlead : (t.narrow ctx i slot incoming).LeadsTo T) : (t.narrow ctx i slot incoming).Clear where
  entries hf := by
    rcases entryAt?_of_narrow hf with he | ⟨e, he, rfl⟩
    · exact h.entries he
    · obtain ⟨g, hg, hev⟩ := hlead.entryAt?_eq_some hf
      cases hl : e.locked with
      | true =>
          rw [(e.evolvesTo_narrow incoming).fixed hl]
          exact h.entries he
      | false =>
          obtain ⟨c, hc⟩ := hT hg ((hev.locked.trans (e.evolvesTo_narrow incoming).locked).trans hl)
          exact Entry.clear_narrow (h.entries he) hin hev fun _ => hc
  everything := by
    have heq : (t.narrow ctx i slot incoming).everything = t.everything := by
      rw [BagTree.everything, BagTree.everything, (evolvesTo_narrow t ctx i slot incoming).concrete]
    rw [heq]
    exact h.everything

/-! ## Computations that meet no conflict -/

namespace Sweep

open Candidates (Clear clear_single)

variable {α β : Type} {T : BagTree} {Γ : Env} {bag inner : BagId} {pre : Prop}

/-- The tree before the computation leads to the one behind it. Provided `pre`, if there were no conflicts
and the way goes on to `T`, there are none behind it, and `post` holds of what it gives. -/
structure Clears (T : BagTree) (pre : Prop) (x : Sweep α) (post : α → Prop) : Prop where
  leads : ∀ s : State, s.tree.LeadsTo (next x s).tree
  clear : pre → ∀ s : State, s.tree.Clear → (next x s).tree.LeadsTo T →
    (next x s).tree.Clear ∧ post (result x s)

namespace Clears

variable {post : α → Prop} {post' : β → Prop}

theorem mono {x : Sweep α} {weaker : α → Prop} (h : Clears T pre x post)
    (hw : pre → ∀ a, post a → weaker a) : Clears T pre x weaker :=
  ⟨h.leads, fun hp s hs hT => (h.clear hp s hs hT).imp_right (hw hp _)⟩

theorem pure {a : α} (h : pre → post a) : Clears T pre (Pure.pure a) post :=
  ⟨fun s => .refl s.tree, fun hp _ hs _ => ⟨hs, h hp⟩⟩

/-- The tree between the two parts is on the way to `T` as well. -/
theorem bind {x : Sweep α} {f : α → Sweep β} (hx : Clears T pre x post)
    (hf : ∀ a, Clears T (pre ∧ post a) (f a) post') : Clears T pre (x >>= f) post' where
  leads s := (hx.leads s).trans ((hf _).leads _)
  clear hp s hs hT := by
    obtain ⟨hs', ha⟩ := hx.clear hp s hs (((hf _).leads _).trans hT)
    exact (hf _).clear ⟨hp, ha⟩ _ hs' hT

theorem get : Clears T pre (MonadState.get : Sweep State) (fun s => s.tree.Clear ∧ s.tree.LeadsTo T) :=
  ⟨fun s => .refl s.tree, fun _ _ hs hT => ⟨hs, hs, hT⟩⟩

theorem ite {c : Prop} [Decidable c] {x y : Sweep α} (hx : c → Clears T pre x post)
    (hy : ¬ c → Clears T pre y post) : Clears T pre (if c then x else y) post := by
  by_cases hc : c
  · rw [if_pos hc]; exact hx hc
  · rw [if_neg hc]; exact hy hc

theorem forM {f : α → Sweep Unit} {as : List α} (h : ∀ a ∈ as, Clears T pre (f a) (fun _ => True)) :
    Clears T pre (as.forM f) (fun _ => True) := by
  induction as with
  | nil => exact pure fun _ => trivial
  | cons a as ih =>
      have has := ih fun b hb => h b (List.mem_cons_of_mem _ hb)
      exact (h a List.mem_cons_self).bind fun _ => ⟨has.leads, fun hp => has.clear hp.1⟩

end Clears

theorem report_clears (error : SemanticError) (span : Span) :
    Clears T pre (report error span) (fun _ => True) :=
  ⟨fun s => .refl s.tree, fun _ _ hs _ => ⟨hs, trivial⟩⟩

theorem narrow_clears (hT : T.Single) {incoming : Candidates} (h : pre → incoming.Clear) (slot : Slot) :
    Clears T pre (narrow Γ bag slot incoming) (fun _ => True) :=
  ⟨fun s => .narrow s.tree _ _ _ _, fun hp _ hs hlead => ⟨hs.narrow hT (h hp) hlead, trivial⟩⟩

/-- What the entry for a slot holds is clear, and is not lost if it is all that is left in the end. -/
theorem snapshot_clears (slot : Slot) :
    Clears T pre (snapshot Γ bag slot) (fun o => ∀ found ∈ o, found.Clear ∧
      ∃ e, T.get? Γ.context bag slot = some e ∧ ∀ t, e.candidates.toList = [t] → t ∈ found.types) := by
  refine Clears.get.bind fun s => .pure fun ⟨_, hs, hT⟩ found hfound => ?_
  obtain ⟨e, he, rfl⟩ := Option.map_eq_some_iff.mp hfound
  obtain ⟨f, hf, _, hretains⟩ := hT.get?_eq_some he
  have hclear := hs.get? he
  obtain ⟨t, ht⟩ := hclear.nonempty
  exact ⟨hclear, f, hf, hretains (List.ne_nil_of_mem ht)⟩

theorem everything_clears : Clears T pre everything Clear :=
  Clears.get.bind fun _ => .pure fun h => h.2.1.everything

theorem scopeBag_clears (b : Binder) :
    Clears T pre (scopeBag b.id bag) (· = Constraint.scopeOf T bag b) :=
  Clears.get.bind fun _ => .pure fun h => by rw [← h.2.2.bagOf?]; rfl

theorem narrowVar_clears (hT : T.Single) {incoming : Candidates} (h : pre → incoming.Clear) (e : Expr) :
    Clears T pre (narrowVar Γ bag e incoming) (fun _ => True) := by
  unfold narrowVar
  cases e.variableName? with
  | none => exact .pure fun _ => trivial
  | some name => exact narrow_clears hT h _

theorem narrowReceiver_clears (hT : T.Single) {incoming : Candidates} (h : pre → incoming.Clear)
    (receiver : Option Expr) : Clears T pre (narrowReceiver Γ bag receiver incoming) (fun _ => True) := by
  cases receiver with
  | none => exact .pure fun _ => trivial
  | some e => exact narrowVar_clears hT h e

theorem narrowTo_clears (hT : T.Single) {restriction : Option Candidates}
    (h : pre → ∀ c ∈ restriction, c.Clear) (e : Expr) :
    Clears T pre (narrowTo Γ bag e restriction) (fun _ => True) := by
  cases restriction with
  | none => exact .pure fun _ => trivial
  | some c => exact narrowVar_clears hT (fun hp => h hp c rfl) e

theorem narrowParam_clears (hT : T.Single) {found : Candidates} (h : pre → found.Clear)
    (methodBag : Option BagId) (name : String) :
    Clears T pre (narrowParam Γ methodBag name found) (fun _ => True) := by
  cases methodBag with
  | none => exact .pure fun _ => trivial
  | some bag => exact narrow_clears hT h _

theorem paramTypes_clears (methodBag : Option BagId) (param : String × TypeName) :
    Clears T pre (paramTypes Γ methodBag param) Clear := by
  cases methodBag with
  | none => exact .pure fun _ => clear_single _
  | some bag =>
      refine (snapshot_clears _).bind fun o => .pure fun ⟨_, ho⟩ => ?_
      cases o with
      | none => exact clear_single _
      | some c => exact (ho c rfl).1

/-- The only candidate that the value has in the end is among those that `target` accepts. -/
theorem restrict_clears (hT : T.Single) {value : Expr} {target : Candidates}
    (h : pre → ∀ x entry, value.variableName? = some x → T.get? Γ.context bag (.var x) = some entry →
      entry.locked = false → ∃ a, entry.candidates.toList = [a] ∧
        ∃ c ∈ target.types, Γ.context.conforms a c = true) :
    Clears T pre (restrict Γ bag value target) (fun _ => True) := by
  unfold restrict
  cases hname : value.variableName? with
  | none => exact .pure fun _ => trivial
  | some name =>
      refine Clears.get.bind fun s => ?_
      cases he : s.tree.get? Γ.context bag (.var name) with
      | none => exact .pure fun _ => trivial
      | some entry =>
          refine .ite (fun _ => .pure fun _ => trivial) fun hopen => ?_
          refine narrow_clears hT (fun ⟨hp, hs, hlead⟩ => ?_) _
          simp only [Bool.or_eq_true, not_or, Bool.not_eq_true] at hopen
          obtain ⟨f, hf, hev, hretains⟩ := hlead.get?_eq_some he
          obtain ⟨a, ha, c, hc, hconforms⟩ := h hp name f hname hf (hev.locked.trans hopen.1.2)
          obtain ⟨t, ht⟩ := (hs.get? he).nonempty
          refine ⟨⟨a, TypeSet.mem_filter.mpr ⟨hretains (List.ne_nil_of_mem ht) a ha, ?_⟩⟩, rfl⟩
          exact List.any_eq_true.mpr ⟨c, hc, hconforms⟩

theorem store_clears (hT : T.Single) {value : Expr} {found : Candidates} {slot : Slot}
    (hfound : pre → found.Clear)
    (h : pre → (Constraint.flow bag value inner slot).Acceptable Γ.context T) :
    Clears T pre (store Γ bag value found inner slot) (fun _ => True) := by
  refine (narrow_clears hT hfound slot).bind fun _ => (snapshot_clears slot).bind fun o => ?_
  cases o with
  | none => exact .pure fun _ => trivial
  | some target =>
      refine restrict_clears hT fun ⟨⟨hp, _⟩, ho⟩ x entry hx hentry hopen => ?_
      obtain ⟨_, e, he, hkept⟩ := ho target rfl
      obtain ⟨a, c, ha, hc, hconforms⟩ := h hp x entry e hx hentry hopen he
      exact ⟨a, ha, c, hkept c hc, hconforms⟩

/-! ## Expressions -/

theorem resultOf_clear {t : BagTree} (ht : t.Clear) (ctx : Context) (owner ty : TypeName) (m : Signature) :
    (resultOf ctx t owner ty m).Clear := by
  unfold resultOf
  split
  · exact clear_single _
  split
  · rename_i e he
    obtain ⟨bag, _, he⟩ := Option.bind_eq_some_iff.mp he
    exact ht.get? he
  · exact clear_single _

theorem resultsOf_clear {t : BagTree} (ht : t.Clear) {ctx : Context} {method : String} {ts : TypeSet}
    {ty owner : TypeName} {m : Signature} (hty : ty ∈ ts) (hm : ctx.method? ty method = some (owner, m)) :
    (resultsOf ctx t method ts).Clear := by
  constructor
  · obtain ⟨x, hx⟩ := (resultOf_clear ht ctx owner ty m).nonempty
    exact ⟨x, mem_resultsOf.mpr ⟨ty, hty, owner, m, hm, hx⟩⟩
  · unfold resultsOf
    refine List.foldlRecOn (motive := fun acc : Candidates => acc.ambiguous = false) _ _ rfl
      fun acc hacc ty _ => ?_
    cases ctx.method? ty method with
    | none => exact hacc
    | some r => simp [Candidates.union, hacc, (resultOf_clear ht ctx r.1 ty r.2).unambiguous]

/-- There is a type that a call may be made on, and the results of the call are clear. -/
theorem fits_clear {found : Candidates} {method : String} {argCount : Nat}
    (h : ¬ (fits Γ found method argCount).isEmpty = true) :
    (∃ t, t ∈ fits Γ found method argCount) ∧
      ∀ {t : BagTree}, t.Clear → (resultsOf Γ.context t method (fits Γ found method argCount)).Clear := by
  obtain ⟨ty, hty⟩ := List.exists_mem_of_ne_nil _ fun hnil => h (TypeSet.isEmpty_iff.mpr hnil)
  obtain ⟨owner, m, hm, _⟩ := (mem_fits.mp hty).2
  exact ⟨⟨ty, hty⟩, fun ht => resultsOf_clear ht hty hm⟩

/-- All the constraints are acceptable. -/
def Accepts (Γ : Env) (T : BagTree) (ks : List Constraint) : Prop := ∀ k ∈ ks, k.Acceptable Γ.context T

theorem accepts_cons {k : Constraint} {ks : List Constraint} :
    Accepts Γ T (k :: ks) ↔ k.Acceptable Γ.context T ∧ Accepts Γ T ks := List.forall_mem_cons

theorem accepts_append {ks ks' : List Constraint} :
    Accepts Γ T (ks ++ ks') ↔ Accepts Γ T ks ∧ Accepts Γ T ks' := List.forall_mem_append

theorem clear_of_mem_some {c : Candidates} (h : c.Clear) : ∀ d ∈ some c, d.Clear := fun _ hd =>
  Option.some.inj hd ▸ h

open Constraint

mutual

theorem visit_clears (hT : T.Single) {pre : Prop} {bag : BagId} {restriction : Option Candidates}
    (hr : pre → ∀ c ∈ restriction, c.Clear) : (e : Expr) → e.Everywhere Expr.HasArms →
      (pre → Accepts Γ T (ofExpr T bag e)) → Clears T pre (visit Γ bag restriction e) Clear
  | .int .., _, _ | .str .., _, _ | .bool .., _, _ => .pure fun _ => clear_single _
  | .ident _ name, _, _ => by
      refine (snapshot_clears _).bind fun o => ?_
      cases o with
      | none => exact everything_clears
      | some c => exact .pure fun ⟨_, ho⟩ => (ho c rfl).1
  | .new _ ty, _, _ => by
      refine .ite (fun _ => .pure fun _ => clear_single _) fun _ => ?_
      exact .ite (fun _ => everything_clears) fun _ => .pure fun _ => clear_single _
  | .paren _ inner, ha, hk => visit_clears hT hr inner (ha.child List.mem_cons_self) hk
  | .assign _ name value, ha, hk => by
      simp only [ofExpr, accepts_cons] at hk
      refine (snapshot_clears _).bind fun target => ?_
      refine (visit_clears hT (fun ⟨_, htarget⟩ c hc => (htarget c hc).1) value
        (ha.child List.mem_cons_self) fun ⟨hp, _⟩ => (hk hp).2).bind fun found => ?_
      refine (store_clears hT (fun h => h.2) fun ⟨⟨hp, _⟩, _⟩ => (hk hp).1).bind fun _ => ?_
      refine (snapshot_clears _).bind fun o => .pure fun ⟨⟨⟨_, hfound⟩, _⟩, ho⟩ => ?_
      cases o with
      | none => exact hfound
      | some c => exact (ho c rfl).1
  | .block _ body, ha, hk => visitBlock_clears hT hr body (fun e he => ha.child he) hk
  | .binary _ op left right, ha, hk => by
      simp only [ofExpr, accepts_append] at hk
      have hleft := ha.child List.mem_cons_self
      have hright := ha.child (List.mem_cons_of_mem _ List.mem_cons_self)
      refine .ite (fun _ => ?_) fun _ => ?_
      · have hint := clear_single TypeName.int
        refine (visit_clears hT (fun _ => clear_of_mem_some hint) left hleft fun hp => (hk hp).2.1).bind
          fun _ => ?_
        refine (visit_clears hT (fun _ => clear_of_mem_some hint) right hright
          fun ⟨hp, _⟩ => (hk hp).2.2).bind fun _ => ?_
        refine (narrowVar_clears hT (fun _ => hint) left).bind fun _ => ?_
        exact (narrowVar_clears hT (fun _ => hint) right).bind fun _ => .pure fun _ => hint
      · refine (visit_clears hT (fun _ _ hc => by cases hc) left hleft fun hp => (hk hp).2.1).bind fun _ => ?_
        refine (visit_clears hT (fun _ _ hc => by cases hc) right hright
          fun ⟨hp, _⟩ => (hk hp).2.2).bind fun _ => ?_
        exact .pure fun _ => clear_single _
  | .unary _ op operand, ha, hk => by
      simp only [ofExpr, accepts_append] at hk
      have hoperand := ha.child List.mem_cons_self
      cases op with
      | not =>
          have hbool := clear_single TypeName.bool
          refine (visit_clears hT (fun _ => clear_of_mem_some hbool) operand hoperand
            fun hp => (hk hp).2).bind fun _ => ?_
          exact (narrowVar_clears hT (fun _ => hbool) operand).bind fun _ => .pure fun _ => hbool
      | negate =>
          have hint := clear_single TypeName.int
          refine (visit_clears hT (fun _ => clear_of_mem_some hint) operand hoperand
            fun hp => (hk hp).2).bind fun _ => ?_
          exact (narrowVar_clears hT (fun _ => hint) operand).bind fun _ => .pure fun _ => hint
      | isvoid =>
          refine (visit_clears hT (fun _ _ hc => by cases hc) operand hoperand
            fun hp => (hk hp).2).bind fun _ => ?_
          exact .pure fun _ => clear_single _
  | .loop _ test body, ha, hk => by
      simp only [ofExpr, accepts_cons, accepts_append] at hk
      have hbool := clear_single TypeName.bool
      refine (visit_clears hT (fun _ => clear_of_mem_some hbool) test (ha.child List.mem_cons_self)
        fun hp => (hk hp).2.1).bind fun _ => ?_
      refine (narrowVar_clears hT (fun _ => hbool) test).bind fun _ => ?_
      refine (visit_clears hT (fun _ _ hc => by cases hc) body (ha.child (by simp [Expr.children]))
        fun ⟨⟨hp, _⟩, _⟩ => (hk hp).2.2).bind fun _ => ?_
      exact .pure fun _ => clear_single _
  | .cond _ test thenBranch elseBranch, ha, hk => by
      simp only [ofExpr, accepts_cons, accepts_append] at hk
      have hbool := clear_single TypeName.bool
      refine (visit_clears hT (fun _ => clear_of_mem_some hbool) test (ha.child List.mem_cons_self)
        fun hp => (hk hp).2.1.1).bind fun _ => ?_
      refine (narrowVar_clears hT (fun _ => hbool) test).bind fun _ => ?_
      refine (visit_clears hT (fun _ _ hc => by cases hc) thenBranch (ha.child (by simp [Expr.children]))
        fun ⟨⟨hp, _⟩, _⟩ => (hk hp).2.1.2).bind fun a => ?_
      refine (visit_clears hT (fun _ _ hc => by cases hc) elseBranch (ha.child (by simp [Expr.children]))
        fun ⟨⟨⟨hp, _⟩, _⟩, _⟩ => (hk hp).2.2).bind fun b => ?_
      exact .pure fun ⟨⟨_, hthen⟩, helse⟩ => hthen.merge helse
  | .letIn _ bindings body, ha, hk => by
      simp only [ofExpr, accepts_append] at hk
      refine (visitBindings_clears hT bindings (fun b hb e he => ha.child ?_)
        fun hp => (hk hp).1).bind fun scope => ?_
      · exact List.mem_append_left _ (List.mem_filterMap.mpr ⟨b, hb, he⟩)
      · exact visit_clears hT (fun ⟨hp, _⟩ => hr hp) body (ha.child (by simp [Expr.children]))
          fun ⟨hp, hscope⟩ => hscope ▸ (hk hp).2
  | .caseOf _ scrutinee arms, ha, hk => by
      simp only [ofExpr, accepts_append] at hk
      refine (visit_clears hT (fun _ _ hc => by cases hc) scrutinee (ha.child List.mem_cons_self)
        fun hp => (hk hp).1).bind fun _ => ?_
      refine visitArms_clears hT arms (fun b hb => ha.child ?_) (fun ⟨hp, _⟩ => (hk hp).2) (fun _ => rfl)
        fun _ => Or.inr ha.here
      exact List.mem_cons_of_mem _ (List.mem_map_of_mem hb)
  | .dispatch span receiver method args, ha, hk => by
      simp only [ofExpr, accepts_append] at hk
      have hargs : ∀ e ∈ args, e.Everywhere Expr.HasArms := fun e he => ha.child (List.mem_append_right _ he)
      refine (visitReceiver_clears hT receiver (fun e he => ha.child ?_) fun hp => (hk hp).1).bind
        fun found => ?_
      · exact List.mem_append_left _ (Option.mem_toList.mpr he)
      refine .ite (fun _ => ?_) fun hempty => ?_
      · refine (report_clears _ _).bind fun _ => ?_
        refine (visitAll_clears hT args hargs fun ⟨⟨hp, _⟩, _⟩ => (hk hp).2).bind fun _ => ?_
        exact everything_clears
      obtain ⟨hne, hresults⟩ := fits_clear hempty
      refine (narrowReceiver_clears hT (fun _ => ⟨hne, rfl⟩) receiver).bind fun _ => ?_
      split
      · refine Clears.get.bind fun _ => (visitArgs_clears hT _ args hargs
          fun ⟨⟨⟨hp, _⟩, _⟩, _⟩ => (hk hp).2).bind fun _ => ?_
        exact Clears.get.bind fun _ => .pure fun ⟨_, hs, _⟩ => hresults hs
      · refine Clears.get.bind fun _ => (visitAll_clears hT args hargs
          fun ⟨⟨⟨hp, _⟩, _⟩, _⟩ => (hk hp).2).bind fun _ => ?_
        exact .pure fun ⟨⟨_, hs, _⟩, _⟩ => hresults hs
  | .staticDispatch span receiver ancestor method args, ha, hk => by
      simp only [ofExpr, accepts_append] at hk
      have hargs : ∀ e ∈ args, e.Everywhere Expr.HasArms := fun e he => ha.child (List.mem_cons_of_mem _ he)
      refine (visit_clears hT (fun _ _ hc => by cases hc) receiver (ha.child List.mem_cons_self)
        fun hp => (hk hp).1).bind fun found => ?_
      dsimp only
      split
      · refine (report_clears _ _).bind fun _ => ?_
        refine (visitAll_clears hT args hargs fun ⟨⟨hp, _⟩, _⟩ => (hk hp).2).bind fun _ => ?_
        exact everything_clears
      · refine Clears.get.bind fun _ => (visitArgs_clears hT _ args hargs
          fun ⟨⟨hp, _⟩, _⟩ => (hk hp).2).bind fun _ => ?_
        refine .ite (fun _ => .pure fun ⟨⟨⟨_, hfound⟩, _⟩, _⟩ => hfound) fun _ => ?_
        exact Clears.get.bind fun _ => .pure fun ⟨_, hs, _⟩ => resultOf_clear hs _ _ _ _

theorem visitReceiver_clears (hT : T.Single) {pre : Prop} {bag : BagId} {method : String} {argCount : Nat}
    {span : Span} : (receiver : Option Expr) → (∀ e ∈ receiver, e.Everywhere Expr.HasArms) →
      (pre → Accepts Γ T (ofReceiver T bag method argCount span receiver)) →
      Clears T pre (visitReceiver Γ bag receiver) Clear
  | some e, ha, hk => visit_clears hT (fun _ _ hc => by cases hc) e (ha e rfl) fun hp =>
      (accepts_cons.mp (hk hp)).2
  | none, _, _ => .pure fun _ => clear_single _

theorem visitAll_clears (hT : T.Single) {pre : Prop} {bag : BagId} :
    (es : List Expr) → (∀ e ∈ es, e.Everywhere Expr.HasArms) → (pre → Accepts Γ T (ofExprs T bag es)) →
      Clears T pre (visitAll Γ bag es) (fun _ => True)
  | [], _, _ => .pure fun _ => trivial
  | e :: es, ha, hk => by
      simp only [ofExprs, accepts_append] at hk
      obtain ⟨ha, has⟩ := List.forall_mem_cons.mp ha
      refine (visit_clears hT (fun _ _ hc => by cases hc) e ha fun hp => (hk hp).1).bind fun _ => ?_
      exact visitAll_clears hT es has fun ⟨hp, _⟩ => (hk hp).2

theorem visitBlock_clears (hT : T.Single) {pre : Prop} {bag : BagId} {restriction : Option Candidates}
    (hr : pre → ∀ c ∈ restriction, c.Clear) : (es : List Expr) → (∀ e ∈ es, e.Everywhere Expr.HasArms) →
      (pre → Accepts Γ T (ofExprs T bag es)) → Clears T pre (visitBlock Γ bag restriction es) Clear
  | [], _, _ => .pure fun _ => clear_single _
  | [e], ha, hk => by
      simp only [ofExprs, accepts_append] at hk
      refine (visit_clears hT hr e (ha e List.mem_cons_self) fun hp => (hk hp).1).bind fun _ => ?_
      refine (narrowTo_clears hT (fun ⟨hp, _⟩ => hr hp) e).bind fun _ => ?_
      exact .pure fun ⟨⟨_, hfound⟩, _⟩ => hfound
  | e :: e' :: es, ha, hk => by
      rw [ofExprs] at hk
      simp only [accepts_append] at hk
      obtain ⟨ha, has⟩ := List.forall_mem_cons.mp ha
      refine (visit_clears hT (fun _ _ hc => by cases hc) e ha fun hp => (hk hp).1).bind fun _ => ?_
      exact visitBlock_clears hT (fun ⟨hp, _⟩ => hr hp) (e' :: es) has fun ⟨hp, _⟩ => (hk hp).2

theorem visitArgs_clears (hT : T.Single) {pre : Prop} {bag : BagId} {methodBag : Option BagId} :
    (params : List (String × TypeName)) → (es : List Expr) → (∀ e ∈ es, e.Everywhere Expr.HasArms) →
      (pre → Accepts Γ T (ofExprs T bag es)) →
      Clears T pre (visitArgs Γ bag methodBag params es) (fun _ => True)
  | _, [], _, _ => by unfold visitArgs; exact .pure fun _ => trivial
  | [], _ :: _, _, _ => .pure fun _ => trivial
  | param :: params, e :: es, ha, hk => by
      simp only [ofExprs, accepts_append] at hk
      obtain ⟨ha, has⟩ := List.forall_mem_cons.mp ha
      refine (paramTypes_clears _ _).bind fun types => ?_
      refine (visit_clears hT (fun ⟨_, htypes⟩ => clear_of_mem_some htypes) e ha
        fun ⟨hp, _⟩ => (hk hp).1).bind fun found => ?_
      refine (narrowParam_clears hT (fun h => h.2) _ _).bind fun _ => ?_
      refine (narrowVar_clears hT (fun ⟨⟨⟨_, htypes⟩, _⟩, _⟩ => htypes) e).bind fun _ => ?_
      exact visitArgs_clears hT params es has fun ⟨⟨⟨⟨hp, _⟩, _⟩, _⟩, _⟩ => (hk hp).2

theorem visitInit_clears (hT : T.Single) {pre : Prop} {bag inner : BagId} {name : String} :
    (init : Option Expr) → (∀ e ∈ init, e.Everywhere Expr.HasArms) →
      (pre → Accepts Γ T (ofInit T bag inner name init)) →
      Clears T pre (visitInit Γ bag inner name init) (fun _ => True)
  | some e, ha, hk => by
      simp only [ofInit, accepts_cons] at hk
      refine (visit_clears hT (fun _ _ hc => by cases hc) e (ha e rfl) fun hp => (hk hp).2).bind
        fun found => ?_
      exact store_clears hT (fun h => h.2) fun ⟨hp, _⟩ => (hk hp).1
  | none, _, _ => .pure fun _ => trivial

theorem visitBindings_clears (hT : T.Single) {pre : Prop} {bag : BagId} :
    (bindings : List (Binder × Option Expr)) → (∀ b ∈ bindings, ∀ e ∈ b.2, e.Everywhere Expr.HasArms) →
      (pre → Accepts Γ T (ofBindings T bag bindings)) →
      Clears T pre (visitBindings Γ bag bindings) (· = letScope T bag bindings)
  | [], _, _ => .pure fun _ => rfl
  | (b, init) :: bindings, ha, hk => by
      simp only [ofBindings, accepts_append] at hk
      obtain ⟨ha, has⟩ := List.forall_mem_cons.mp ha
      refine (scopeBag_clears b).bind fun inner => ?_
      refine (visitInit_clears hT init ha fun ⟨hp, hinner⟩ => hinner ▸ (hk hp).1).bind fun _ => ?_
      refine (visitBindings_clears hT bindings has fun ⟨⟨hp, hinner⟩, _⟩ => hinner ▸ (hk hp).2).mono ?_
      rintro ⟨⟨_, rfl⟩, _⟩ scope rfl
      rfl

theorem visitArms_clears (hT : T.Single) {pre : Prop} {bag : BagId} {acc : Candidates} :
    (arms : List (Binder × Expr)) → (∀ a ∈ arms, a.2.Everywhere Expr.HasArms) →
      (pre → Accepts Γ T (ofArms T bag arms)) → (pre → acc.ambiguous = false) →
      (pre → (∃ t, t ∈ acc.types) ∨ arms ≠ []) → Clears T pre (visitArms Γ bag acc arms) Clear
  | [], _, _, hacc, hne => .pure fun hp => ⟨(hne hp).resolve_right fun h => h rfl, hacc hp⟩
  | (b, body) :: arms, ha, hk, hacc, _ => by
      simp only [ofArms, accepts_append] at hk
      obtain ⟨ha, has⟩ := List.forall_mem_cons.mp ha
      refine (scopeBag_clears b).bind fun inner => ?_
      refine (visit_clears hT (fun _ _ hc => by cases hc) body ha
        fun ⟨hp, hinner⟩ => hinner ▸ (hk hp).1).bind fun found => ?_
      refine visitArms_clears hT arms has (fun ⟨⟨hp, _⟩, _⟩ => (hk hp).2)
        (fun ⟨⟨hp, _⟩, hfound⟩ => ?_) fun ⟨_, hfound⟩ => Or.inl ?_
      · simp [Candidates.union, hacc hp, hfound.unambiguous]
      · exact hfound.nonempty.imp fun t ht => TypeSet.mem_union.mpr (Or.inr ht)

end

/-! ## Classes -/

theorem feature_clears (hT : T.Single) (f : Feature) (ha : ∀ e ∈ f.expr?, e.Everywhere Expr.HasArms)
    (hk : pre → Accepts Γ T (ofFeature T bag f)) : Clears T pre (feature Γ bag f) (fun _ => True) := by
  cases f with
  | attr a => exact visitInit_clears hT a.init ha hk
  | method m =>
      refine Clears.get.bind fun s => ?_
      cases hbag : s.tree.bagOf? m.id with
      | none => exact .pure fun _ => trivial
      | some inner =>
          have hk : pre ∧ s.tree.Clear ∧ s.tree.LeadsTo T →
              (flow inner m.body inner (.result m.name)).Acceptable
              Γ.context T ∧ Accepts Γ T (ofExpr T inner m.body) := by
            rintro ⟨hp, _, hlead⟩
            have hk := hk hp
            rw [ofFeature, hlead.bagOf?, hbag] at hk
            exact accepts_cons.mp hk
          refine (visit_clears hT (fun _ _ hc => by cases hc) m.body (ha _ rfl) fun hp => (hk hp).2).bind
            fun found => ?_
          exact store_clears hT (fun h => h.2) fun h => (hk h.1).1

theorem classDecl_clears (hT : T.Single) {ctx : Context} {c : ClassDecl}
    (ha : ∀ f ∈ c.features, ∀ e ∈ f.expr?, e.Everywhere Expr.HasArms)
    (hk : Accepts ⟨ctx, c.name⟩ T (ofClass T c)) : Clears T True (classDecl ctx c) (fun _ => True) := by
  refine Clears.get.bind fun s => ?_
  cases hbag : s.tree.bagOf? c.id with
  | none => exact .pure fun _ => trivial
  | some bag =>
      refine .forM fun f hf => feature_clears hT f (ha f hf) fun ⟨_, _, hlead⟩ k hkf => ?_
      rw [ofClass, hlead.bagOf?, hbag] at hk
      exact hk k (List.mem_flatMap.mpr ⟨f, hf, hkf⟩)

end Sweep

namespace ClassTable

variable {t : ClassTable} {T : BagTree}

theorem sweep_clears (hT : T.Single)
    (ha : ∀ c ∈ t.classes, ∀ f ∈ c.features, ∀ e ∈ f.expr?, e.Everywhere Expr.HasArms)
    (hk : ∀ k ∈ t.constraints T, k.Acceptable t.context T) (u : BagTree) :
    u.LeadsTo (t.sweep u).1 ∧ (u.Clear → (t.sweep u).1.LeadsTo T → (t.sweep u).1.Clear) := by
  have hall : Sweep.Clears T True (t.classes.forM (Sweep.classDecl t.context)) (fun _ => True) :=
    .forM fun c hc => Sweep.classDecl_clears hT (ha c hc) fun k hkc => hk k (List.mem_flatMap.mpr ⟨c, hc, hkc⟩)
  exact ⟨hall.leads ⟨u, []⟩, fun hu hlead => (hall.clear trivial ⟨u, []⟩ hu hlead).1⟩

/-- Sweeps that end with one candidate for every open entry, and with values that fit their places, have met
no conflict. -/
theorem swept_clear (hT : T.Single)
    (ha : ∀ c ∈ t.classes, ∀ f ∈ c.features, ∀ e ∈ f.expr?, e.Everywhere Expr.HasArms)
    (hk : ∀ k ∈ t.constraints T, k.Acceptable t.context T) (n : Nat) :
    ∀ u, t.swept n u = T → u.LeadsTo T ∧ (u.Clear → T.Clear) := by
  induction n with
  | zero =>
      rintro u rfl
      exact ⟨.refl u, id⟩
  | succ n ih =>
      intro u hu
      obtain ⟨hlead, hclear⟩ := ih (t.sweep u).1 hu
      obtain ⟨hsweep, hswept⟩ := sweep_clears hT ha hk u
      exact ⟨hsweep.trans hlead, fun h => hclear (hswept h hlead)⟩

end ClassTable

end CoolTyping
