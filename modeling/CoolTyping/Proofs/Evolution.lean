import CoolTyping.Bag.Tree
import Mathlib.Data.List.Forall2
import Mathlib.Data.List.Perm.Subperm

/-!
# How bags evolve

The order in which the states of an entry follow each other: candidates are lost up to a conflict,
the conflict is never taken back, and candidates are gained from then on. It extends to bags and to
trees entry by entry, with everything but the entries fixed. The order is antisymmetric even for
lists of candidates, so a run that returns to where it started has changed nothing on its way.
-/

namespace CoolTyping

/-! ## Sets of types -/

namespace TypeSet

variable {s u : TypeSet}

theorem ext_toList (h : s.toList = u.toList) : s = u := by
  cases s; cases u; cases h; rfl

theorem isEmpty_iff : s.isEmpty = true ↔ s.toList = [] := List.isEmpty_iff

theorem isPrefix_insert (s : TypeSet) (t : TypeName) : s.toList <+: (s.insert t).toList := by
  unfold insert
  split
  · exact List.prefix_refl _
  · exact List.prefix_append _ _

theorem isPrefix_insertAll (s : TypeSet) (ts : List TypeName) :
    s.toList <+: (s.insertAll ts).toList := by
  induction ts generalizing s with
  | nil => exact List.prefix_refl _
  | cons t ts ih => exact (isPrefix_insert s t).trans (ih (s.insert t))

theorem isPrefix_union (s u : TypeSet) : s.toList <+: (s.union u).toList := isPrefix_insertAll s u.toList

theorem inter_sublist (s u : TypeSet) : (s.inter u).toList.Sublist s.toList :=
  List.filter_sublist

theorem inter_inter_right (s u : TypeSet) : (s.inter u).inter u = s.inter u :=
  ext_toList (List.filter_eq_self.mpr fun _ ht => (List.mem_filter.mp ht).2)

/-- Sets without repetition have as many members as each other if they have the same ones. -/
theorem length_eq_of_same (h : s.same u = true) : s.toList.length = u.toList.length :=
  ((List.perm_ext_iff_of_nodup s.nodup u.nodup).mpr (same_iff.mp h)).length_eq

theorem size_le_of_subset {ts : List TypeName} (h : ∀ t ∈ s, t ∈ ts) : s.size ≤ ts.length :=
  (List.subperm_of_subset s.nodup h).length_le

theorem toList_insertAll {ts : List TypeName} (h : (s.toList ++ ts).Nodup) :
    (s.insertAll ts).toList = s.toList ++ ts := by
  induction ts generalizing s with
  | nil => exact (List.append_nil _).symm
  | cons t ts ih =>
      have hfresh : s.contains t = false := by
        rw [List.nodup_append] at h
        simpa [contains] using fun ht => h.2.2 t ht t List.mem_cons_self rfl
      have hinsert : (s.insert t).toList = s.toList ++ [t] := by simp [insert, hfresh]
      have hnext := ih (s := s.insert t) (by rwa [hinsert, List.append_assoc])
      rw [hinsert, List.append_assoc] at hnext
      exact hnext

theorem toList_ofList {ts : List TypeName} (h : ts.Nodup) : (ofList ts).toList = ts :=
  toList_insertAll (s := empty) h

end TypeSet

/-! ## Entries -/

namespace Entry

/-- The entry `e` may turn into `f`, by any number of uses. -/
structure EvolvesTo (e f : Entry) : Prop where
  locked : f.locked = e.locked
  span : f.span = e.span
  /-- A declared type stays. -/
  fixed : e.locked = true → f = e
  /-- There is always a candidate left. -/
  nonempty : e.candidates.toList ≠ [] → f.candidates.toList ≠ []
  /-- Without a conflict, candidates are only lost. -/
  shrinks : f.ambiguous = false →
    e.ambiguous = false ∧ f.candidates.toList.Sublist e.candidates.toList
  /-- A conflict stays, and candidates are only gained. -/
  grows : e.ambiguous = true → f.ambiguous = true ∧ e.candidates.toList <+: f.candidates.toList

namespace EvolvesTo

variable {e f g : Entry}

theorem refl (e : Entry) : e.EvolvesTo e where
  locked := rfl
  span := rfl
  fixed _ := rfl
  nonempty h := h
  shrinks h := ⟨h, List.Sublist.refl _⟩
  grows h := ⟨h, List.prefix_refl _⟩

theorem trans (h : e.EvolvesTo f) (h' : f.EvolvesTo g) : e.EvolvesTo g where
  locked := h'.locked.trans h.locked
  span := h'.span.trans h.span
  fixed hl := by rw [h'.fixed (h.locked.trans hl), h.fixed hl]
  nonempty hne := h'.nonempty (h.nonempty hne)
  shrinks ha := by
    obtain ⟨hf, hs'⟩ := h'.shrinks ha
    obtain ⟨he, hs⟩ := h.shrinks hf
    exact ⟨he, hs'.trans hs⟩
  grows ha := by
    obtain ⟨hf, hs⟩ := h.grows ha
    obtain ⟨hg, hs'⟩ := h'.grows hf
    exact ⟨hg, hs.trans hs'⟩

/-- Only the candidates and the conflict can tell two states of an entry apart. -/
theorem eq_of (h : e.EvolvesTo f) (ha : f.ambiguous = e.ambiguous)
    (hc : f.candidates.toList = e.candidates.toList) : f = e := by
  obtain ⟨ec, el, ea, es⟩ := e
  obtain ⟨fc, fl, fa, fs⟩ := f
  cases TypeSet.ext_toList hc
  cases ha
  cases h.locked
  cases h.span
  rfl

theorem antisymm (h : e.EvolvesTo f) (h' : f.EvolvesTo e) : f = e := by
  cases hf : f.ambiguous with
  | false =>
      obtain ⟨he, hs⟩ := h.shrinks hf
      obtain ⟨_, hs'⟩ := h'.shrinks he
      exact h.eq_of (hf.trans he.symm) (hs.antisymm hs')
  | true =>
      obtain ⟨he, hs'⟩ := h'.grows hf
      obtain ⟨_, hs⟩ := h.grows he
      exact h.eq_of (hf.trans he.symm) (hs'.sublist.antisymm hs.sublist)

/-- The order of the candidates cannot change unless the set or the conflict does. -/
theorem eq_of_same (h : e.EvolvesTo f) (hs : f.same e = true) : f = e := by
  simp only [same, Bool.and_eq_true, beq_iff_eq] at hs
  obtain ⟨⟨⟨hc, _⟩, ha⟩, _⟩ := hs
  have hlen := TypeSet.length_eq_of_same hc
  refine h.eq_of ha ?_
  cases hf : f.ambiguous with
  | false => exact (h.shrinks hf).2.eq_of_length hlen
  | true => exact ((h.grows (ha.symm.trans hf)).2.eq_of_length hlen.symm).symm

/-- An entry that is not left as it is loses candidates, comes to a conflict, or gains candidates. -/
theorem size_cases (h : e.EvolvesTo f) : f = e ∨
    e.ambiguous = false ∧ f.ambiguous = false ∧ f.candidates.size < e.candidates.size ∨
    e.ambiguous = false ∧ f.ambiguous = true ∨
    e.ambiguous = true ∧ f.ambiguous = true ∧ e.candidates.size < f.candidates.size := by
  cases hf : f.ambiguous with
  | false =>
      obtain ⟨he, hsub⟩ := h.shrinks hf
      rcases Nat.lt_or_eq_of_le hsub.length_le with hlt | heq
      · exact Or.inr (Or.inl ⟨he, rfl, hlt⟩)
      · exact Or.inl (h.eq_of (hf.trans he.symm) (hsub.eq_of_length heq))
  | true =>
      cases he : e.ambiguous with
      | false => exact Or.inr (Or.inr (Or.inl ⟨rfl, rfl⟩))
      | true =>
          have hpre := (h.grows he).2
          rcases Nat.lt_or_eq_of_le hpre.length_le with hlt | heq
          · exact Or.inr (Or.inr (Or.inr ⟨rfl, rfl, hlt⟩))
          · exact Or.inl (h.eq_of (hf.trans he.symm) (hpre.eq_of_length heq).symm)

end EvolvesTo

theorem same_refl (e : Entry) : e.same e = true := by
  simp [same, TypeSet.same_iff]

/-- All that one use can do to an entry. -/
theorem narrow_cases (e : Entry) (incoming : Candidates) :
    e.locked = true ∧ e.narrow incoming = e ∨
    e.locked = false ∧ (e.ambiguous = true ∨ (e.candidates.inter incoming.types).toList = []) ∧
      e.narrow incoming =
        { e with candidates := e.candidates.union incoming.types, ambiguous := true } ∨
    e.locked = false ∧ e.ambiguous = false ∧ (e.candidates.inter incoming.types).toList ≠ [] ∧
      (incoming.ambiguous = true ∧
          e.narrow incoming = { e with candidates := incoming.types, ambiguous := true } ∨
        incoming.ambiguous = false ∧
          e.narrow incoming = { e with candidates := e.candidates.inter incoming.types }) := by
  obtain ⟨candidates, locked, ambiguous, span⟩ := e
  cases locked with
  | true => exact Or.inl ⟨rfl, by simp [narrow]⟩
  | false =>
      refine Or.inr ?_
      by_cases hc : (candidates.inter incoming.types).toList = []
      · exact Or.inl ⟨rfl, Or.inr hc, by simp [narrow, TypeSet.isEmpty_iff, hc]⟩
      · cases ambiguous with
        | true => exact Or.inl ⟨rfl, Or.inl rfl, by simp [narrow, TypeSet.isEmpty_iff, hc]⟩
        | false =>
            refine Or.inr ⟨rfl, rfl, hc, ?_⟩
            cases ha : incoming.ambiguous with
            | true => exact Or.inl ⟨rfl, by simp [narrow, TypeSet.isEmpty_iff, hc, ha]⟩
            | false => exact Or.inr ⟨rfl, by simp [narrow, TypeSet.isEmpty_iff, hc, ha]⟩

/-- Taking account of one use is a step of the order. -/
theorem evolvesTo_narrow (e : Entry) (incoming : Candidates) : e.EvolvesTo (e.narrow incoming) := by
  rcases narrow_cases e incoming with
    ⟨_, h⟩ | ⟨hl, _, h⟩ | ⟨hl, ha, hc, ⟨_, h⟩ | ⟨_, h⟩⟩ <;> rw [h]
  · exact .refl e
  · refine ⟨rfl, rfl, fun h => by simp [hl] at h, fun hne hnil => ?_, fun h => by simp at h,
      fun _ => ⟨rfl, TypeSet.isPrefix_union _ _⟩⟩
    exact hne (List.prefix_nil.mp (hnil ▸ TypeSet.isPrefix_union _ _))
  · refine ⟨rfl, rfl, fun h => by simp [hl] at h, fun _ hnil => hc ?_, fun h => by simp at h,
      fun h => by simp [ha] at h⟩
    -- what the two have in common is also among the new candidates
    have hnil : incoming.types.toList = [] := hnil
    rw [List.eq_nil_iff_forall_not_mem]
    intro t ht
    have hmem : t ∈ incoming.types.toList := (TypeSet.mem_inter.mp ht).2
    rw [hnil] at hmem
    cases hmem
  · exact ⟨rfl, rfl, fun h => by simp [hl] at h, fun _ => hc,
      fun _ => ⟨ha, TypeSet.inter_sublist _ _⟩, fun h => by simp [ha] at h⟩

/-- Narrowing brings in no type that is neither held nor incoming. -/
theorem mem_narrow {e : Entry} {incoming : Candidates} {t : TypeName}
    (ht : t ∈ (e.narrow incoming).candidates) : t ∈ e.candidates ∨ t ∈ incoming.types := by
  rcases narrow_cases e incoming with
    ⟨_, h⟩ | ⟨_, _, h⟩ | ⟨_, _, _, ⟨_, h⟩ | ⟨_, h⟩⟩ <;> rw [h] at ht
  · exact Or.inl ht
  · exact TypeSet.mem_union.mp ht
  · exact Or.inr ht
  · exact Or.inl (TypeSet.mem_inter.mp ht).1

end Entry

/-! ## Bags -/

section Pointwise

variable {α : Type} {R : α → α → Prop} {as bs cs : List α}

theorem pointwise_trans (hR : ∀ a b c, R a b → R b c → R a c) (h : List.Forall₂ R as bs)
    (h' : List.Forall₂ R bs cs) : List.Forall₂ R as cs := by
  induction h generalizing cs with
  | nil => exact h'
  | cons hab _ ih =>
      obtain ⟨c, cs', hbc, htail, rfl⟩ := List.forall₂_cons_left_iff.mp h'
      exact .cons (hR _ _ _ hab hbc) (ih htail)

theorem pointwise_antisymm (hR : ∀ a b, R a b → R b a → b = a) (h : List.Forall₂ R as bs)
    (h' : List.Forall₂ R bs as) : bs = as := by
  induction h with
  | nil => rfl
  | cons hab _ ih =>
      obtain ⟨hba, htail⟩ := List.forall₂_cons.mp h'
      rw [hR _ _ hab hba, ih htail]

theorem pointwise_eq (h : List.Forall₂ R as bs) (heq : ∀ a ∈ as, ∀ b, R a b → b = a) : bs = as := by
  induction h with
  | nil => rfl
  | cons hab _ ih =>
      rw [heq _ List.mem_cons_self _ hab, ih fun a ha => heq a (List.mem_cons_of_mem _ ha)]

theorem forall₂_map_eq {β γ : Type} {R : α → β → Prop} {bs : List β} {f : α → γ} {g : β → γ}
    (h : List.Forall₂ R as bs) (hR : ∀ a b, R a b → f a = g b) : as.map f = bs.map g := by
  induction h with
  | nil => rfl
  | cons hab _ ih => rw [List.map_cons, List.map_cons, hR _ _ hab, ih]

theorem pointwise_map {γ : Type} {f : α → γ} (hf : ∀ a b, R a b → f b = f a)
    (h : List.Forall₂ R as bs) : bs.map f = as.map f :=
  (forall₂_map_eq h fun a b hab => (hf a b hab).symm).symm

theorem forall₂_mem_left {β : Type} {R : α → β → Prop} {bs : List β} (h : List.Forall₂ R as bs) {a : α}
    (ha : a ∈ as) : ∃ b ∈ bs, R a b := by
  induction h with
  | nil => cases ha
  | @cons a' b _ _ hab _ ih =>
      rcases List.mem_cons.mp ha with rfl | ha
      · exact ⟨b, List.mem_cons_self, hab⟩
      · obtain ⟨b, hb, hR⟩ := ih ha
        exact ⟨b, List.mem_cons_of_mem _ hb, hR⟩

theorem forall₂_mem_right {β : Type} {R : α → β → Prop} {bs : List β} (h : List.Forall₂ R as bs) {b : β}
    (hb : b ∈ bs) : ∃ a ∈ as, R a b :=
  forall₂_mem_left (List.Forall₂.flip (R := flip R) h) hb

theorem pointwise_modify (hR : ∀ a, R a a) {f : α → α} (hf : ∀ a, R a (f a)) (as : List α) (i : Nat) :
    List.Forall₂ R as (as.modify i f) := by
  induction as generalizing i with
  | nil => simp
  | cons a as ih =>
      cases i with
      | zero => exact .cons (hf a) (List.forall₂_same.mpr fun b _ => hR b)
      | succ i => exact .cons (hR a) (ih i)

theorem pointwise_getElem? (h : List.Forall₂ R as bs) (i : Nat) :
    as[i]? = none ∧ bs[i]? = none ∨ ∃ a b, as[i]? = some a ∧ bs[i]? = some b ∧ R a b := by
  induction h generalizing i with
  | nil => exact Or.inl ⟨rfl, rfl⟩
  | cons hab _ ih =>
      cases i with
      | zero => exact Or.inr ⟨_, _, rfl, rfl, hab⟩
      | succ i => exact ih i

theorem pointwise_lastIdx? {p : α → Bool} (hp : ∀ a b, R a b → p b = p a)
    (h : List.Forall₂ R as bs) : lastIdx? p bs = lastIdx? p as := by
  induction h with
  | nil => rfl
  | cons hab _ ih => simp only [lastIdx?, ih, hp _ _ hab]

theorem mem_of_mem_modify {f : α → α} {i : Nat} {b : α} (h : b ∈ as.modify i f) :
    b ∈ as ∨ ∃ a ∈ as, b = f a := by
  obtain ⟨j, hj⟩ := List.mem_iff_getElem?.mp h
  rw [List.getElem?_modify] at hj
  obtain ⟨a, ha, rfl⟩ := Option.map_eq_some_iff.mp hj
  have hmem := List.mem_of_getElem? ha
  split
  · exact Or.inr ⟨a, hmem, rfl⟩
  · exact Or.inl hmem

end Pointwise

/-- A slot with its entry, before and after. -/
def SlotEvolves (x y : Slot × Entry) : Prop := y.1 = x.1 ∧ x.2.EvolvesTo y.2

theorem SlotEvolves.refl (x : Slot × Entry) : SlotEvolves x x := ⟨rfl, .refl x.2⟩

namespace Bag

/-- The entries evolve, and all else stays. -/
structure EvolvesTo (a b : Bag) : Prop where
  owner : b.owner = a.owner
  kind : b.kind = a.kind
  inClass : b.inClass = a.inClass
  parent : b.parent = a.parent
  entries : List.Forall₂ SlotEvolves a.entries.toList b.entries.toList

namespace EvolvesTo

variable {a b c : Bag}

theorem refl (a : Bag) : a.EvolvesTo a :=
  ⟨rfl, rfl, rfl, rfl, List.forall₂_same.mpr fun x _ => SlotEvolves.refl x⟩

theorem trans (h : a.EvolvesTo b) (h' : b.EvolvesTo c) : a.EvolvesTo c where
  owner := h'.owner.trans h.owner
  kind := h'.kind.trans h.kind
  inClass := h'.inClass.trans h.inClass
  parent := h'.parent.trans h.parent
  entries := pointwise_trans (fun _ _ _ h h' => ⟨h'.1.trans h.1, h.2.trans h'.2⟩) h.entries h'.entries

theorem eq_of (h : a.EvolvesTo b) (he : b.entries.toList = a.entries.toList) : b = a := by
  obtain ⟨ao, ak, ac, ap, ⟨al, ad⟩⟩ := a
  obtain ⟨bo, bk, bc, bp, ⟨bl, bd⟩⟩ := b
  cases h.owner
  cases h.kind
  cases h.inClass
  cases h.parent
  cases he
  rfl

theorem antisymm (h : a.EvolvesTo b) (h' : b.EvolvesTo a) : b = a :=
  h.eq_of (pointwise_antisymm (fun _ _ h h' => Prod.ext h.1 (h.2.antisymm h'.2)) h.entries h'.entries)

/-- The slots stand in their order. -/
theorem slots (h : a.EvolvesTo b) : b.entries.slots = a.entries.slots :=
  pointwise_map (fun _ _ hxy => hxy.1) h.entries

theorem eq_of_same (h : a.EvolvesTo b) (hs : b.same a = true) : b = a := by
  simp only [Bag.same, Entries.same, Bool.and_eq_true] at hs
  refine h.eq_of ?_
  have hall := hs.2.2
  have hentries := h.entries
  revert hall hentries
  generalize a.entries.toList = as, b.entries.toList = bs
  intro hall hentries
  induction hentries with
  | nil => rfl
  | cons hxy _ ih =>
      simp only [List.zip_cons_cons, List.all_cons, Bool.and_eq_true] at hall
      rw [ih hall.2, Prod.ext hxy.1 (hxy.2.eq_of_same hall.1)]

theorem get? (h : a.EvolvesTo b) (slot : Slot) :
    a.entries.get? slot = none ∧ b.entries.get? slot = none ∨
      ∃ e f, a.entries.get? slot = some e ∧ b.entries.get? slot = some f ∧ e.EvolvesTo f := by
  have hentries := h.entries
  unfold Entries.get?
  revert hentries
  generalize a.entries.toList = as, b.entries.toList = bs
  intro hentries
  induction hentries with
  | nil => exact Or.inl ⟨rfl, rfl⟩
  | @cons x y as bs hxy _ ih =>
      obtain ⟨s, e⟩ := x
      obtain ⟨s', f⟩ := y
      obtain ⟨rfl, hef⟩ := hxy
      by_cases hs : slot = s'
      · subst hs
        exact Or.inr ⟨e, f, by simp, by simp, hef⟩
      · have hne : (slot == s') = false := by simp [hs]
        simpa [List.lookup_cons, hne] using ih

end EvolvesTo

end Bag

/-! ## Trees -/

namespace BagTree

structure EvolvesTo (t u : BagTree) : Prop where
  concrete : u.concrete = t.concrete
  bags : List.Forall₂ Bag.EvolvesTo t.bags u.bags

namespace EvolvesTo

variable {t u v : BagTree}

theorem refl (t : BagTree) : t.EvolvesTo t :=
  ⟨rfl, List.forall₂_same.mpr fun b _ => .refl b⟩

theorem trans (h : t.EvolvesTo u) (h' : u.EvolvesTo v) : t.EvolvesTo v :=
  ⟨h'.concrete.trans h.concrete, pointwise_trans (fun _ _ _ => Bag.EvolvesTo.trans) h.bags h'.bags⟩

theorem eq_of (h : t.EvolvesTo u) (hb : u.bags = t.bags) : u = t := by
  obtain ⟨tb, tc⟩ := t
  obtain ⟨ub, uc⟩ := u
  cases h.concrete
  cases hb
  rfl

theorem antisymm (h : t.EvolvesTo u) (h' : u.EvolvesTo t) : u = t :=
  h.eq_of (pointwise_antisymm (fun _ _ => Bag.EvolvesTo.antisymm) h.bags h'.bags)

/-- A tree between two equal ones is equal to them. -/
theorem eq_of_between (h : t.EvolvesTo u) (h' : u.EvolvesTo v) (hv : v = t) : u = t :=
  h.antisymm (hv ▸ h')

theorem eq_of_same (h : t.EvolvesTo u) (hs : u.same t = true) : u = t := by
  simp only [BagTree.same, Bool.and_eq_true] at hs
  refine h.eq_of ?_
  have hall := hs.2
  have hbags := h.bags
  revert hall hbags
  generalize t.bags = as, u.bags = bs
  intro hall hbags
  induction hbags with
  | nil => rfl
  | cons hab _ ih =>
      simp only [List.zip_cons_cons, List.all_cons, Bool.and_eq_true] at hall
      rw [ih hall.2, hab.eq_of_same hall.1]

/-! What does not depend on the candidates stays. -/

theorem bagOf? (h : t.EvolvesTo u) (owner : NodeId) : u.bagOf? owner = t.bagOf? owner :=
  pointwise_lastIdx? (fun _ _ hab => by rw [hab.owner]) h.bags

theorem classBag? (h : t.EvolvesTo u) (name : TypeName) : u.classBag? name = t.classBag? name :=
  pointwise_lastIdx? (fun _ _ hab => by rw [hab.kind, hab.inClass]) h.bags

theorem methodBag? (h : t.EvolvesTo u) (owner : TypeName) (method : String) :
    u.methodBag? owner method = t.methodBag? owner method :=
  pointwise_lastIdx? (fun _ _ hab => by rw [hab.kind, hab.inClass]) h.bags

theorem has (h : t.EvolvesTo u) (i : BagId) (slot : Slot) : u.has i slot = t.has i slot := by
  unfold BagTree.has
  rcases pointwise_getElem? h.bags i with ⟨ht, hu⟩ | ⟨a, b, ht, hu, hab⟩
  · rw [ht, hu]
  · rw [ht, hu]
    simp only [Option.any_some, Entries.contains, hab.slots]

theorem entryAt?_eq_some (h : t.EvolvesTo u) {i : BagId} {slot : Slot} {e : Entry}
    (he : t.entryAt? i slot = some e) : ∃ f, u.entryAt? i slot = some f ∧ e.EvolvesTo f := by
  unfold BagTree.entryAt? at he ⊢
  rcases pointwise_getElem? h.bags i with ⟨ht, _⟩ | ⟨a, b, ht, hu, hab⟩
  · rw [ht] at he
    cases he
  rw [ht] at he
  rw [hu]
  rcases hab.get? slot with ⟨ha, _⟩ | ⟨e', f, ha, hb, hef⟩
  · cases ha.symm.trans he
  · obtain rfl : e' = e := Option.some.inj (ha.symm.trans he)
    exact ⟨f, hb, hef⟩

end EvolvesTo

theorem evolvesTo_narrow (t : BagTree) (ctx : Context) (i : BagId) (slot : Slot)
    (incoming : Candidates) : t.EvolvesTo (t.narrow ctx i slot incoming) := by
  unfold narrow
  cases t.resolve? ctx i slot with
  | none => exact .refl t
  | some j =>
      refine ⟨rfl, pointwise_modify .refl (fun b => ⟨rfl, rfl, rfl, rfl, ?_⟩) t.bags j⟩
      refine List.forall₂_map_right_iff.mpr (List.forall₂_same.mpr fun x _ => ⟨rfl, ?_⟩)
      obtain ⟨s, e⟩ := x
      by_cases hs : s = slot
      · simpa [hs] using e.evolvesTo_narrow incoming
      · simpa [hs] using Entry.EvolvesTo.refl e

/-! ## Types that occur in a tree -/

/-- All candidates, and all types that a placeholder may stand for, are in `P`. -/
structure Within (t : BagTree) (P : TypeName → Prop) : Prop where
  concrete : ∀ x ∈ t.concrete, P x
  entries : ∀ b ∈ t.bags, ∀ x ∈ b.entries.toList, ∀ y ∈ x.2.candidates, P y

variable {t : BagTree} {P : TypeName → Prop} {ctx : Context} {i : BagId} {slot : Slot} {e : Entry}

theorem mem_of_entryAt? (h : t.entryAt? i slot = some e) :
    ∃ b ∈ t.bags, (slot, e) ∈ b.entries.toList := by
  obtain ⟨b, hb, he⟩ := Option.bind_eq_some_iff.mp h
  obtain ⟨as, bs, hab, _⟩ := List.lookup_eq_some_iff.mp he
  exact ⟨b, List.mem_of_getElem? hb, by simp [hab]⟩

theorem Within.entryAt? (h : t.Within P) (he : t.entryAt? i slot = some e) :
    ∀ y ∈ e.candidates, P y := by
  obtain ⟨b, hb, hx⟩ := mem_of_entryAt? he
  exact h.entries b hb _ hx

theorem Within.get? (h : t.Within P) (he : t.get? ctx i slot = some e) :
    ∀ y ∈ e.candidates, P y := by
  obtain ⟨j, _, hj⟩ := Option.bind_eq_some_iff.mp he
  exact h.entryAt? hj

theorem Within.narrow (h : t.Within P) {incoming : Candidates} (hi : ∀ y ∈ incoming.types, P y) :
    (t.narrow ctx i slot incoming).Within P := by
  unfold BagTree.narrow
  cases t.resolve? ctx i slot with
  | none => exact h
  | some j =>
      refine ⟨h.concrete, fun b hb x hx y hy => ?_⟩
      rcases mem_of_mem_modify hb with hb | ⟨a, ha, rfl⟩
      · exact h.entries b hb x hx y hy
      · obtain ⟨⟨s, e⟩, he, rfl⟩ := List.mem_map.mp hx
        by_cases hs : s = slot
        · rcases Entry.mem_narrow (by simpa [hs] using hy) with hy | hy
          · exact h.entries a ha _ he y hy
          · exact hi y hy
        · exact h.entries a ha _ he y (by simpa [hs] using hy)

end BagTree

end CoolTyping
