import CoolTyping.Proofs.Constraints
import CoolTyping.Proofs.Convergence
import Mathlib.Data.Option.Defs

/-!
# Trees that differ in order only

Two bag trees are alike if they have the same bags and, whatever the order, the same entries with the same
candidates. Nothing that a sweep asks of a tree can tell two such trees apart, and narrowing keeps them alike.
-/

namespace CoolTyping

/-! ## Sets of types -/

namespace TypeSet

variable {s s' u u' : TypeSet}

/-- The same members, in whatever order. -/
def Alike (s u : TypeSet) : Prop := ∀ t, t ∈ s ↔ t ∈ u

namespace Alike

@[refl] theorem refl (s : TypeSet) : s.Alike s := fun _ => Iff.rfl

theorem symm (h : s.Alike u) : u.Alike s := fun t => (h t).symm

theorem trans (h : s.Alike u) (h' : u.Alike u') : s.Alike u' := fun t => (h t).trans (h' t)

theorem perm (h : s.Alike u) : s.toList.Perm u.toList := (List.perm_ext_iff_of_nodup s.nodup u.nodup).mpr h

theorem isEmpty (h : s.Alike u) : s.isEmpty = u.isEmpty := h.perm.isEmpty_eq

theorem any (h : s.Alike u) (p : TypeName → Bool) : s.any p = u.any p := h.perm.any_eq

theorem filter (h : s.Alike u) (p : TypeName → Bool) : (s.filter p).Alike (u.filter p) := by
  intro t
  rw [mem_filter, mem_filter, h t]

theorem inter (h : s.Alike u) (h' : s'.Alike u') : (s.inter s').Alike (u.inter u') := by
  intro t
  rw [mem_inter, mem_inter, h t, h' t]

theorem union (h : s.Alike u) (h' : s'.Alike u') : (s.union s').Alike (u.union u') := by
  intro t
  rw [mem_union, mem_union, h t, h' t]

/-- A single member leaves no choice of order. -/
theorem toList_eq_singleton_iff (h : s.Alike u) {t : TypeName} : s.toList = [t] ↔ u.toList = [t] := by
  constructor
  · intro hs
    exact List.perm_singleton.mp (hs ▸ h.perm.symm)
  · intro hu
    exact List.perm_singleton.mp (hu ▸ h.perm)

end Alike

end TypeSet

/-! ## Candidates -/

namespace Candidates

structure Alike (a b : Candidates) : Prop where
  types : a.types.Alike b.types
  ambiguous : a.ambiguous = b.ambiguous

namespace Alike

variable {a a' b b' : Candidates}

@[refl] theorem refl (a : Candidates) : a.Alike a := ⟨.refl _, rfl⟩

theorem of_types {ts us : TypeSet} (h : ts.Alike us) (ambiguous : Bool) :
    Alike ⟨ts, ambiguous⟩ ⟨us, ambiguous⟩ := ⟨h, rfl⟩

theorem union (h : a.Alike b) (h' : a'.Alike b') : (a.union a').Alike (b.union b') where
  types := h.types.union h'.types
  ambiguous := by simp [Candidates.union, h.ambiguous, h'.ambiguous]

theorem merge (h : a.Alike b) (h' : a'.Alike b') : (a.merge a').Alike (b.merge b') := by
  have hcommon := h.types.inter h'.types
  unfold Candidates.merge
  simp only [hcommon.isEmpty]
  split
  · exact h.union h'
  · exact ⟨hcommon, by simp [h.ambiguous, h'.ambiguous]⟩

end Alike

end Candidates

/-! ## Entries -/

namespace Entry

structure Alike (e f : Entry) : Prop where
  candidates : e.candidates.Alike f.candidates
  locked : e.locked = f.locked
  ambiguous : e.ambiguous = f.ambiguous
  span : e.span = f.span

namespace Alike

variable {e f g : Entry}

@[refl] theorem refl (e : Entry) : e.Alike e := ⟨.refl _, rfl, rfl, rfl⟩

theorem trans (h : e.Alike f) (h' : f.Alike g) : e.Alike g :=
  ⟨h.candidates.trans h'.candidates, h.locked.trans h'.locked, h.ambiguous.trans h'.ambiguous,
    h.span.trans h'.span⟩

theorem symm (h : e.Alike f) : f.Alike e := ⟨h.candidates.symm, h.locked.symm, h.ambiguous.symm, h.span.symm⟩

theorem snapshot (h : e.Alike f) : e.snapshot.Alike f.snapshot := ⟨h.candidates, h.ambiguous⟩

theorem narrow (h : e.Alike f) {a b : Candidates} (hab : a.Alike b) : (e.narrow a).Alike (f.narrow b) := by
  have hcommon := h.candidates.inter hab.types
  have hunion := h.candidates.union hab.types
  unfold Entry.narrow
  simp only [h.locked, hcommon.isEmpty, h.ambiguous, hab.ambiguous]
  split
  · exact h
  split
  · exact ⟨hunion, rfl, rfl, h.span⟩
  split
  · exact ⟨hunion, rfl, rfl, h.span⟩
  split
  · exact ⟨hab.types, rfl, rfl, h.span⟩
  · exact ⟨hcommon, rfl, rfl, h.span⟩

theorem same (h : e.Alike f) : e.same f = true := by
  simp [Entry.same, TypeSet.same_iff.mpr h.candidates, h.locked, h.ambiguous, h.span]

end Alike

end Entry

/-! ## Bags -/

namespace Entries

variable {es fs gs : Entries}

theorem contains_eq (es : Entries) (slot : Slot) : es.contains slot = (es.get? slot).isSome := by
  unfold contains slots get?
  induction es.toList with
  | nil => rfl
  | cons x xs ih =>
      rw [List.map_cons, List.contains_cons, List.lookup_cons, ih]
      cases slot == x.1 <;> rfl

theorem get?_eq_some_iff {slot : Slot} {e : Entry} : es.get? slot = some e ↔ (slot, e) ∈ es.toList := by
  obtain ⟨xs, hxs⟩ := es
  unfold get?
  dsimp only
  induction xs with
  | nil => simp
  | cons x xs ih =>
      obtain ⟨s, f⟩ := x
      obtain ⟨hfirst, hrest⟩ := List.nodup_cons.mp hxs
      by_cases hs : slot = s
      · subst hs
        have hnot : (slot, e) ∉ xs := fun h => hfirst (List.mem_map.mpr ⟨(slot, e), h, rfl⟩)
        simp [hnot, eq_comm]
      · have hne : (slot == s) = false := by simp [hs]
        simp [List.lookup_cons, hne, hs, ih hrest]

/-- The slots whose entries are open. -/
def openSlots (es : Entries) : List Slot := (es.toList.filter (!·.2.locked)).map (·.1)

theorem nodup_openSlots (es : Entries) : es.openSlots.Nodup :=
  es.distinct.sublist (List.filter_sublist.map _)

theorem mem_openSlots {slot : Slot} : slot ∈ es.openSlots ↔ ∃ e, es.get? slot = some e ∧ e.locked = false := by
  simp [openSlots, get?_eq_some_iff]

/-- The same slots with the same entries, in whatever order. -/
def Alike (es fs : Entries) : Prop := ∀ slot, Option.Rel Entry.Alike (es.get? slot) (fs.get? slot)

namespace Alike

@[refl] theorem refl (es : Entries) : es.Alike es := by
  intro slot
  cases es.get? slot with
  | none => exact .none
  | some e => exact .some (.refl e)

theorem symm (h : es.Alike fs) : fs.Alike es := by
  intro slot
  have hslot := h slot
  generalize es.get? slot = x, fs.get? slot = y at hslot ⊢
  cases hslot with
  | none => exact .none
  | some h => exact .some h.symm

theorem trans (h : es.Alike fs) (h' : fs.Alike gs) : es.Alike gs := by
  intro slot
  have hslot := h slot
  have hslot' := h' slot
  generalize es.get? slot = x, fs.get? slot = y, gs.get? slot = z at hslot hslot' ⊢
  cases hslot with
  | none =>
      cases hslot'
      exact .none
  | some h =>
      cases hslot' with
      | some h' => exact .some (h.trans h')

theorem contains (h : es.Alike fs) (slot : Slot) : es.contains slot = fs.contains slot := by
  have hslot := h slot
  rw [contains_eq, contains_eq]
  generalize es.get? slot = x, fs.get? slot = y at hslot ⊢
  cases hslot <;> rfl

theorem modify (h : es.Alike fs) (slot : Slot) {f g : Entry → Entry}
    (hfg : ∀ {a b}, a.Alike b → (f a).Alike (g b)) : (es.modify slot f).Alike (fs.modify slot g) := by
  intro s
  have hs := h s
  by_cases heq : s = slot
  · subst heq
    rw [get?_modify, get?_modify]
    generalize es.get? s = x, fs.get? s = y at hs ⊢
    cases hs with
    | none => exact .none
    | some h => exact .some (hfg h)
  · rwa [get?_modify_of_ne _ heq, get?_modify_of_ne _ heq]

/-- As many entries are open. -/
theorem countP_open (h : es.Alike fs) :
    es.toList.countP (!·.2.locked) = fs.toList.countP (!·.2.locked) := by
  have hsub : ∀ {xs ys : Entries}, xs.Alike ys → ∀ slot ∈ xs.openSlots, slot ∈ ys.openSlots := by
    intro xs ys hxy slot hslot
    obtain ⟨e, he, hopen⟩ := mem_openSlots.mp hslot
    have hrel := hxy slot
    rw [he] at hrel
    cases hf : ys.get? slot with
    | none => simp [hf] at hrel
    | some f =>
        rw [hf, Option.rel_some_some] at hrel
        exact mem_openSlots.mpr ⟨f, hf, hrel.locked.symm.trans hopen⟩
  have hperm : es.openSlots.Perm fs.openSlots :=
    (List.perm_ext_iff_of_nodup es.nodup_openSlots fs.nodup_openSlots).mpr fun slot =>
      ⟨hsub h slot, hsub h.symm slot⟩
  simpa [openSlots, List.countP_eq_length_filter] using hperm.length_eq

end Alike

end Entries

theorem forall₂_modify {α β : Type} {R : α → β → Prop} {f : α → α} {g : β → β} {as : List α} {bs : List β}
    (hfg : ∀ a b, R a b → R (f a) (g b)) (h : List.Forall₂ R as bs) (i : Nat) :
    List.Forall₂ R (as.modify i f) (bs.modify i g) := by
  induction h generalizing i with
  | nil => simp
  | cons hab hrest ih =>
      cases i with
      | zero => exact .cons (hfg _ _ hab) hrest
      | succ i => exact .cons hab (ih i)

structure Bag.Alike (a b : Bag) : Prop where
  kind : a.kind = b.kind
  inClass : a.inClass = b.inClass
  parent : a.parent = b.parent
  entries : a.entries.Alike b.entries

/-- What a bag has turned into differs from it in more than order, or not at all. -/
theorem Bag.EvolvesTo.eq_of_alike {a b : Bag} (h : a.EvolvesTo b) (ha : a.entries.Alike b.entries) :
    b = a := by
  refine h.eq_of (List.ext_getElem? fun i => ?_)
  rcases pointwise_getElem? h.entries i with ⟨hx, hy⟩ | ⟨x, y, hx, hy, hslot, hevolves⟩
  · rw [hx, hy]
  · have hrel := ha x.1
    have hget : b.entries.get? y.1 = some y.2 := Entries.get?_eq_some_iff.mpr (List.mem_of_getElem? hy)
    rw [Entries.get?_eq_some_iff.mpr (List.mem_of_getElem? hx), ← hslot, hget,
      Option.rel_some_some] at hrel
    rw [hx, hy, Prod.ext hslot (hevolves.eq_of_same hrel.symm.same)]

/-! ## Trees -/

namespace BagTree

/-- The same bags for the same scopes. -/
structure Alike (t u : BagTree) : Prop where
  concrete : t.concrete = u.concrete
  bags : List.Forall₂ Bag.Alike t.bags u.bags
  bagOf? : ∀ owner, t.bagOf? owner = u.bagOf? owner

namespace Alike

variable {t u v : BagTree}

@[refl] theorem refl (t : BagTree) : t.Alike t :=
  ⟨rfl, List.forall₂_same.mpr fun _ _ => ⟨rfl, rfl, rfl, .refl _⟩, fun _ => rfl⟩

theorem symm (h : t.Alike u) : u.Alike t where
  concrete := h.concrete.symm
  bags := List.Forall₂.flip (h.bags.imp fun _ _ h => ⟨h.kind.symm, h.inClass.symm, h.parent.symm, h.entries.symm⟩)
  bagOf? owner := (h.bagOf? owner).symm

theorem trans (h : t.Alike u) (h' : u.Alike v) : t.Alike v where
  concrete := h.concrete.trans h'.concrete
  bags := pointwise_trans (fun _ _ _ h h' => ⟨h.kind.trans h'.kind, h.inClass.trans h'.inClass,
    h.parent.trans h'.parent, h.entries.trans h'.entries⟩) h.bags h'.bags
  bagOf? owner := (h.bagOf? owner).trans (h'.bagOf? owner)

theorem everything (h : t.Alike u) : t.everything = u.everything := by
  rw [BagTree.everything, h.concrete, BagTree.everything]

theorem classBag? (h : t.Alike u) (name : TypeName) : t.classBag? name = u.classBag? name :=
  (pointwise_lastIdx? (fun _ _ hab => by rw [hab.kind, hab.inClass]) h.bags).symm

theorem methodBag? (h : t.Alike u) (owner : TypeName) (method : String) :
    t.methodBag? owner method = u.methodBag? owner method :=
  (pointwise_lastIdx? (fun _ _ hab => by rw [hab.kind, hab.inClass]) h.bags).symm

theorem parent? (h : t.Alike u) (i : BagId) : t.parent? i = u.parent? i := by
  unfold BagTree.parent?
  rcases pointwise_getElem? h.bags i with ⟨ht, hu⟩ | ⟨a, b, ht, hu, hab⟩
  · rw [ht, hu]
  · simp only [ht, hu, Option.bind_some, hab.parent]

theorem classOf (h : t.Alike u) (i : BagId) : t.classOf i = u.classOf i := by
  unfold BagTree.classOf
  rcases pointwise_getElem? h.bags i with ⟨ht, hu⟩ | ⟨a, b, ht, hu, hab⟩
  · rw [ht, hu]
  · simp only [ht, hu, Option.elim_some, hab.inClass]

theorem has (h : t.Alike u) (i : BagId) (slot : Slot) : t.has i slot = u.has i slot := by
  unfold BagTree.has
  rcases pointwise_getElem? h.bags i with ⟨ht, hu⟩ | ⟨a, b, ht, hu, hab⟩
  · rw [ht, hu]
  · simp only [ht, hu, Option.any_some, hab.entries.contains]

theorem entryAt? (h : t.Alike u) (i : BagId) (slot : Slot) :
    Option.Rel Entry.Alike (t.entryAt? i slot) (u.entryAt? i slot) := by
  unfold BagTree.entryAt?
  rcases pointwise_getElem? h.bags i with ⟨ht, hu⟩ | ⟨a, b, ht, hu, hab⟩
  · rw [ht, hu]
    exact .none
  · rw [ht, hu]
    exact hab.entries slot

theorem enclosingN (h : t.Alike u) (n : Nat) (i : BagId) : t.enclosingN n i = u.enclosingN n i := by
  induction n generalizing i with
  | zero => rfl
  | succ n ih =>
      rw [BagTree.enclosingN, BagTree.enclosingN, h.parent?]
      cases u.parent? i with
      | none => rfl
      | some j => rw [Option.elim_some, Option.elim_some, ih]

theorem resolve? (h : t.Alike u) (ctx : Context) (i : BagId) (slot : Slot) :
    t.resolve? ctx i slot = u.resolve? ctx i slot := by
  have hhas : (t.has · slot) = (u.has · slot) := funext fun j => h.has j slot
  have hclass : t.classBag? = u.classBag? := funext h.classBag?
  rw [BagTree.resolve?, BagTree.resolve?, enclosing, enclosing, h.enclosingN, h.classOf, hhas, hclass]

theorem get? (h : t.Alike u) (ctx : Context) (i : BagId) (slot : Slot) :
    Option.Rel Entry.Alike (t.get? ctx i slot) (u.get? ctx i slot) := by
  rw [BagTree.get?, BagTree.get?, h.resolve?]
  cases u.resolve? ctx i slot with
  | none => exact .none
  | some j => exact h.entryAt? j slot

theorem narrow (h : t.Alike u) (ctx : Context) (i : BagId) (slot : Slot) {a b : Candidates}
    (hab : a.Alike b) : (t.narrow ctx i slot a).Alike (u.narrow ctx i slot b) where
  concrete := (evolvesTo_narrow t ctx i slot a).concrete.trans
    (h.concrete.trans (evolvesTo_narrow u ctx i slot b).concrete.symm)
  bagOf? owner := by
    rw [(evolvesTo_narrow t ctx i slot a).bagOf?, (evolvesTo_narrow u ctx i slot b).bagOf?, h.bagOf?]
  bags := by
    rw [BagTree.narrow, BagTree.narrow, h.resolve?]
    cases u.resolve? ctx i slot with
    | none => exact h.bags
    | some j =>
        refine forall₂_modify (fun a b h => ?_) h.bags j
        exact ⟨h.kind, h.inClass, h.parent, h.entries.modify slot fun he => he.narrow hab⟩

/-- Alike trees take the same number of sweeps at most. -/
theorem sweepBound (h : t.Alike u) : t.sweepBound = u.sweepBound := by
  have hopen : t.unlockedCount = u.unlockedCount := by
    rw [unlockedCount, total_map, forall₂_map_eq h.bags fun _ _ hab => hab.entries.countP_open, ← total_map]
    rfl
  rw [BagTree.sweepBound, BagTree.sweepBound, hopen, h.concrete]

end Alike

theorem EvolvesTo.eq_of_alike {t u : BagTree} (h : t.EvolvesTo u) (ha : t.Alike u) : u = t := by
  refine h.eq_of (List.ext_getElem? fun i => ?_)
  rcases pointwise_getElem? h.bags i with ⟨ht, hu⟩ | ⟨a, b, ht, hu, hab⟩
  · rw [ht, hu]
  · rcases pointwise_getElem? ha.bags i with ⟨ht', _⟩ | ⟨a', b', ht', hu', hab'⟩
    · cases ht.symm.trans ht'
    · cases ht.symm.trans ht'
      cases hu.symm.trans hu'
      rw [ht, hu, hab.eq_of_alike hab'.entries]

end BagTree

end CoolTyping
