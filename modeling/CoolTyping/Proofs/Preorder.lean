import CoolTyping.Proofs.Nesting
import Mathlib.Data.List.Nodup

/-!
# The order of bags

`BagTree.preorder` goes through the bags from the classes down. It comes to every bag once, to a bag before
those inside it, and to the bags of one class before those of the classes declared behind it.
-/

namespace CoolTyping

namespace BagTree

variable {t u : BagTree} {i j k r : BagId} {n m : Nat}

/-! ## Bags around a bag -/

namespace Ordered

theorem mem_enclosing (h : t.Ordered) :
    j ∈ t.enclosing i ↔ j = i ∨ ∃ k, t.parent? i = some k ∧ j ∈ t.enclosing k := by
  rw [h.enclosing_eq, List.mem_cons]
  cases t.parent? i <;> simp

theorem self_mem_enclosing (h : t.Ordered) (i : BagId) : i ∈ t.enclosing i := h.mem_enclosing.mpr (.inl rfl)

theorem le_of_mem_enclosing (h : t.Ordered) (hj : j ∈ t.enclosing i) : j ≤ i := by
  induction i using Nat.strongRecOn with
  | _ i ih =>
      rcases h.mem_enclosing.mp hj with rfl | ⟨k, hk, hj⟩
      · exact Nat.le_refl j
      · have hki := h i k hk
        exact Nat.le_of_lt (Nat.lt_of_le_of_lt (ih k hki hj) hki)

theorem enclosing_trans (h : t.Ordered) (hk : k ∈ t.enclosing j) (hj : j ∈ t.enclosing i) :
    k ∈ t.enclosing i := by
  induction i using Nat.strongRecOn with
  | _ i ih =>
      rcases h.mem_enclosing.mp hj with rfl | ⟨p, hp, hj⟩
      · exact hk
      · exact h.mem_enclosing.mpr (.inr ⟨p, hp, ih p (h i p hp) hj⟩)

/-- Of two bags around a third, one is around the other. -/
theorem enclosing_total (h : t.Ordered) (hj : j ∈ t.enclosing i) (hk : k ∈ t.enclosing i) :
    j ∈ t.enclosing k ∨ k ∈ t.enclosing j := by
  induction i using Nat.strongRecOn with
  | _ i ih =>
      rcases h.mem_enclosing.mp hj with rfl | ⟨p, hp, hjp⟩
      · exact .inr hk
      rcases h.mem_enclosing.mp hk with rfl | ⟨q, hq, hkq⟩
      · exact .inl hj
      · cases hp.symm.trans hq
        exact ih p (h i p hp) hjp hkq

theorem not_mem_enclosing_of_sibling (h : t.Ordered) (hp : t.parent? j = t.parent? k) (hne : j ≠ k) :
    j ∉ t.enclosing k := by
  intro hj
  rcases h.mem_enclosing.mp hj with rfl | ⟨p, hk, hj⟩
  · exact hne rfl
  · exact Nat.not_lt_of_le (h.le_of_mem_enclosing hj) (h j p (hp.trans hk))

/-- Bags side by side are not around the same bag. -/
theorem enclosing_apart (h : t.Ordered) (hp : t.parent? j = t.parent? k) (hne : j ≠ k)
    (hj : j ∈ t.enclosing i) : k ∉ t.enclosing i := by
  intro hk
  rcases h.enclosing_total hj hk with hjk | hkj
  · exact h.not_mem_enclosing_of_sibling hp hne hjk
  · exact h.not_mem_enclosing_of_sibling hp.symm hne.symm hkj

end Ordered

/-! ## Every bag is listed -/

theorem mem_indices {p : Bag → Bool} : i ∈ t.indices p ↔ ∃ b, t.bags[i]? = some b ∧ p b = true := by
  unfold indices
  rw [List.mem_filterMap]
  constructor
  · rintro ⟨⟨b, k⟩, hmem, hi⟩
    dsimp only at hi
    split at hi
    · cases hi
      exact ⟨b, List.mk_mem_zipIdx_iff_getElem?.mp hmem, ‹_›⟩
    · cases hi
  · rintro ⟨b, hb, hp⟩
    exact ⟨(b, i), List.mk_mem_zipIdx_iff_getElem?.mpr hb, if_pos hp⟩

theorem mem_children : i ∈ t.children j ↔ t.parent? i = some j := by
  rw [children, mem_indices, parent?, Option.bind_eq_some_iff]
  simp

theorem mem_roots : i ∈ t.roots ↔ i < t.bags.length ∧ t.parent? i = none := by
  rw [roots, mem_indices, parent?]
  constructor
  · rintro ⟨b, hb, hp⟩
    exact ⟨(List.getElem?_eq_some_iff.mp hb).1, by rw [hb, Option.bind_some]; simpa using hp⟩
  · rintro ⟨hi, hp⟩
    refine ⟨_, List.getElem?_eq_getElem hi, ?_⟩
    rw [List.getElem?_eq_getElem hi, Option.bind_some] at hp
    rw [hp]
    rfl

theorem mem_subtreeN_mono (h : i ∈ t.subtreeN n r) (hnm : n ≤ m) : i ∈ t.subtreeN m r := by
  induction n generalizing r m with
  | zero => cases h
  | succ n ih =>
      obtain ⟨m, rfl⟩ : ∃ k, m = k + 1 := ⟨m - 1, by omega⟩
      rcases List.mem_cons.mp h with rfl | h
      · exact List.mem_cons_self
      · obtain ⟨k, hk, h⟩ := List.mem_flatMap.mp h
        exact List.mem_cons_of_mem _ (List.mem_flatMap.mpr ⟨k, hk, ih h (by omega)⟩)

theorem mem_subtreeN_child (h : j ∈ t.subtreeN n r) (hi : t.parent? i = some j) :
    i ∈ t.subtreeN (n + 1) r := by
  induction n generalizing r with
  | zero => cases h
  | succ n ih =>
      rcases List.mem_cons.mp h with rfl | h
      · exact List.mem_cons_of_mem _ (List.mem_flatMap.mpr ⟨i, mem_children.mpr hi, List.mem_cons_self⟩)
      · obtain ⟨k, hk, h⟩ := List.mem_flatMap.mp h
        exact List.mem_cons_of_mem _ (List.mem_flatMap.mpr ⟨k, hk, ih h⟩)

/-- Every bag lies below a root, not deeper than its number says. -/
theorem Ordered.exists_root (h : t.Ordered) :
    ∀ i, i < t.bags.length → ∃ r ∈ t.roots, i ∈ t.subtreeN (i + 1) r := by
  intro i
  induction i using Nat.strongRecOn with
  | _ i ih =>
      intro hi
      cases hparent : t.parent? i with
      | none => exact ⟨i, mem_roots.mpr ⟨hi, hparent⟩, List.mem_cons_self⟩
      | some j =>
          have hji := h i j hparent
          obtain ⟨r, hr, hj⟩ := ih j hji (Nat.lt_trans hji hi)
          exact ⟨r, hr, mem_subtreeN_mono (mem_subtreeN_child hj hparent) (Nat.succ_le_succ hji)⟩

theorem Ordered.mem_preorder (h : t.Ordered) (hi : i < t.bags.length) : i ∈ t.preorder := by
  obtain ⟨r, hr, hmem⟩ := h.exists_root i hi
  exact List.mem_flatMap.mpr ⟨r, hr, mem_subtreeN_mono hmem hi⟩

/-! ## Bags before those inside them -/

theorem pairwise_indices (t : BagTree) (p : Bag → Bool) : (t.indices p).Pairwise (· < ·) := by
  have hnumbers : t.bags.zipIdx.Pairwise fun x y => x.2 < y.2 := by
    rw [← List.pairwise_map, List.zipIdx_map_snd]
    exact List.pairwise_lt_range'
  refine List.pairwise_filterMap.mpr (hnumbers.imp fun {x y} hxy i hi j hj => ?_)
  dsimp only at hi hj
  split at hi
  · split at hj
    · cases hi
      cases hj
      exact hxy
    · cases hj
  · cases hi

theorem nodup_indices (t : BagTree) (p : Bag → Bool) : (t.indices p).Nodup :=
  (t.pairwise_indices p).imp Nat.ne_of_lt

theorem Ordered.mem_enclosing_of_mem_subtreeN (h : t.Ordered) (hi : i ∈ t.subtreeN n r) :
    r ∈ t.enclosing i := by
  induction n generalizing r with
  | zero => cases hi
  | succ n ih =>
      rcases List.mem_cons.mp hi with rfl | hi
      · exact h.self_mem_enclosing i
      · obtain ⟨k, hk, hi⟩ := List.mem_flatMap.mp hi
        have hrk : r ∈ t.enclosing k :=
          h.mem_enclosing.mpr (.inr ⟨r, mem_children.mp hk, h.self_mem_enclosing r⟩)
        exact h.enclosing_trans hrk (ih hi)

/-- A relation of a bag to those inside it, and of the bags below one of two that lie side by side to those
below the other, holds along the list of all bags below some that lie side by side. -/
theorem Ordered.pairwise_subtreeN (h : t.Ordered) {R : BagId → BagId → Prop}
    (hinside : ∀ {r k y}, t.parent? k = some r → k ∈ t.enclosing y → R r y)
    (hbeside : ∀ {r r' x y}, r < r' → t.parent? r = t.parent? r' → r ∈ t.enclosing x →
      r' ∈ t.enclosing y → R x y)
    (n : Nat) {outer : Option BagId} {rs : List BagId} (hlt : rs.Pairwise (· < ·))
    (houter : ∀ r ∈ rs, t.parent? r = outer) : (rs.flatMap (t.subtreeN n)).Pairwise R := by
  induction n generalizing outer rs with
  | zero =>
      rw [show rs.flatMap (t.subtreeN 0) = [] from List.flatMap_eq_nil_iff.mpr fun _ _ => rfl]
      exact .nil
  | succ n ih =>
      refine List.pairwise_flatMap.mpr ⟨fun r hr => ?_, ?_⟩
      · refine List.pairwise_cons.mpr ⟨fun y hy => ?_, ?_⟩
        · obtain ⟨k, hk, hy⟩ := List.mem_flatMap.mp hy
          exact hinside (mem_children.mp hk) (h.mem_enclosing_of_mem_subtreeN hy)
        · exact ih (t.pairwise_indices _) fun k hk => mem_children.mp hk
      · refine hlt.imp_of_mem fun {r r'} hr hr' hrr' x hx y hy => ?_
        exact hbeside hrr' ((houter r hr).trans (houter r' hr').symm)
          (h.mem_enclosing_of_mem_subtreeN hx) (h.mem_enclosing_of_mem_subtreeN hy)

theorem Ordered.pairwise_preorder_of (h : t.Ordered) {R : BagId → BagId → Prop}
    (hinside : ∀ {r k y}, t.parent? k = some r → k ∈ t.enclosing y → R r y)
    (hbeside : ∀ {r r' x y}, r < r' → t.parent? r = t.parent? r' → r ∈ t.enclosing x →
      r' ∈ t.enclosing y → R x y) : t.preorder.Pairwise R :=
  h.pairwise_subtreeN hinside hbeside _ (t.pairwise_indices _) fun _ hr => (mem_roots.mp hr).2

/-- No bag comes behind one that it is around. This includes the bag itself, so that none comes twice. -/
theorem Ordered.pairwise_preorder (h : t.Ordered) : t.preorder.Pairwise fun x y => y ∉ t.enclosing x := by
  refine h.pairwise_preorder_of (fun {r k y} hk hy hyr => ?_) fun {r r' x y} hrr' hsiblings hx hy hyx => ?_
  · -- A bag inside `r` has a larger number.
    have hky := h.le_of_mem_enclosing hy
    exact Nat.not_lt_of_le (h.le_of_mem_enclosing hyr) (Nat.lt_of_lt_of_le (h k r hk) hky)
  · exact h.enclosing_apart hsiblings (Nat.ne_of_lt hrr') hx (h.enclosing_trans hy hyx)

/-! ## Class by class -/

/-- Bags lie in the class of the bag around them, and the bags of classes come in the order of `names`. -/
structure ByClass (t : BagTree) (names : List TypeName) : Prop where
  named : ∀ {i}, i < t.bags.length → t.classOf i ∈ names
  inside : ∀ {i j}, t.parent? i = some j → t.classOf i = t.classOf j
  roots : ∀ {i j}, i < j → j < t.bags.length → t.parent? i = none → t.parent? j = none →
    names.idxOf (t.classOf i) ≤ names.idxOf (t.classOf j)

namespace ByClass

variable {names : List TypeName}

theorem evolvesTo (h : t.ByClass names) (hu : t.EvolvesTo u) : u.ByClass names where
  named hi := by
    rw [hu.classOf]
    exact h.named (hu.bags.length_eq ▸ hi)
  inside {i j} hij := by
    rw [hu.parent?] at hij
    rw [hu.classOf, hu.classOf, h.inside hij]
  roots {i j} hij hj hi hj' := by
    rw [hu.parent?] at hi hj'
    rw [hu.classOf, hu.classOf]
    exact h.roots hij (hu.bags.length_eq ▸ hj) hi hj'

theorem classOf_eq (h : t.ByClass names) (hi : i ∈ t.subtreeN n r) : t.classOf i = t.classOf r := by
  induction n generalizing r with
  | zero => cases hi
  | succ n ih =>
      rcases List.mem_cons.mp hi with rfl | hi
      · rfl
      · obtain ⟨k, hk, hi⟩ := List.mem_flatMap.mp hi
        rw [ih hi, h.inside (mem_children.mp hk)]

theorem pairwise_preorder (h : t.ByClass names) :
    t.preorder.Pairwise fun x y => names.idxOf (t.classOf x) ≤ names.idxOf (t.classOf y) := by
  refine List.pairwise_flatMap.mpr ⟨fun r _ => ?_, ?_⟩
  · refine List.pairwise_of_forall_mem_list fun x hx y hy => ?_
    exact Nat.le_of_eq (by rw [h.classOf_eq hx, h.classOf_eq hy])
  · refine (t.pairwise_indices _).imp_of_mem fun {r r'} hr hr' hlt x hx y hy => ?_
    rw [h.classOf_eq hx, h.classOf_eq hy]
    exact h.roots hlt (mem_roots.mp hr').1 (mem_roots.mp hr).2 (mem_roots.mp hr').2

end ByClass

end BagTree

namespace Seed

/-- A class adds one bag of a class. -/
theorem classBags_classDecl (ctx : Context) (t : BagTree) (c : ClassDecl) :
    (classDecl ctx t c).bags.filter (·.kind == .ofClass) =
      t.bags.filter (·.kind == .ofClass) ++ [classBag ctx c] := by
  obtain ⟨_, added, order, hbags, hperm, hopens⟩ := features_adds ctx t c
  have hadded : added.filter (·.kind == .ofClass) = [] := by
    refine List.filter_eq_nil_iff.mpr fun b hb hkind => ?_
    obtain ⟨o, horder, hopened⟩ := forall₂_mem_right hopens hb
    obtain ⟨f, _, ho⟩ := List.mem_flatMap.mp (hperm.subset horder)
    have hplace := hopened.place
    rw [beq_iff_eq.mp hkind] at hplace
    cases o with
    | ofClass => cases f <;> simp [featureOpeners, openers] at ho
    | ofMethod m => cases hplace.1
    | ofBinder x => rcases hplace with hk | hk <;> cases hk
  rw [hbags, List.filter_append, List.filter_append, hadded, List.append_nil]
  rfl

end Seed

namespace ClassTable

open Seed

variable {t : ClassTable}

theorem classBags_seed (t : ClassTable) :
    t.seed.bags.filter (·.kind == .ofClass) = t.classes.map (classBag t.context) := by
  have hfold : ∀ (cs : List ClassDecl) (tree : BagTree),
      (cs.foldl (classDecl t.context) tree).bags.filter (·.kind == .ofClass) =
        tree.bags.filter (·.kind == .ofClass) ++ cs.map (classBag t.context) := by
    intro cs
    induction cs with
    | nil => simp
    | cons c cs ih =>
        intro tree
        rw [List.foldl_cons, ih, classBags_classDecl, List.append_assoc, List.map_cons, List.singleton_append]
  exact hfold t.classes _

/-- A bag that lies in no other is that of a class. -/
theorem kind_of_root (hU : t.seed.DistinctOwners) {i : BagId} (hi : i < t.seed.bags.length)
    (hroot : t.seed.parent? i = none) :
    (t.seed.bags[i].kind == .ofClass) = true ∧ t.seed.classOf i = t.seed.bags[i].inClass := by
  rw [BagTree.parent?, List.getElem?_eq_getElem hi, Option.bind_some] at hroot
  refine ⟨beq_iff_eq.mpr ((seed_coherent hU).ofClass (List.getElem_mem hi) hroot), ?_⟩
  rw [BagTree.classOf, List.getElem?_eq_getElem hi, Option.elim_some]

theorem pairwise_idxOf {names : List TypeName} (h : names.Nodup) :
    names.Pairwise fun x y => names.idxOf x ≤ names.idxOf y := by
  refine List.pairwise_iff_getElem.mpr fun a b ha hb hab => ?_
  rw [h.idxOf_getElem, h.idxOf_getElem]
  exact Nat.le_of_lt hab

/-- In the first tree the bags come class by class. -/
theorem WellFormed.seed_byClass (h : t.WellFormed) (hU : t.seed.DistinctOwners) :
    t.seed.ByClass (t.classes.map (·.name)) where
  named {i} hi := by
    induction i using Nat.strongRecOn with
    | _ i ih =>
        cases hp : t.seed.parent? i with
        | none =>
            obtain ⟨hkind, hclass⟩ := kind_of_root hU hi hp
            have hmem : t.seed.bags[i] ∈ t.seed.bags.filter (·.kind == .ofClass) :=
              List.mem_filter.mpr ⟨List.getElem_mem hi, hkind⟩
            rw [classBags_seed] at hmem
            obtain ⟨c, hc, heq⟩ := List.mem_map.mp hmem
            rw [hclass, ← heq]
            exact List.mem_map_of_mem hc
        | some j =>
            have hji := (seed_coherent hU).ordered i j hp
            rw [(seed_coherent hU).inClass hp]
            exact ih j hji (Nat.lt_trans hji hi)
  inside := (seed_coherent hU).inClass
  roots {i j} hij hj hi hj' := by
    have hnames := pairwise_idxOf h.classNames_nodup
    have hbags : t.seed.bags.Pairwise fun a b => (a.kind == .ofClass) = true → (b.kind == .ofClass) = true →
        (t.classes.map (·.name)).idxOf a.inClass ≤ (t.classes.map (·.name)).idxOf b.inClass := by
      rw [List.pairwise_map] at hnames
      rw [← List.pairwise_filter, classBags_seed, List.pairwise_map]
      exact hnames
    obtain ⟨hkind, hclass⟩ := kind_of_root hU (Nat.lt_trans hij hj) hi
    obtain ⟨hkind', hclass'⟩ := kind_of_root hU hj hj'
    rw [hclass, hclass']
    exact List.pairwise_iff_getElem.mp hbags i j (Nat.lt_trans hij hj) hj hij hkind hkind'

end ClassTable

end CoolTyping
