import CoolTyping.Proofs.Fixpoint
import CoolTyping.Proofs.Seeding

/-!
# Convergence

An entry that is not locked loses candidates until a conflict and gains candidates from then on, so
it can change only so many times. Its rank counts the changes behind it. Each sweep but the last adds
to the ranks of a tree, and the bound on the number of sweeps is the highest sum that they can have.
-/

namespace CoolTyping

/-! ## Ranks -/

namespace Entry

variable {n : Nat} {e f : Entry}

/-- How far an entry has come where there are `n` concrete types. -/
def rank (n : Nat) (e : Entry) : Nat :=
  if e.locked then 0
  else if e.ambiguous then n + e.candidates.size
  else n + 1 - e.candidates.size

/-- An entry that is not locked has candidates, and at most one that is not among `n` types. -/
def Bounded (n : Nat) (e : Entry) : Prop :=
  e.locked = false → 0 < e.candidates.size ∧ e.candidates.size ≤ n + 1

theorem rank_le (h : e.Bounded n) : e.rank n ≤ if e.locked then 0 else 2 * n + 1 := by
  unfold rank
  cases hl : e.locked with
  | true => exact Nat.le_refl _
  | false =>
      obtain ⟨_, hsize⟩ := h hl
      simp only [Bool.false_eq_true, ↓reduceIte]
      split <;> omega

/-- A change adds to the rank. -/
theorem EvolvesTo.rank_le (h : e.EvolvesTo f) (he : e.Bounded n) :
    e.rank n ≤ f.rank n ∧ (e.rank n = f.rank n → f = e) := by
  cases hl : e.locked with
  | true => rw [h.fixed hl]; exact ⟨Nat.le_refl _, fun _ => rfl⟩
  | false =>
      obtain ⟨hpos, hsize⟩ := he hl
      have hl' : f.locked = false := h.locked.trans hl
      rcases h.size_cases with rfl | ⟨ha, hf, hlt⟩ | ⟨ha, hf⟩ | ⟨ha, hf, hlt⟩
      · exact ⟨Nat.le_refl _, fun _ => rfl⟩
      · simp only [rank, hl, hl', ha, hf, Bool.false_eq_true, ↓reduceIte]
        exact ⟨by omega, fun heq => by omega⟩
      · -- A first conflict lifts the rank above all ranks without one.
        have hne : f.candidates.toList ≠ [] := h.nonempty (List.length_pos_iff.mp hpos)
        have hpos' : 0 < f.candidates.size := List.length_pos_iff.mpr hne
        simp only [rank, hl, hl', ha, hf, Bool.false_eq_true, ↓reduceIte]
        exact ⟨by omega, fun heq => by omega⟩
      · simp only [rank, hl, hl', ha, hf, Bool.false_eq_true, ↓reduceIte]
        exact ⟨by omega, fun heq => by omega⟩

end Entry

theorem total_cons {α : Type} (f : α → Nat) (a : α) (as : List α) :
    total f (a :: as) = f a + total f as := rfl

theorem total_map {α : Type} (f : α → Nat) (as : List α) : total f as = total id (as.map f) :=
  List.foldr_map.symm

/-- Ranks that grow with each change also grow in sum. -/
theorem pointwise_total {α : Type} {R : α → α → Prop} {rank : α → Nat} {as bs : List α}
    (hR : ∀ a b, R a b → rank a ≤ rank b ∧ (rank a = rank b → b = a)) (h : List.Forall₂ R as bs) :
    total rank as ≤ total rank bs ∧ (total rank as = total rank bs → bs = as) := by
  induction h with
  | nil => exact ⟨Nat.le_refl _, fun _ => rfl⟩
  | @cons a b as bs hab _ ih =>
      obtain ⟨hle, heq⟩ := hR a b hab
      simp only [total_cons]
      refine ⟨by omega, fun hsum => ?_⟩
      rw [heq (by omega), ih.2 (by omega)]

namespace Bag

variable {n : Nat} {a b : Bag}

def rank (n : Nat) (b : Bag) : Nat := total (fun x => x.2.rank n) b.entries.toList

def Bounded (n : Nat) (b : Bag) : Prop := ∀ x ∈ b.entries.toList, x.2.Bounded n

theorem rank_le (h : b.Bounded n) :
    b.rank n ≤ b.entries.toList.countP (!·.2.locked) * (2 * n + 1) := by
  unfold Bounded at h
  unfold rank
  revert h
  generalize b.entries.toList = xs
  intro h
  induction xs with
  | nil => exact Nat.zero_le _
  | cons x xs ih =>
      obtain ⟨hx, hxs⟩ := List.forall_mem_cons.mp h
      have hrank := Entry.rank_le hx
      have hrest := ih hxs
      rw [total_cons, List.countP_cons]
      cases hl : x.2.locked with
      | true =>
          simp only [hl, ↓reduceIte] at hrank
          simp only [Bool.not_true, Bool.false_eq_true, ↓reduceIte, Nat.add_zero]
          omega
      | false =>
          simp only [hl, Bool.false_eq_true, ↓reduceIte] at hrank
          simp only [Bool.not_false, ↓reduceIte, Nat.add_mul, Nat.one_mul]
          omega

theorem EvolvesTo.rank_le (h : a.EvolvesTo b) (ha : a.Bounded n) :
    a.rank n ≤ b.rank n ∧ (a.rank n = b.rank n → b = a) := by
  have hentry : ∀ x y : Slot × Entry, x.2.Bounded n ∧ SlotEvolves x y →
      x.2.rank n ≤ y.2.rank n ∧ (x.2.rank n = y.2.rank n → y = x) := by
    rintro x y ⟨hx, hslot, hxy⟩
    obtain ⟨hle, heq⟩ := hxy.rank_le hx
    exact ⟨hle, fun hr => Prod.ext hslot (heq hr)⟩
  obtain ⟨hle, heq⟩ := pointwise_total hentry ((List.forall₂_and_left _ _).mpr ⟨ha, h.entries⟩)
  exact ⟨hle, fun hr => h.eq_of (heq hr)⟩

end Bag

namespace BagTree

variable {n : Nat} {t u : BagTree}

def rank (n : Nat) (t : BagTree) : Nat := total (·.rank n) t.bags

def Bounded (n : Nat) (t : BagTree) : Prop := ∀ b ∈ t.bags, b.Bounded n

theorem rank_le (h : t.Bounded n) : t.rank n ≤ t.unlockedCount * (2 * n + 1) := by
  obtain ⟨bags, concrete⟩ := t
  unfold rank unlockedCount
  induction bags with
  | nil => exact Nat.zero_le _
  | cons b bags ih =>
      obtain ⟨hb, hbags⟩ := List.forall_mem_cons.mp h
      have hfirst := b.rank_le hb
      have hrest := ih hbags
      simp only [total_cons, Nat.add_mul] at hrest ⊢
      omega

theorem EvolvesTo.rank_lt (h : t.EvolvesTo u) (ht : t.Bounded n) (hne : u ≠ t) :
    t.rank n < u.rank n := by
  have hbag : ∀ a b : Bag, a.Bounded n ∧ a.EvolvesTo b →
      a.rank n ≤ b.rank n ∧ (a.rank n = b.rank n → b = a) := fun a b hab => hab.2.rank_le hab.1
  obtain ⟨hle, heq⟩ := pointwise_total hbag ((List.forall₂_and_left _ _).mpr ⟨ht, h.bags⟩)
  exact Nat.lt_of_le_of_ne hle fun hr => hne (h.eq_of (heq hr))

theorem EvolvesTo.unlockedCount (h : t.EvolvesTo u) : u.unlockedCount = t.unlockedCount := by
  have hcount : ∀ a b : Bag, a.EvolvesTo b → b.entries.toList.countP (!·.2.locked) =
      a.entries.toList.countP (!·.2.locked) := by
    intro a b hab
    have hlocked := pointwise_map (f := fun x : Slot × Entry => !x.2.locked)
      (fun x y hxy => by rw [hxy.2.locked]) hab.entries
    have hcounts := congrArg (List.countP id) hlocked
    rwa [List.countP_map, List.countP_map] at hcounts
  unfold BagTree.unlockedCount
  rw [total_map, pointwise_map hcount h.bags, ← total_map]

end BagTree

/-! ## Sweeps -/

namespace ClassTable

variable {t : ClassTable} {tree : BagTree} {n : Nat}

/-- As long as sweeps change something, each adds to the rank. -/
theorem le_rank_swept (hb : ∀ j, (t.swept j tree).Bounded n) {k : Nat}
    (hk : ∀ j < k, (t.sweep (t.swept j tree)).1 ≠ t.swept j tree) :
    k ≤ (t.swept k tree).rank n := by
  induction k with
  | zero => exact Nat.zero_le _
  | succ k ih =>
      have hprev := ih fun j hj => hk j (Nat.lt_succ_of_lt hj)
      have hlt := (t.sweep_evolvesTo (t.swept k tree)).rank_lt (hb k) (hk k (Nat.lt_succ_self k))
      rw [swept_succ']
      omega

/-- Sweeps settle before the rank exceeds its bound. -/
theorem exists_settlesAt (hb : ∀ j, (t.swept j tree).Bounded n) :
    ∃ k < 1 + tree.unlockedCount * (2 * n + 1), t.SettlesAt k tree := by
  rcases t.settlesAt_or_unsettled tree (1 + tree.unlockedCount * (2 * n + 1)) with h | hu
  · exact h
  · have hlow := le_rank_swept hb hu
    have hhigh := BagTree.rank_le (hb (1 + tree.unlockedCount * (2 * n + 1)))
    rw [(t.swept_evolvesTo _ tree).unlockedCount] at hhigh
    omega

/-- The types that can occur in a tree: the concrete ones, and `<error>`. -/
theorem swept_bounded {P : TypeName → Prop} (h : t.Admits P)
    (hP : ∀ ty, P ty → ty ∈ t.seed.concrete ∨ ty = TypeName.error) (j : Nat) :
    (t.swept j t.seed).Bounded t.seed.concrete.size := by
  intro b hb x hx hl
  refine ⟨List.length_pos_iff.mpr (h.wellFormed.swept_nonempty j hb hx hl), ?_⟩
  have hwithin := (swept_within h.seed_covers h.seed_within j).entries b hb x hx
  have hsub : ∀ y ∈ x.2.candidates, y ∈ TypeName.error :: t.seed.concrete.toList := by
    intro y hy
    rcases hP y (hwithin y hy) with hy | rfl
    · exact List.mem_cons_of_mem _ hy
    · exact List.mem_cons_self
  exact TypeSet.size_le_of_subset hsub

/-- Without reports, all types that the sweeps come upon are concrete, or `<error>` where the program
itself names it. -/
theorem admits_concrete {p : Program} (h : (build p).reports = []) :
    (build p).value.Admits fun ty =>
      ty ∈ (build p).value.context.concreteTypes ∨ ty = TypeName.error where
  wellFormed := build_wellFormed p
  methodNames c hc := (build_clean h c hc).methodNames
  concrete _ hty := Or.inl hty
  writes _ _ f _ := f.writes_of_forall fun _ => Or.inl (Or.inr rfl)

theorem size_seed_concrete (h : t.WellFormed) :
    t.seed.concrete.size = t.context.concreteTypes.length := by
  rw [seed_concrete, TypeSet.size, TypeSet.toList_ofList h.concreteTypes_nodup]

/-- Inference of a program without errors comes to an end within the bound that is taken from its
first tree. -/
theorem reduce_converges {p : Program} (h : (typecheck p).diagnostics = []) :
    let t := (typecheck p).value
    ∃ r T, t.reduce none t.seed = (.ok r, T) ∧
      r.sweeps ≤ t.seed.sweepBound ∧
      t.seed.sweepBound =
        1 + t.seed.unlockedCount * (2 * t.context.concreteTypes.length + 1) ∧
      t.swept (r.sweeps - 1) t.seed = T ∧ (t.sweep T).1 = T := by
  intro t
  have hadmits : t.Admits _ := admits_concrete (reports_of_typecheck h).1
  have hbounded := swept_bounded hadmits fun ty hty => by
    rwa [seed_concrete, TypeSet.mem_ofList]
  obtain ⟨k, hk, hsettles⟩ := exists_settlesAt hbounded
  refine ⟨_, _, reduce_of_settlesAt hsettles hk, hk, ?_, rfl, hsettles.settled⟩
  rw [BagTree.sweepBound, size_seed_concrete hadmits.wellFormed]

end ClassTable

theorem counter_converges :
    (typecheck counter).diagnostics = [] ∧
      ∃ r T, (typecheck counter).value.reduce none (typecheck counter).value.seed = (.ok r, T) ∧
        r.sweeps ≤ 1 + 3 * (2 * 6 + 1) := by
  have hclean : (typecheck counter).diagnostics = [] := by decide +kernel
  obtain ⟨r, T, hr, hle, hbound, _⟩ := ClassTable.reduce_converges hclean
  have hvalue : (typecheck counter).value.seed.sweepBound = 1 + 3 * (2 * 6 + 1) := by decide +kernel
  exact ⟨hclean, r, T, hr, hvalue ▸ hle⟩

end CoolTyping
