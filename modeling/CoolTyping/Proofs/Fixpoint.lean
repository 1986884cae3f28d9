import CoolTyping.Proofs.Sweeping
import CoolTyping.Typing
import CoolTyping.Bag.Seed

/-!
# The fixpoint of the sweeps

Sweeps end with the first one that changes nothing. The test for that ignores the order of
candidates, but a tree that has evolved and is still the same is equal. So the tree at the end is a
fixpoint, and the bound on the number of sweeps decides only whether it is reached.
-/

namespace CoolTyping

theorem all_zip_self {α : Type} {p : α × α → Bool} (hp : ∀ a, p (a, a) = true) (as : List α) :
    (as.zip as).all p = true := by
  induction as with
  | nil => rfl
  | cons a as ih => rw [List.zip_cons_cons, List.all_cons, hp a, ih]; rfl

theorem Bag.same_refl (b : Bag) : b.same b = true := by
  simp only [Bag.same, Entries.same, beq_self_eq_true, Bool.true_and]
  exact all_zip_self (fun x => x.2.same_refl) _

theorem BagTree.same_refl (t : BagTree) : t.same t = true := by
  have hconcrete : t.concrete.same t.concrete = true := TypeSet.same_iff.mpr fun _ => Iff.rfl
  simp only [BagTree.same, hconcrete, beq_self_eq_true, Bool.true_and]
  exact all_zip_self (fun b => b.same_refl) _

namespace ClassTable

variable {t : ClassTable} {tree T : BagTree} {n k : Nat}

/-- The test for a sweep without change is exact. -/
theorem sweep_same_iff : (t.sweep tree).1.same tree = true ↔ (t.sweep tree).1 = tree :=
  ⟨(t.sweep_evolvesTo tree).eq_of_same, fun h => by rw [h]; exact tree.same_refl⟩

/-- The sweep after the first `n` is the first one that changes nothing. -/
structure SettlesAt (t : ClassTable) (n : Nat) (tree : BagTree) : Prop where
  settled : (t.sweep (t.swept n tree)).1 = t.swept n tree
  unsettled : ∀ j < n, (t.sweep (t.swept j tree)).1 ≠ t.swept j tree

theorem settlesAt_succ (h : (t.sweep tree).1 ≠ tree) :
    t.SettlesAt (n + 1) tree ↔ t.SettlesAt n (t.sweep tree).1 := by
  constructor
  · rintro ⟨hs, hu⟩
    exact ⟨hs, fun j hj => hu (j + 1) (by omega)⟩
  · rintro ⟨hs, hu⟩
    refine ⟨hs, fun j hj => ?_⟩
    cases j with
    | zero => exact h
    | succ j => exact hu j (by omega)

theorem settlesAt_zero : t.SettlesAt 0 tree ↔ (t.sweep tree).1 = tree :=
  ⟨fun h => h.settled, fun h => ⟨h, fun _ hj => absurd hj (Nat.not_lt_zero _)⟩⟩

/-! ## Solving in terms of sweeps -/

/-- With enough fuel, sweeping goes on up to the first sweep without change. -/
theorem solveFrom_of_settlesAt {fuel done : Nat} (h : t.SettlesAt n tree) (hf : n < fuel) :
    t.solveFrom fuel done tree =
      .converged (done + n + 1) (t.swept n tree) (.ofReports (t.sweep (t.swept n tree)).2) := by
  induction fuel generalizing n done tree with
  | zero => omega
  | succ fuel ih =>
      unfold solveFrom
      cases n with
      | zero =>
          have hfix := settlesAt_zero.mp h
          have hsame := sweep_same_iff.mpr hfix
          simp only [hsame, ↓reduceIte, swept_zero, Nat.add_zero]
          rw [hfix]
      | succ n =>
          have hne : (t.sweep tree).1 ≠ tree := h.unsettled 0 (by omega)
          have hsame : (t.sweep tree).1.same tree = false :=
            Bool.eq_false_iff.mpr fun h => hne (sweep_same_iff.mp h)
          simp only [hsame, Bool.false_eq_true, ↓reduceIte, swept_succ]
          rw [ih ((settlesAt_succ hne).mp h) (by omega)]
          congr 1
          omega

/-- With less fuel, every sweep changes something. -/
theorem solveFrom_of_unsettled {fuel done : Nat}
    (h : ∀ j < fuel, (t.sweep (t.swept j tree)).1 ≠ t.swept j tree) :
    t.solveFrom fuel done tree = .exhausted (t.swept fuel tree) := by
  induction fuel generalizing done tree with
  | zero => rfl
  | succ fuel ih =>
      have hsame : (t.sweep tree).1.same tree = false :=
        Bool.eq_false_iff.mpr fun hs => h 0 (by omega) (sweep_same_iff.mp hs)
      unfold solveFrom
      simp only [hsame, Bool.false_eq_true, ↓reduceIte]
      exact ih fun j hj => h (j + 1) (by omega)

/-- Either the sweeps settle within the fuel, or each of them changes something. -/
theorem settlesAt_or_unsettled (t : ClassTable) (tree : BagTree) (fuel : Nat) :
    (∃ n < fuel, t.SettlesAt n tree) ∨
      ∀ j < fuel, (t.sweep (t.swept j tree)).1 ≠ t.swept j tree := by
  induction fuel generalizing tree with
  | zero => exact Or.inr fun _ hj => absurd hj (Nat.not_lt_zero _)
  | succ fuel ih =>
      by_cases hfix : (t.sweep tree).1 = tree
      · exact Or.inl ⟨0, by omega, settlesAt_zero.mpr hfix⟩
      rcases ih (t.sweep tree).1 with ⟨n, hn, hs⟩ | hu
      · exact Or.inl ⟨n + 1, by omega, (settlesAt_succ hfix).mpr hs⟩
      · refine Or.inr fun j hj => ?_
        cases j with
        | zero => exact hfix
        | succ j => exact hu j (by omega)

/-! ## Reductions -/

/-- What the sweep that finds the tree settled reports. -/
def finalDiagnostics (t : ClassTable) (tree : BagTree) : Diagnostics := .ofReports (t.sweep tree).2

theorem reduce_of_settlesAt {maxSweeps : Option Nat} (h : t.SettlesAt n tree)
    (hb : n < maxSweeps.getD tree.sweepBound) :
    t.reduce maxSweeps tree =
      (.ok ⟨n + 1, t.finalDiagnostics (t.swept n tree)⟩, t.swept n tree) := by
  unfold reduce solve
  simp only [solveFrom_of_settlesAt h hb, Nat.zero_add]
  rfl

theorem reduce_of_unsettled {maxSweeps : Option Nat}
    (h : ∀ j < maxSweeps.getD tree.sweepBound, (t.sweep (t.swept j tree)).1 ≠ t.swept j tree) :
    t.reduce maxSweeps tree = (.error ⟨maxSweeps.getD tree.sweepBound⟩,
      t.swept (maxSweeps.getD tree.sweepBound) tree) := by
  unfold reduce solve
  simp only [solveFrom_of_unsettled h]

/-- A reduction ends with the first sweep without change. -/
theorem settlesAt_of_reduce {maxSweeps : Option Nat} {r : Reduction}
    (h : t.reduce maxSweeps tree = (.ok r, T)) :
    ∃ n, t.SettlesAt n tree ∧ T = t.swept n tree ∧ r = ⟨n + 1, t.finalDiagnostics T⟩ := by
  rcases t.settlesAt_or_unsettled tree (maxSweeps.getD tree.sweepBound) with ⟨n, hn, hs⟩ | hu
  · rw [reduce_of_settlesAt hs hn] at h
    cases h
    exact ⟨n, hs, rfl, rfl⟩
  · rw [reduce_of_unsettled hu] at h
    cases h

theorem SettlesAt.settlesAt_zero (h : t.SettlesAt n tree) : t.SettlesAt 0 (t.swept n tree) :=
  ClassTable.settlesAt_zero.mpr h.settled

theorem SettlesAt.reduce_of_le (h : t.SettlesAt n tree) (hk : k ≤ n) :
    t.reduce (some k) tree = (.error ⟨k⟩, t.swept k tree) :=
  reduce_of_unsettled fun j hj => h.unsettled j (Nat.lt_of_lt_of_le hj hk)

theorem reduce_one_of_ne (h : (t.sweep tree).1 ≠ tree) :
    t.reduce (some 1) tree = (.error ⟨1⟩, (t.sweep tree).1) := by
  refine reduce_of_unsettled fun j hj => ?_
  obtain rfl : j = 0 := by simpa using hj
  exact h

theorem reduce_one_snd (t : ClassTable) (tree : BagTree) :
    (t.reduce (some 1) tree).2 = (t.sweep tree).1 := by
  by_cases hfix : (t.sweep tree).1 = tree
  · rw [reduce_of_settlesAt (settlesAt_zero.mpr hfix) (by simp), swept_zero, hfix]
  · rw [reduce_one_of_ne hfix]

/-- Reductions of one sweep each go through the same trees. -/
theorem iterate_reduce_one (t : ClassTable) (n : Nat) (tree : BagTree) :
    (fun u => (t.reduce (some 1) u).2)^[n] tree = t.swept n tree := by
  unfold swept
  simp only [reduce_one_snd]

/-- A reduction ends in a fixpoint, with its candidates in their order. From there any reduction ends
at once, with the same diagnostics. The bound decides only whether the end is reached, and so do
repeated reductions of one sweep each. -/
theorem reduce_fixpoint {maxSweeps : Option Nat} {s : Nat} {d : Diagnostics}
    (h : t.reduce maxSweeps tree = (.ok ⟨s, d⟩, T)) :
    (0 < s ∧ t.swept (s - 1) tree = T ∧ (t.sweep T).1 = T) ∧
    (∀ again : Option Nat, 1 ≤ again.getD T.sweepBound →
      t.reduce again T = (.ok ⟨1, d⟩, T)) ∧
    (∀ k, s ≤ k → t.reduce (some k) tree = (.ok ⟨s, d⟩, T)) ∧
    (∀ k, k < s → (t.reduce (some k) tree).1 = .error ⟨k⟩) ∧
    (∀ i, i + 1 < s →
      (t.reduce (some 1) ((fun u => (t.reduce (some 1) u).2)^[i] tree)).1 = .error ⟨1⟩) ∧
    t.reduce (some 1) ((fun u => (t.reduce (some 1) u).2)^[s - 1] tree) = (.ok ⟨1, d⟩, T) := by
  obtain ⟨n, hn, rfl, hr⟩ := settlesAt_of_reduce h
  obtain ⟨rfl, rfl⟩ : s = n + 1 ∧ d = t.finalDiagnostics (t.swept n tree) := by
    simpa using hr
  have hagain : ∀ again : Option Nat, 1 ≤ again.getD (t.swept n tree).sweepBound →
      t.reduce again (t.swept n tree) =
        (.ok ⟨1, t.finalDiagnostics (t.swept n tree)⟩, t.swept n tree) :=
    fun again hb => reduce_of_settlesAt hn.settlesAt_zero hb
  refine ⟨⟨Nat.succ_pos n, rfl, hn.settled⟩, hagain, fun k hk => ?_, fun k hk => ?_, fun i hi => ?_, ?_⟩
  · exact reduce_of_settlesAt hn hk
  · rw [hn.reduce_of_le (Nat.le_of_lt_succ hk)]
  · rw [iterate_reduce_one, reduce_one_of_ne (hn.unsettled i (by omega))]
  · rw [iterate_reduce_one]
    exact hagain (some 1) (by simp)

end ClassTable

/-- The class `Main`, with an attribute `n` and a method `add` that adds its argument to it, all of
them of types that are to be inferred. -/
def counter : Program :=
  let here : Span := ⟨0, 0⟩
  ⟨[⟨0, "Main", none, [
    .attr ⟨"n", TypeName.auto, some (.int here 0), here⟩,
    .method ⟨1, "add", [⟨"k", TypeName.auto, here⟩], TypeName.auto,
      .assign here "n" (.binary here .add (.ident here "n") (.ident here "k")), here⟩], here⟩]⟩

theorem counter_fixpoint :
    let t := (typecheck counter).value
    (t.reduce none t.seed).1 = .ok ⟨2, []⟩ ∧
      t.reduce (some 5) (t.reduce none t.seed).2 = (.ok ⟨1, []⟩, (t.reduce none t.seed).2) := by
  have hr : ((typecheck counter).value.reduce none (typecheck counter).value.seed).1 =
      .ok ⟨2, []⟩ := by decide +kernel
  refine ⟨hr, ?_⟩
  exact (ClassTable.reduce_fixpoint (Prod.ext hr rfl)).2.1 (some 5) (by decide)

end CoolTyping
