import CoolTyping.Proofs.Evolution

/-!
# How often an entry changes

An entry takes account of one use after the other, in any order and number. It loses candidates, then comes to
a conflict, once, and then gains candidates. So the uses that say something new are counted by its stage, which
has a limit that depends only on the number of types.
-/

namespace CoolTyping

namespace Entry

variable {n : Nat} {e : Entry} {c : Candidates} {cs : List Candidates}

/-! ## One use -/

/-- A use says something new just if the candidates, as a set, or the conflict differ afterwards. -/
theorem changedBy_iff : e.changedBy c = true ↔
    (∃ t, ¬ (t ∈ (e.narrow c).candidates ↔ t ∈ e.candidates)) ∨
      (e.narrow c).ambiguous ≠ e.ambiguous := by
  have h := evolvesTo_narrow e c
  have hsame : (e.narrow c).same e = true ↔
      (∀ t, t ∈ (e.narrow c).candidates ↔ t ∈ e.candidates) ∧ (e.narrow c).ambiguous = e.ambiguous := by
    simp [same, h.locked, h.span, TypeSet.same_iff]
  rw [changedBy, Bool.not_eq_true', ← Bool.not_eq_true, hsame, not_and_or, not_forall]

theorem not_changedBy_iff : e.changedBy c = false ↔ e.narrow c = e := by
  constructor
  · intro h
    exact (evolvesTo_narrow e c).eq_of_same (by simpa [changedBy] using h)
  · intro h
    simp [changedBy, h, same_refl]

theorem not_changedBy_of_locked (h : e.locked = true) : e.changedBy c = false :=
  not_changedBy_iff.mpr ((evolvesTo_narrow e c).fixed h)

/-- After a conflict, types that are held say nothing new. -/
theorem not_changedBy_of_ambiguous (ha : e.ambiguous = true) (hsub : ∀ t ∈ c.types, t ∈ e.candidates) :
    e.changedBy c = false := by
  rw [← Bool.not_eq_true, changedBy_iff, not_or, not_exists]
  rcases narrow_cases e c with ⟨_, h⟩ | ⟨_, _, h⟩ | ⟨_, hfalse, _⟩
  · simp [h]
  · refine ⟨fun t => not_not.mpr ?_, by simp [h, ha]⟩
    rw [h]
    exact TypeSet.mem_union.trans (or_iff_left_of_imp (hsub t))
  · simp [ha] at hfalse

/-- Repeating a use says nothing new. -/
theorem not_changedBy_narrow (e : Entry) (c : Candidates) : (e.narrow c).changedBy c = false := by
  rcases narrow_cases e c with ⟨hl, h⟩ | ⟨_, _, h⟩ | ⟨hl, ha, hc, ⟨_, h⟩ | ⟨hplain, h⟩⟩ <;> rw [h]
  · exact not_changedBy_of_locked hl
  · exact not_changedBy_of_ambiguous rfl fun t ht => TypeSet.mem_union.mpr (.inr ht)
  · exact not_changedBy_of_ambiguous rfl fun t ht => ht
  · -- what is left is among the incoming types, so it is left again
    rw [not_changedBy_iff]
    rcases narrow_cases { e with candidates := e.candidates.inter c.types } c with
      ⟨hl', _⟩ | ⟨_, hnone, _⟩ | ⟨_, _, _, ⟨hconflict, _⟩ | ⟨_, h'⟩⟩
    · simp [hl] at hl'
    · simp [ha, TypeSet.inter_inter_right, hc] at hnone
    · simp [hplain] at hconflict
    · rw [h', TypeSet.inter_inter_right]

/-! ## Many uses -/

/-- How many of the uses, one after the other, say something new. -/
def changes (e : Entry) : List Candidates → Nat
  | [] => 0
  | c :: cs => (if e.changedBy c then 1 else 0) + (e.narrow c).changes cs

/-- The types that the entry or one of the uses names. -/
def typesSeen (e : Entry) (cs : List Candidates) : TypeSet :=
  TypeSet.ofList (e.candidates.toList ++ cs.flatMap (·.types.toList))

/-- How far an entry has come where `n` types are seen: it loses candidates, comes to a conflict, and gains
candidates. -/
def stage (n : Nat) (e : Entry) : Nat :=
  if e.ambiguous then n + 1 + e.candidates.size else n - e.candidates.size

theorem stage_le (h : e.candidates.size ≤ n) : e.stage n ≤ 2 * n + 1 := by
  unfold stage
  split <;> omega

/-- A use that says something new takes the entry to a later stage. -/
theorem stage_narrow (h : e.candidates.size ≤ n) :
    (if e.changedBy c then 1 else 0) + e.stage n ≤ (e.narrow c).stage n := by
  cases hc : e.changedBy c with
  | false =>
      rw [not_changedBy_iff.mp hc]
      simp
  | true =>
      rcases (evolvesTo_narrow e c).size_cases with heq | ⟨he, hf, hlt⟩ | ⟨he, hf⟩ | ⟨he, hf, hlt⟩
      · simp [not_changedBy_iff.mpr heq] at hc
      all_goals
        simp only [stage, he, hf, Bool.false_eq_true, ↓reduceIte]
        omega

theorem changes_le {s : TypeSet} (he : ∀ t ∈ e.candidates, t ∈ s)
    (hcs : ∀ c ∈ cs, ∀ t ∈ c.types, t ∈ s) : e.changes cs + e.stage s.size ≤ 2 * s.size + 1 := by
  induction cs generalizing e with
  | nil =>
      have hstage : e.stage s.size ≤ 2 * s.size + 1 := stage_le (TypeSet.size_le_of_subset he)
      simpa [changes] using hstage
  | cons c cs ih =>
      obtain ⟨hc, hcs⟩ := List.forall_mem_cons.mp hcs
      have hstage : _ ≤ (e.narrow c).stage s.size := stage_narrow (TypeSet.size_le_of_subset he)
      have hrest := ih (fun t ht => (mem_narrow ht).elim (he t) (hc t)) hcs
      rw [changes]
      omega

theorem locked_unchanged (h : e.locked = true) (cs : List Candidates) :
    cs.foldl narrow e = e ∧ e.changes cs = 0 := by
  induction cs with
  | nil => exact ⟨rfl, rfl⟩
  | cons c cs ih =>
      have hsame : e.narrow c = e := (evolvesTo_narrow e c).fixed h
      rw [List.foldl_cons, changes, not_changedBy_iff.mpr hsame, hsame]
      simpa using ih

/-- Whatever uses an entry takes account of, those that say something new are at most twice as many as the
types that it sees, and one. -/
theorem changes_budget (e : Entry) (cs : List Candidates) :
    e.changes cs ≤ 2 * (e.typesSeen cs).size + 1 ∧
    (∀ c, e.changedBy c = true ↔ (∃ t, ¬ (t ∈ (e.narrow c).candidates ↔ t ∈ e.candidates)) ∨
      (e.narrow c).ambiguous ≠ e.ambiguous) ∧
    (∀ c, (e.narrow c).changedBy c = false) ∧
    (e.locked = true → cs.foldl narrow e = e ∧ e.changes cs = 0) := by
  refine ⟨?_, fun c => changedBy_iff, not_changedBy_narrow e, fun h => locked_unchanged h cs⟩
  have hbound : e.changes cs + e.stage (e.typesSeen cs).size ≤ 2 * (e.typesSeen cs).size + 1 := by
    refine changes_le (fun t ht => ?_) fun c hc t ht => ?_
    · exact TypeSet.mem_ofList.mpr (List.mem_append_left _ ht)
    · exact TypeSet.mem_ofList.mpr (List.mem_append_right _ (List.mem_flatMap.mpr ⟨c, hc, ht⟩))
  omega

theorem declared_int_unchanged :
    let e := ofType TypeName.int ⟨0, 3⟩
    let uses := [Candidates.single TypeName.string, ⟨TypeSet.empty, true⟩]
    e.locked = true ∧ uses.foldl narrow e = e ∧ e.changes uses = 0 :=
  ⟨rfl, (changes_budget (ofType TypeName.int ⟨0, 3⟩)
    [Candidates.single TypeName.string, ⟨TypeSet.empty, true⟩]).2.2.2 rfl⟩

-- three types: two of them are lost, the third comes into a conflict, and two are gained
example :
    let e := ofPlaceholder (.ofList ["A", "B", "C"]) ⟨0, 9⟩
    let uses : List Candidates := [⟨.ofList ["B", "A"], false⟩, ⟨.single "A", false⟩, ⟨.single "A", false⟩,
      ⟨.single "A", true⟩, ⟨.single "B", false⟩, ⟨.single "C", false⟩]
    e.changes uses = 5 ∧ (e.typesSeen uses).size = 3 := by decide

end Entry

end CoolTyping
