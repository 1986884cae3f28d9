import CoolTyping.Proofs.Ambiguities
import CoolTyping.Proofs.Conflicts
import Mathlib

/-!
# Clean results

Where inference and the check of its result report nothing, no uses of a variable conflicted on the way. The
ambiguities that are reported are those of all bags, so one candidate is left for every placeholder. The
check of the result then says that all values fit their places.
-/

namespace CoolTyping

namespace BagTree

variable {t : BagTree} {i : BagId}

theorem entryAt?_of_mem {b : Bag} (hb : b ∈ t.bags) {x : Slot × Entry} (hx : x ∈ b.entries.toList) :
    ∃ i, t.entryAt? i x.1 = some x.2 := by
  obtain ⟨i, hi⟩ := List.mem_iff_getElem?.mp hb
  refine ⟨i, ?_⟩
  rw [entryAt?, hi, Option.bind_some]
  exact lookup_of_nodup b.entries.distinct hx

/-- Where no ambiguity is listed, no open entry has more than one candidate. -/
theorem Ordered.size_le_one (h : t.Ordered) (hnone : t.ambiguities = []) {slot : Slot} {e : Entry}
    (he : t.entryAt? i slot = some e) (hl : e.locked = false) : e.candidates.size ≤ 1 := by
  rw [ambiguities_eq, List.map_eq_nil_iff] at hnone
  refine Nat.le_of_not_lt fun hsize => ?_
  have hmem := h.mem_undecided.mpr ⟨he, hl, hsize⟩
  rw [hnone] at hmem
  cases hmem

end BagTree

namespace ClassTable

/-- Before the first sweep there are no conflicts. -/
theorem WellFormed.seed_clear {t : ClassTable} (h : t.WellFormed) : t.seed.Clear := by
  have hobject : TypeName.object ∈ TypeSet.ofList t.context.concreteTypes :=
    TypeSet.mem_ofList.mpr (h.basic_concrete (by decide))
  constructor
  · intro i slot e he
    obtain ⟨b, hb, hx⟩ := BagTree.mem_of_entryAt? he
    obtain ⟨c, _, heq | ⟨f, _, ty, _, span, heq⟩⟩ := mem_seed_entries hb hx
    · rw [show e = Entry.ofType c.name c.span from heq]
      exact Candidates.clear_single _
    · rw [show e = Seed.entry t.context c.name ty span from heq, Seed.entry]
      split
      · exact ⟨⟨_, hobject⟩, rfl⟩
      · split
        · exact Candidates.clear_single _
        · exact Candidates.clear_single _
  · refine ⟨⟨TypeName.object, ?_⟩, rfl⟩
    rw [BagTree.everything, seed_concrete]
    exact hobject

theorem Infers.ambiguities_eq_nil {t : ClassTable} {p : Program} {i : Inference} (h : t.Infers p i)
    (hclean : i.diagnostics = []) : i.tree.ambiguities = [] := by
  refine List.eq_nil_iff_forall_not_mem.mpr fun x hx => ?_
  have hmem : x.toReport ∈ i.diagnostics := by
    rw [h.diagnostics]
    exact Diagnostics.mem_insertAll.mpr (Or.inr (List.mem_map_of_mem hx))
  rw [hclean] at hmem
  cases hmem

section

variable {source : String} {p : Program} (hp : parse source = .ok p) (hc : (typecheck p).diagnostics = [])
  {T : BagTree} {n : Nat} (hT : T = (ofClasses p.classes).swept n (ofClasses p.classes).seed)

include hp hc hT

/-- Where no ambiguity is listed, one concrete type is left for every placeholder. -/
theorem single_of_ambiguities (hnone : T.ambiguities = []) {bag : BagId} {slot : Slot} {e : Entry}
    (he : T.entryAt? bag slot = some e) (hl : e.locked = false) :
    ∃ t ∈ (Context.ofClasses p.classes).concreteTypes, e.candidates.toList = [t] := by
  have hadmits : (ofClasses p.classes).Admits (· ∈ (Context.ofClasses p.classes).concreteTypes) := by
    have hadmits := admits_universe hp hc
    rwa [typecheck_value hc] at hadmits
  have hordered : T.Ordered := by
    rw [hT]
    exact (seed_ordered (seed_distinctOwners hp (Legible.classes_eq _))).evolvesTo (swept_evolvesTo _ _ _)
  have hsize := hordered.size_le_one hnone he hl
  subst hT
  obtain ⟨b, hb, hx⟩ := BagTree.mem_of_entryAt? he
  have hwithin := (swept_within hadmits.seed_covers hadmits.seed_within n).entryAt? he
  obtain ⟨t, ht⟩ := List.length_eq_one_iff.mp
    (Nat.le_antisymm hsize (List.length_pos_of_ne_nil (hadmits.wellFormed.swept_nonempty n hb hx hl)))
  refine ⟨t, hwithin t ?_, ht⟩
  rw [← TypeSet.mem_toList, ht]
  exact List.mem_cons_self

theorem filled_fillClasses :
    List.Forall₂ (ClassDecl.Filled (Context.ofClasses p.classes).concreteTypes) p.classes
      (T.fillClasses p.classes) := by
  have hclasses := isSome_bagOf?_swept hc n
  have hrecords := records_swept hp hc n
  rw [typecheck_value hc] at hclasses hrecords
  rw [hT]
  exact BagTree.filled_fill hclasses hrecords

/-- All that a clean result says about the tree that it comes from. -/
theorem cleared_of_clean (hself : ∀ c ∈ p.classes, ∀ a ∈ c.attributes, a.name ≠ selfName)
    (hparams : ∀ c ∈ p.classes, ∀ m ∈ c.methods, (m.params.map (·.name)).Nodup) (hnone : T.ambiguities = [])
    (hfinal : (typecheck ⟨T.fillClasses p.classes⟩).diagnostics = []) : Cleared p.classes T := by
  have hfilled := filled_fillClasses hp hc hT
  have hcontext := Context.filled_ofClasses hfilled
  have hparent : (Context.ofClasses (T.fillClasses p.classes)).Parent =
      (Context.ofClasses p.classes).Parent := by
    funext a b
    rw [Context.Parent, Context.Parent, hcontext.parent?]
  have hfitting := (build_fitting (reports_of_typecheck hfinal).1).1
  have hevolved : (ofClasses p.classes).seed.EvolvesTo T := hT ▸ swept_evolvesTo _ _ _
  have hdistinct : (ofClasses p.classes).seed.DistinctOwners := seed_distinctOwners hp (Legible.classes_eq _)
  exact {
    fitting := (build_fitting (reports_of_typecheck hc).1).1
    regular := by
      have hregular := typecheck_regular hp hc
      rwa [typecheck_value hc] at hregular
    selfless := hself
    distinct := hdistinct
    evolved := hevolved
    single := single_of_ambiguities hp hc hT hnone
    descends := by rw [Context.Descends, Context.Descends, hparent]
    concrete := hcontext.concrete_iff.symm
    attributes := by
      intro D a' ha'
      obtain ⟨c', hc', rfl, d, hd, rfl⟩ := mem_ownAttributes ha'
      obtain ⟨c, hmem, rfl⟩ := List.mem_map.mp hc'
      obtain ⟨bag, hbag⟩ := nestedClass_seed hdistinct hevolved (show c ∈ (ofClasses p.classes).classes by
        rwa [Legible.classes_eq])
      rw [Cleared.fillClass_eq hbag.placed] at hd ⊢
      obtain ⟨f', hf', hd⟩ := List.mem_filterMap.mp hd
      obtain ⟨f, hf, rfl⟩ := List.mem_map.mp hf'
      cases f with
      | method m => cases hd
      | attr a =>
          cases hd
          have hfound : T.bagOf? c.id = some bag := hbag.placed.found
          exact ⟨c, hmem, rfl, a, List.mem_filterMap.mpr ⟨_, hf, rfl⟩, rfl, by rw [hfound]; rfl⟩
    filledFitting := hfitting
    filledRegular := by
      refine hfitting.regular fun c' hc' herror => ?_
      obtain ⟨c, hmem, hcc'⟩ := forall₂_mem_right hfilled hc'
      exact ((parse_capitalized hp c hmem).parent _ (hcc'.parent.trans herror)).ne_error rfl
    writes := fun c hmem => (parse_capitalized hp c hmem).mono fun _ h => h.ne_error
    params := hparams
    clean := by
      intro c hmem
      have hclean := (reports_of_typecheck hfinal).2
      rw [hfitting.build_eq, check, Reporting.reports_forM, List.flatMap_eq_nil_iff, classes_all] at hclean
      exact hclean _ (List.mem_map_of_mem hmem) }

end

end ClassTable

/-- Where inference and the check of its result report nothing, no uses conflict in the bags at the end, and
one candidate is left for every placeholder. -/
theorem unambiguous_of_isClean {source : String} {p : Program} {options : Options} {a : Analysis} {i : Inference}
    (hp : parse source = .ok p) (hparams : ∀ c ∈ p.classes, ∀ m ∈ c.methods, (m.params.map (·.name)).Nodup)
    (hself : ∀ c ∈ p.classes, ∀ d ∈ c.attributes, d.name ≠ selfName) (ha : analyze p options = .ok a)
    (hi : a.inferred = some i) (hclean : a.isClean = true) :
    ∀ b ∈ i.tree.bags, ∀ x ∈ b.entries.toList,
      x.2.ambiguous = false ∧ (x.2.locked = false → ∃ t, x.2.candidates.toList = [t]) := by
  obtain ⟨hchecked, hinfers, rfl⟩ := analyze_inferred ha hi
  rw [ClassTable.typecheck_value hchecked] at hinfers
  obtain ⟨n, -, htree⟩ := hinfers.settled
  simp only [Analysis.isClean, Analysis.allErrors, Analysis.inferenceErrors, Option.elim_some, List.isEmpty_iff,
    List.nil_append, List.append_eq_nil_iff] at hclean
  have hfinal := hclean.2
  rw [hinfers.program] at hfinal
  have hcleared := ClassTable.cleared_of_clean hp hchecked htree hself hparams
    (hinfers.ambiguities_eq_nil hclean.1) hfinal
  have hsingle : i.tree.Single := fun he hl => by
    obtain ⟨t, _, ht⟩ := hcleared.single he hl
    exact ⟨t, ht⟩
  have hclear : i.tree.Clear := by
    refine (ClassTable.swept_clear hsingle ?_ hcleared.acceptable_constraints n _ htree.symm).2 ?_
    · rw [Legible.classes_eq]
      exact parse_hasArms hp
    · exact hcleared.fitting.wellFormed.seed_clear
  intro b hb x hx
  obtain ⟨bag, he⟩ := BagTree.entryAt?_of_mem hb hx
  exact ⟨(hclear.entries he).unambiguous, hsingle he⟩

/-- The text of a class with two methods, one of which gives a value of the other to its parameter. -/
def steppingText : String :=
  "class A \x7b f(x : AUTO_TYPE) : AUTO_TYPE \x7b x + 1 \x7d; " ++
    "g(y : AUTO_TYPE) : AUTO_TYPE \x7b y <- f(y) \x7d; \x7d;"

def stepping : Program :=
  ⟨[⟨0, "A", none, [
    .method ⟨1, "f", [⟨"x", TypeName.auto, ⟨12, 25⟩⟩], TypeName.auto,
      .binary ⟨41, 46⟩ .add (.ident ⟨41, 42⟩ "x") (.int ⟨45, 46⟩ 1), ⟨10, 48⟩⟩,
    .method ⟨2, "g", [⟨"y", TypeName.auto, ⟨52, 65⟩⟩], TypeName.auto,
      .assign ⟨81, 90⟩ "y" (.dispatch ⟨86, 90⟩ none "f" [.ident ⟨88, 89⟩ "y"]), ⟨50, 92⟩⟩], ⟨0, 96⟩⟩]⟩

theorem stepping_unambiguous : ∃ a i, parse steppingText = .ok stepping ∧
    (∀ c ∈ stepping.classes, ∀ m ∈ c.methods, (m.params.map (·.name)).Nodup) ∧
    (∀ c ∈ stepping.classes, ∀ d ∈ c.attributes, d.name ≠ selfName) ∧
    analyze stepping ⟨true, none⟩ = .ok a ∧ a.inferred = some i ∧ a.isClean = true ∧
    ∀ b ∈ i.tree.bags, ∀ x ∈ b.entries.toList,
      x.2.ambiguous = false ∧ (x.2.locked = false → ∃ t, x.2.candidates.toList = [t]) := by
  have hp : parse steppingText = .ok stepping := by cbv
  have hparams : ∀ c ∈ stepping.classes, ∀ m ∈ c.methods, (m.params.map (·.name)).Nodup := by decide
  have hself : ∀ c ∈ stepping.classes, ∀ d ∈ c.attributes, d.name ≠ selfName := by decide
  obtain ⟨a, ha, hruns⟩ := exists_analysis (P := fun a => a.inferred.isSome && a.isClean)
    (p := stepping) (o := ⟨true, none⟩) (by decide +kernel)
  obtain ⟨hsome, hclean⟩ := Bool.and_eq_true_iff.mp hruns
  obtain ⟨i, hi⟩ := Option.isSome_iff_exists.mp hsome
  exact ⟨a, i, hp, hparams, hself, ha, hi, hclean, unambiguous_of_isClean hp hparams hself ha hi hclean⟩

end CoolTyping
