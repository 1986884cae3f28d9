import CoolTyping.Proofs.Cycles
import CoolTyping.Proofs.Elimination
import CoolTyping.Proofs.Insensitivity
import CoolTyping.Proofs.Preorder
import Mathlib

/-!
# What is reported as ambiguous

Listed are the entries that are not locked and have more than one candidate left, each once, in the order of
their bags. The declarations of a program start at different places, so no two of the reports about them are
the same, and none is dropped as repeated.
-/

namespace CoolTyping

/-! ## Reports that are all different -/

namespace Diagnostics

variable {d rs : List Report}

theorem nodup_insertAll (h : d.Nodup) : (insertAll d rs).Nodup := by
  unfold insertAll
  induction rs generalizing d with
  | nil => exact h
  | cons r rs ih =>
      refine ih ?_
      unfold insert
      split
      · exact h
      · rename_i hr
        exact List.nodup_append.mpr ⟨h, List.nodup_singleton r, by
          intro a ha b hb heq
          rw [List.mem_singleton.mp hb] at heq
          exact hr (heq ▸ ha)⟩

theorem nodup_ofReports (rs : List Report) : (ofReports rs).Nodup := nodup_insertAll List.nodup_nil

end Diagnostics

/-! ## The starts of entries -/

/-- Where the declarations start that the entries of a bag stand for. -/
def Bag.starts (b : Bag) : List Nat := b.entries.toList.map (·.2.span.start)

namespace BagTree

variable {t u : BagTree} {i j : BagId} {slot slot' : Slot} {e f : Entry}

/-- No two entries stand for declarations with the same start. -/
def DistinctStarts (t : BagTree) : Prop := (t.bags.flatMap Bag.starts).Nodup

theorem EvolvesTo.starts (h : t.EvolvesTo u) : u.bags.map Bag.starts = t.bags.map Bag.starts :=
  pointwise_map (fun _ _ hab => pointwise_map (fun _ _ hxy => by rw [hxy.2.span]) hab.entries) h.bags

theorem DistinctStarts.evolvesTo (h : t.DistinctStarts) (hu : t.EvolvesTo u) : u.DistinctStarts := by
  rw [DistinctStarts, List.flatMap_def, hu.starts, ← List.flatMap_def]
  exact h

/-- An entry is told by its span. -/
theorem DistinctStarts.eq_of_span (h : t.DistinctStarts) (he : t.entryAt? i slot = some e)
    (hf : t.entryAt? j slot' = some f) (hspan : e.span = f.span) : i = j ∧ slot = slot' := by
  obtain ⟨hbag, hbags⟩ := List.nodup_flatMap.mp h
  obtain ⟨a, ha, hx⟩ := Option.bind_eq_some_iff.mp he
  obtain ⟨b, hb, hy⟩ := Option.bind_eq_some_iff.mp hf
  rw [Entries.get?_eq_some_iff] at hx hy
  have hxa : e.span.start ∈ a.starts := List.mem_map.mpr ⟨_, hx, rfl⟩
  have hyb : e.span.start ∈ b.starts := List.mem_map.mpr ⟨_, hy, by rw [hspan]⟩
  obtain ⟨hi, rfl⟩ := List.getElem?_eq_some_iff.mp ha
  obtain ⟨hj, rfl⟩ := List.getElem?_eq_some_iff.mp hb
  have hij : i = j := by
    rcases Nat.lt_trichotomy i j with hlt | heq | hlt
    · exact absurd hyb (List.pairwise_iff_getElem.mp hbags i j hi hj hlt hxa)
    · exact heq
    · exact absurd hxa (List.pairwise_iff_getElem.mp hbags j i hj hi hlt hyb)
  subst hij
  have hxy := List.inj_on_of_nodup_map (hbag _ (List.getElem_mem hi)) hx hy (by rw [hspan])
  exact ⟨rfl, congrArg Prod.fst hxy⟩

end BagTree

namespace Seed

@[simp] theorem entry_span (ctx : Context) (current ty : TypeName) (span : Span) :
    (entry ctx current ty span).span = span := by
  unfold entry
  split
  · rfl
  · split <;> rfl

/-- The start of a feature itself. -/
def featureStart : Feature → Nat
  | .attr a => a.span.start
  | .method m => m.span.start

theorem featureStarts_perm (fs : List Feature) :
    ((fs.filterMap Feature.attr?).map (·.span.start) ++
      (fs.filterMap Feature.method?).map (·.span.start)).Perm (fs.map featureStart) := by
  induction fs with
  | nil => exact .refl _
  | cons f fs ih =>
      cases f with
      | attr a => exact ih.cons a.span.start
      | method m => exact List.perm_middle.trans (ih.cons m.span.start)

/-- The entries that the scopes of a class start with stand for the class and for its declarations. -/
theorem starts_classOpeners (ctx : Context) (c : ClassDecl) :
    ((classOpeners c).flatMap fun o => (o.entries ctx c).map (·.2.span.start)).Perm c.starts := by
  have hbinders : ∀ bs : List Binder, ((openers bs).flatMap fun o => (o.entries ctx c).map (·.2.span.start)) =
      bs.map (·.span.start) := by
    intro bs
    simp only [openers, Opener.entries, List.flatMap_map, List.map_cons, List.map_nil, entry_span]
    exact List.map_eq_flatMap.symm
  have hfeature : ∀ f : Feature, f.starts =
      featureStart f :: (featureOpeners f).flatMap fun o => (o.entries ctx c).map (·.2.span.start) := by
    intro f
    cases f with
    | attr a =>
        rw [featureOpeners, hbinders, Feature.starts]
        cases a.init <;> rfl
    | method m =>
        rw [featureOpeners, List.flatMap_cons, hbinders, Feature.starts, Expr.starts]
        simp [featureStart, Opener.entries, Function.comp_def]
  rw [classOpeners, List.flatMap_cons, ClassDecl.starts, List.flatMap_assoc, funext hfeature]
  refine .trans ?_ ((List.map_append_flatMap_perm _ _ _).cons c.span.start)
  simp only [Opener.entries, List.cons_append, List.map_cons, List.map_append, List.map_map,
    Function.comp_def, entry_span]
  exact ((featureStarts_perm c.features).append_right _).cons _

/-- A bag keeps some of the entries that its scope starts with. -/
theorem Opens.starts_sublist {ctx : Context} {c : ClassDecl} {o : Opener} {b : Bag} (h : Opens ctx c o b) :
    b.starts.Sublist ((o.entries ctx c).map (·.2.span.start)) := by
  rw [Bag.starts, h.entries]
  exact (Entries.defineAll_sublist _ _).map _

end Seed

/-- In the first tree of a program whose declarations start at different places, so do the entries. -/
theorem ClassTable.seed_distinctStarts {t : ClassTable} (h : (t.classes.flatMap ClassDecl.starts).Nodup) :
    t.seed.DistinctStarts := by
  obtain ⟨_, added, order, hbags, hperm, hopens⟩ := t.seed_adds
  let starts (x : ClassDecl × Seed.Opener) : List Nat := (x.2.entries t.context x.1).map (·.2.span.start)
  have hkept : (added.flatMap Bag.starts).Sublist (order.flatMap starts) := by
    clear hperm hbags
    induction hopens with
    | nil => exact .refl _
    | cons hopened _ ih => exact hopened.starts_sublist.append ih
  have hall : (order.flatMap starts).Perm (t.classes.flatMap ClassDecl.starts) := by
    refine (hperm.flatMap_right starts).trans ?_
    simp only [List.flatMap_assoc, List.flatMap_map]
    exact List.Perm.flatMap_left _ fun c _ => Seed.starts_classOpeners t.context c
  rw [BagTree.DistinctStarts, hbags]
  exact (hall.nodup_iff.mpr h).sublist hkept

/-! ## The list of ambiguities -/

/-- The ambiguity is about an entry `e` for `slot`. -/
structure Ambiguity.IsOf (a : Ambiguity) (slot : Slot) (e : Entry) : Prop where
  name : a.name = slot.name
  span : a.span = e.span
  candidates : a.candidates.Perm e.candidates.toList
  ascending : a.candidates.Pairwise (· < ·)

namespace BagTree

variable {t : BagTree} {names : List TypeName}

/-- `places` are the entries that are not locked and have more than one candidate, each once, class by class,
and in a bag before those inside it. -/
structure Lists (t : BagTree) (names : List TypeName) (places : List (BagId × Slot × Entry)) : Prop where
  mem_iff : ∀ {i slot e}, (i, slot, e) ∈ places ↔
    t.entryAt? i slot = some e ∧ e.locked = false ∧ 1 < e.candidates.size
  nodup : places.Nodup
  named : ∀ x ∈ places, t.classOf x.1 ∈ names
  byClass : places.Pairwise fun x y => names.idxOf (t.classOf x.1) ≤ names.idxOf (t.classOf y.1)
  outerFirst : places.Pairwise fun x y => y.1 ∈ t.enclosing x.1 → y.1 = x.1

/-- The entries of one bag with more than one candidate. -/
def undecidedIn (t : BagTree) (i : BagId) : List (BagId × Slot × Entry) :=
  (t.bags[i]?).elim [] fun b =>
    (b.entries.toList.filter fun x => !x.2.locked && x.2.candidates.size > 1).map (i, ·)

/-- The entries of all bags with more than one candidate. -/
def undecided (t : BagTree) : List (BagId × Slot × Entry) := t.preorder.flatMap t.undecidedIn

theorem mem_undecidedIn {i : BagId} {x : BagId × Slot × Entry} : x ∈ t.undecidedIn i ↔
    x.1 = i ∧ t.entryAt? i x.2.1 = some x.2.2 ∧ x.2.2.locked = false ∧ 1 < x.2.2.candidates.size := by
  obtain ⟨j, slot, e⟩ := x
  rw [undecidedIn, entryAt?]
  cases t.bags[i]? with
  | none => simp
  | some b =>
      rw [Option.elim_some, Option.bind_some, Entries.get?_eq_some_iff, List.mem_map]
      constructor
      · rintro ⟨x, hx, heq⟩
        obtain ⟨hmem, hopen⟩ := List.mem_filter.mp hx
        cases heq
        exact ⟨rfl, hmem, by simpa using hopen⟩
      · rintro ⟨rfl, hmem, hlocked, hsize⟩
        refine ⟨(slot, e), List.mem_filter.mpr ⟨hmem, ?_⟩, rfl⟩
        simpa using And.intro hlocked hsize

theorem nodup_undecidedIn (t : BagTree) (i : BagId) : (t.undecidedIn i).Nodup := by
  rw [undecidedIn]
  cases t.bags[i]? with
  | none => exact List.nodup_nil
  | some b =>
      refine List.Nodup.map (Prod.mk_right_injective i) (List.Nodup.filter _ ?_)
      exact b.entries.distinct.of_map _

/-- The entries come in the order of their bags. -/
theorem pairwise_undecided {R : BagId → BagId → Prop} (h : t.preorder.Pairwise R) (hR : ∀ i, R i i) :
    t.undecided.Pairwise fun x y => R x.1 y.1 := by
  refine List.pairwise_flatMap.mpr ⟨fun i _ => ?_, h.imp fun hij x hx y hy => ?_⟩
  · refine List.pairwise_of_forall_mem_list fun x hx y hy => ?_
    rw [(mem_undecidedIn.mp hx).1, (mem_undecidedIn.mp hy).1]
    exact hR i
  · rw [(mem_undecidedIn.mp hx).1, (mem_undecidedIn.mp hy).1]
    exact hij

theorem Ordered.mem_undecided (ho : t.Ordered) {i : BagId} {slot : Slot} {e : Entry} :
    (i, slot, e) ∈ t.undecided ↔ t.entryAt? i slot = some e ∧ e.locked = false ∧ 1 < e.candidates.size := by
  rw [undecided, List.mem_flatMap]
  constructor
  · rintro ⟨j, -, hmem⟩
    obtain ⟨rfl, h⟩ := mem_undecidedIn.mp hmem
    exact h
  · intro h
    obtain ⟨b, hb, -⟩ := Option.bind_eq_some_iff.mp h.1
    have hi := (List.getElem?_eq_some_iff.mp hb).1
    exact ⟨i, ho.mem_preorder hi, mem_undecidedIn.mpr ⟨rfl, h⟩⟩

theorem Ordered.undecided_lists (ho : t.Ordered) (hc : t.ByClass names) : t.Lists names t.undecided where
  mem_iff := ho.mem_undecided
  nodup := by
    refine List.nodup_flatMap.mpr ⟨fun i _ => t.nodup_undecidedIn i, ho.pairwise_preorder.imp ?_⟩
    intro i j hij x hx hx'
    have heq : i = j := (mem_undecidedIn.mp hx).1.symm.trans (mem_undecidedIn.mp hx').1
    exact hij (heq ▸ ho.self_mem_enclosing i)
  named x hx := by
    obtain ⟨i, -, hx⟩ := List.mem_flatMap.mp hx
    obtain ⟨rfl, he, -⟩ := mem_undecidedIn.mp hx
    obtain ⟨b, hb, -⟩ := Option.bind_eq_some_iff.mp he
    exact hc.named (List.getElem?_eq_some_iff.mp hb).1
  byClass := pairwise_undecided hc.pairwise_preorder fun _ => Nat.le_refl _
  outerFirst := pairwise_undecided (R := fun i j => j ∈ t.enclosing i → j = i)
    (ho.pairwise_preorder.imp fun h hmem => absurd hmem h) fun _ _ => rfl

end BagTree

namespace Ambiguity

/-- What is said of the entry `e` for `slot`. -/
def about (slot : Slot) (e : Entry) : Ambiguity :=
  ⟨slot.name, e.candidates.toList.mergeSort fun a b => !decide (b < a), e.span⟩

theorem about_isOf (slot : Slot) (e : Entry) : (about slot e).IsOf slot e where
  name := rfl
  span := rfl
  candidates := List.mergeSort_perm _ _
  ascending := by
    have hle : ∀ a b : TypeName, (!decide (b < a)) = true ↔ a ≤ b := fun a b => by
      rw [Bool.not_eq_true', decide_eq_false_iff_not, not_lt]
    have hsorted := @List.pairwise_mergeSort TypeName (fun a b => !decide (b < a))
      (fun a b c hab hbc => (hle a c).mpr (((hle a b).mp hab).trans ((hle b c).mp hbc)))
      (fun a b => by rw [Bool.or_eq_true, hle, hle]; exact le_total a b) e.candidates.toList
    have hnodup : (about slot e).candidates.Nodup := (List.mergeSort_perm _ _).nodup_iff.mpr e.candidates.nodup
    exact (hsorted.and hnodup).imp fun h => lt_of_le_of_ne ((hle _ _).mp h.1) h.2

end Ambiguity

theorem Entry.ambiguity?_eq (slot : Slot) (e : Entry) : e.ambiguity? slot =
    if (!e.locked && e.candidates.size > 1) = true then some (Ambiguity.about slot e) else none :=
  rfl

namespace BagTree

variable {t : BagTree}

theorem ambiguities_eq (t : BagTree) :
    t.ambiguities = t.undecided.map fun x => Ambiguity.about x.2.1 x.2.2 := by
  rw [ambiguities, undecided, List.map_flatMap]
  congr 1
  funext i
  rw [undecidedIn]
  cases t.bags[i]? with
  | none => rfl
  | some b =>
      rw [Option.elim_some, Option.elim_some, List.map_map]
      induction b.entries.toList with
      | nil => rfl
      | cons x xs ih =>
          rw [List.filterMap_cons, List.filter_cons, ih]
          dsimp only
          rw [Entry.ambiguity?_eq]
          by_cases hopen : (!x.2.locked && x.2.candidates.size > 1) = true
          · rw [if_pos hopen, if_pos hopen]
            rfl
          · rw [if_neg hopen, if_neg hopen]

/-- The reports about the ambiguities of a tree are all different, as their places are. -/
theorem DistinctStarts.nodup_ambiguities (h : t.DistinctStarts) {names : List TypeName}
    (hlists : t.Lists names t.undecided) : (t.ambiguities.map Ambiguity.toReport).Nodup := by
  rw [ambiguities_eq, List.map_map]
  refine List.Nodup.map_on (fun x hx y hy heq => ?_) hlists.nodup
  have hspan : x.2.2.span = y.2.2.span := congrArg Report.span heq
  have hx := (hlists.mem_iff.mp hx).1
  have hy := (hlists.mem_iff.mp hy).1
  obtain ⟨hbag, hslot⟩ := h.eq_of_span hx hy hspan
  rw [hbag, hslot, hy] at hx
  exact Prod.ext hbag (Prod.ext hslot (Option.some.inj hx).symm)

end BagTree

namespace ClassTable

/-- A sweep reports nothing but calls that no method fits. -/
theorem sweep_reports (t : ClassTable) (T : BagTree) : ∀ r ∈ (t.sweep T).2,
    ∃ receiver method arity, r.error = .noMethodCandidate receiver method arity := by
  intro r hr
  obtain ⟨_, _, call, hcall, _⟩ := forall₂_mem_left (sweep_alike (t := t) (.refl T)).2 hr
  unfold Report.call? at hcall
  split at hcall
  · exact ⟨_, _, _, ‹_›⟩
  · cases hcall

/-- The reports of a sweep and those about ambiguities are all different. -/
theorem nodup_reports (t : ClassTable) {T : BagTree} {names : List TypeName} (hstarts : T.DistinctStarts)
    (hlists : T.Lists names T.undecided) :
    (t.finalDiagnostics T ++ T.ambiguities.map Ambiguity.toReport).Nodup := by
  refine List.nodup_append.mpr
    ⟨Diagnostics.nodup_ofReports _, hstarts.nodup_ambiguities hlists, fun r hr r' hr' heq => ?_⟩
  obtain ⟨receiver, method, arity, herror⟩ := t.sweep_reports T r (Diagnostics.mem_ofReports.mp hr)
  obtain ⟨a, _, rfl⟩ := List.mem_map.mp hr'
  rw [heq] at herror
  cases herror

/-- Inference lists all that it left undecided, and reports each once behind the calls that no method fits. -/
theorem infer_ambiguities {source : String} {p : Program} {maxSweeps : Option Nat} {i : Inference}
    (hp : parse source = .ok p) (hc : (typecheck p).diagnostics = [])
    (hi : (typecheck p).value.infer p maxSweeps = .ok i) :
    (∃ places, i.tree.Lists (p.classes.map (·.name)) places ∧
      List.Forall₂ (fun x a => a.IsOf x.2.1 x.2.2) places i.ambiguities) ∧
    ∃ reports, (typecheck p).value.reduce maxSweeps (typecheck p).value.seed =
        (.ok ⟨i.sweeps, reports⟩, i.tree) ∧
      ((typecheck p).value.sweep i.tree).1 = i.tree ∧
      reports = .ofReports ((typecheck p).value.sweep i.tree).2 ∧
      (∀ r ∈ reports, ∃ receiver method arity, r.error = .noMethodCandidate receiver method arity) ∧
      i.diagnostics =
        reports ++ i.ambiguities.map (fun a => ⟨.ambiguousType a.name a.candidates, a.span⟩) ∧
      i.diagnostics.Nodup := by
  have hclasses := typecheck_classes hc
  have hU := seed_distinctOwners hp hclasses
  unfold infer at hi
  split at hi
  · cases hi
  rename_i reduction T hreduce
  cases hi
  obtain ⟨n, hsettles, htree, rfl⟩ := settlesAt_of_reduce hreduce
  have hevolved : (typecheck p).value.seed.EvolvesTo T := htree ▸ swept_evolvesTo _ _ _
  have hsettled : ((typecheck p).value.sweep T).1 = T :=
    htree ▸ settlesAt_zero.mp hsettles.settlesAt_zero
  have hbyClass : T.ByClass (p.classes.map (·.name)) :=
    hclasses ▸ ((admits_universe hp hc).wellFormed.seed_byClass hU).evolvesTo hevolved
  have hlists := ((seed_ordered hU).evolvesTo hevolved).undecided_lists hbyClass
  have hstarts : (typecheck p).value.seed.DistinctStarts :=
    seed_distinctStarts (hclasses.symm ▸ parse_starts hp)
  have hnodup := (typecheck p).value.nodup_reports (hstarts.evolvesTo hevolved) hlists
  have hdiagnostics := Diagnostics.insertAll_of_nodup hnodup
  refine ⟨⟨T.undecided, hlists, ?_⟩, (typecheck p).value.finalDiagnostics T, hreduce, hsettled, rfl, ?_,
    hdiagnostics, hdiagnostics ▸ hnodup⟩
  · rw [show T.ambiguities = _ from T.ambiguities_eq, List.forall₂_map_right_iff]
    exact List.forall₂_same.mpr fun x _ => Ambiguity.about_isOf x.2.1 x.2.2
  · exact fun r hr => sweep_reports _ T r (Diagnostics.mem_ofReports.mp hr)

/-- The text of two classes with placeholders that nothing decides, and a call that no method fits. -/
def openText : String :=
  "class B \x7b x : AUTO_TYPE; g(y : AUTO_TYPE) : Object \x7b let z : AUTO_TYPE in z.nothing(y) \x7d; \x7d;" ++
    " class A \x7b h(v : AUTO_TYPE) : Object \x7b v \x7d; \x7d;"

def openClasses : Program :=
  ⟨[⟨0, "B", none, [
      .attr ⟨"x", TypeName.auto, none, ⟨10, 23⟩⟩,
      .method ⟨1, "g", [⟨"y", TypeName.auto, ⟨27, 40⟩⟩], "Object",
        .letIn ⟨53, 86⟩ [(⟨2, "z", TypeName.auto, ⟨57, 70⟩⟩, none)]
          (.dispatch ⟨74, 86⟩ (some (.ident ⟨74, 75⟩ "z")) "nothing" [.ident ⟨84, 85⟩ "y"]), ⟨25, 88⟩⟩],
      ⟨0, 92⟩⟩,
    ⟨3, "A", none, [
      .method ⟨4, "h", [⟨"v", TypeName.auto, ⟨105, 118⟩⟩], "Object", .ident ⟨131, 132⟩ "v", ⟨103, 134⟩⟩],
      ⟨93, 138⟩⟩]⟩

theorem openClasses_ambiguities : ∃ i, parse openText = .ok openClasses ∧
    (typecheck openClasses).diagnostics = [] ∧ (typecheck openClasses).value.infer openClasses none = .ok i ∧
    i.ambiguities.map (·.name) = ["x", "y", "z", "v"] ∧ i.diagnostics.length = 5 ∧
    (∃ places, i.tree.Lists ["B", "A"] places ∧
      List.Forall₂ (fun x a => a.IsOf x.2.1 x.2.2) places i.ambiguities) ∧
    ∃ reports, (∀ r ∈ reports, ∃ receiver method arity, r.error = .noMethodCandidate receiver method arity) ∧
      i.diagnostics = reports ++ i.ambiguities.map (fun a => ⟨.ambiguousType a.name a.candidates, a.span⟩) ∧
      i.diagnostics.Nodup := by
  have hp : parse openText = .ok openClasses := by cbv
  have hc : (typecheck openClasses).diagnostics = [] := by decide +kernel
  have hruns : ((typecheck openClasses).value.infer openClasses none).toOption.any (fun i =>
      i.ambiguities.map (·.name) == ["x", "y", "z", "v"] && i.diagnostics.length == 5) = true := by
    decide +kernel
  cases hi : (typecheck openClasses).value.infer openClasses none with
  | error e => rw [hi] at hruns; cases hruns
  | ok i =>
      rw [hi] at hruns
      obtain ⟨hnames, hlength⟩ := Bool.and_eq_true_iff.mp hruns
      obtain ⟨hplaces, reports, -, -, -, hreports⟩ := infer_ambiguities hp hc hi
      exact ⟨i, hp, hc, rfl, beq_iff_eq.mp hnames, beq_iff_eq.mp hlength, hplaces, reports, hreports⟩

end ClassTable

end CoolTyping
