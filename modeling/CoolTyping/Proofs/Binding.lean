import CoolTyping.Proofs.Conflicts
import CoolTyping.Proofs.Naming
import CoolTyping.Proofs.Recording
import CoolTyping.Proofs.Rounds
import Mathlib

/-!
# Scopes and bags bind the same names

The strict check and the sweeps go through the same expressions in the same order. Where the check has a
variable in sight, the bag in which a sweep visits the expression leads to an entry for it, and the other
way around.
-/

namespace CoolTyping

open Sweep (After Keeps)
open Recorded (Follows)

/-- The check and the sweep are at the same expression, with the same variables in sight. -/
def Visit.Matches (ctx : Context) (v : Visit) (g : Sighting) : Prop :=
  v.expr = g.expr ∧ ∀ name, (v.env.scope.lookup? name).isSome = true ↔
    (g.tree.resolve? ctx g.bag (.var name)).isSome = true

theorem Names.mem_declareAll {N : Names} {names : List String} {x : String} :
    x ∈ (N.declareAll names).bound ↔ x ∈ names ∨ x ∈ N.bound := by
  induction names generalizing N with
  | nil => simp [declareAll]
  | cons name names ih =>
      rw [declareAll, List.foldl_cons, ← declareAll, ih]
      simp [declare, or_left_comm, or_assoc]

theorem BagTree.isSome_get?_of_resolve? {t : BagTree} {ctx : Context} {i : BagId} {slot : Slot}
    (h : (t.resolve? ctx i slot).isSome = true) : (t.get? ctx i slot).isSome = true := by
  obtain ⟨j, hj⟩ := Option.isSome_iff_exists.mp h
  have hhas : t.has j slot = true := by
    rcases Option.or_eq_some_iff.mp hj with hj | ⟨_, hj⟩ <;> simpa using List.find?_some hj
  rw [get?, hj]
  exact isSome_entryAt?_of_has hhas

/-- The types of a variable with an entry are read off the entry. -/
theorem Sweep.visit_ident_of_get? {Γ : Sweep.Env} {s : State} {bag : BagId} {r : Option Candidates}
    {span : Span} {name : String} {entry : Entry}
    (h : s.tree.get? Γ.context bag (.var name) = some entry) :
    result (visit Γ bag r (.ident span name)) s = entry.snapshot := by
  have hsnapshot : snapshot Γ bag (.var name) s = (some entry.snapshot, s) := by
    change ((s.tree.get? Γ.context bag (.var name)).map Entry.snapshot, s) = _
    rw [h, Option.map_some]
  rw [result, visit]
  change (StateT.bind (snapshot Γ bag (.var name)) _ s).1 = _
  rw [StateT.bind, hsnapshot]
  rfl

/-- In the bag, which lies in the class `c`, just the variables in sight have entries. -/
structure Env.Bound (ctx : Context) (T : BagTree) (c : ClassDecl) (Γ : Env) (bag : BagId) : Prop where
  inClass : T.classOf bag = c.name
  names : ∀ x, x ∈ Γ.names.bound ↔ (T.resolve? ctx bag (.var x)).isSome = true

namespace Env.Bound

open Seed

variable {ctx : Context} {T : BagTree} {c : ClassDecl} {Γ : Env} {bag inner : BagId}

theorem nested (h : Γ.Bound ctx T c bag) : Γ.nested.Bound ctx T c bag := ⟨h.inClass, h.names⟩

/-- The variables of a scope come into sight. -/
theorem placed (h : Γ.Bound ctx T c bag) (hT : T.Ordered) {o : Opener} {Δ : Env}
    (ho : Placed ctx T c o (some bag) inner)
    (hΔ : ∀ x, x ∈ Δ.names.bound ↔ .var x ∈ (o.entries ctx c).map (·.1) ∨ x ∈ Γ.names.bound) :
    Δ.Bound ctx T c inner where
  inClass := ho.inClass
  names x := by
    rw [hΔ, h.names, ← ho.holds.has, hT.resolve?_eq ctx _ ho.parent (ho.inClass.trans h.inClass.symm)]
    cases T.has inner (.var x) <;> simp

theorem declare (h : Γ.Bound ctx T c bag) (hT : T.Ordered) {b : Binder}
    (hb : Placed ctx T c (.ofBinder b) (some bag) inner) (ty : TypeName) :
    (Γ.declare b.name ty).Bound ctx T c inner :=
  h.placed hT hb fun x => by simp [Names.declare, Opener.entries]

theorem methodEnv (h : Γ.Bound ctx T c bag) (hT : T.Ordered) {m : MethodDecl}
    (hm : Placed ctx T c (.ofMethod m) (some bag) inner) : (methodEnv Γ m).Bound ctx T c inner :=
  h.placed hT hm fun x => by
    rw [names_methodEnv, Names.inMethod, Names.mem_declareAll]
    simp [Opener.entries]

/-- However far the sweep has come, the bag leads to the same entries. -/
theorem matches_note (h : Γ.Bound ctx T c bag) (rs : List Report) (e : Expr) {s : Sweep.State}
    (hs : T.EvolvesTo s.tree) : Visit.Matches ctx ⟨rs, Γ, e⟩ ⟨bag, s.tree, e⟩ := by
  refine ⟨rfl, fun name => ?_⟩
  rw [hs.resolve?, ← h.names, Scope.isSome_lookup?, List.contains_iff_mem]
  rfl

end Env.Bound

/-! ## Expressions -/

namespace Sweep

open Seed

variable {ctx : Context} {T : BagTree} {c : ClassDecl}

theorem scopeBag_finds (b : Binder) (bag : BagId) :
    Keeps (After (fun _ => True) ⟨T, []⟩) (scopeBag b.id bag)
      (fun inner => inner = Constraint.scopeOf T bag b) := by
  refine Keeps.get.bind fun s hs => .pure ?_
  rw [hs.tree.bagOf?]
  rfl

mutual

/-- A sweep visits the parts of an expression as the check does. -/
theorem record_follows (hT : T.Ordered) {Γ : CoolTyping.Env} {bag : BagId} (hΓ : Γ.Bound ctx T c bag)
    (rs : List Report) {r : Option Candidates} :
    (e : Expr) → Nested ctx T c bag e → Follows (After (fun _ => True) ⟨T, []⟩) (Visit.Matches ctx)
      (record ⟨ctx, c.name⟩ bag r e) (visits rs Γ e) (fun _ => True)
  | e, he => by
      unfold record visits
      apply Follows.note fun s hs => hΓ.matches_note rs e hs.tree
      cases e with
      | int span value => exact .pure trivial
      | str span value => exact .pure trivial
      | bool span value => exact .pure trivial
      | ident span name =>
          apply Follows.step (snapshot_keeps _)
          intro o _
          cases o with
          | none => exact .last everything_keeps
          | some found => exact .pure trivial
      | new span ty =>
          refine .ite (fun _ => .pure trivial) fun _ => ?_
          exact .ite (fun _ => .last everything_keeps) fun _ => .pure trivial
      | paren span inner => exact record_follows hT hΓ rs inner he
      | assign span name value =>
          refine .step (snapshot_keeps _) fun target _ => ?_
          refine (record_follows hT hΓ rs value he).bind_nil fun found _ => ?_
          refine .step (store_keeps (fun _ _ => trivial) _ _) fun _ _ => ?_
          exact .step (snapshot_keeps _) fun _ _ => .pure trivial
      | block span body => exact recordBlock_follows hT hΓ rs body he
      | binary span op left right =>
          refine .ite (fun _ => ?_) fun _ => ?_
          · refine (record_follows hT hΓ rs left he.1).bind fun _ _ => ?_
            refine (record_follows hT hΓ _ right he.2).bind_nil fun _ _ => ?_
            refine .step (narrowVar_keeps (fun _ _ => trivial) left) fun _ _ => ?_
            exact .step (narrowVar_keeps (fun _ _ => trivial) right) fun _ _ => .pure trivial
          · refine (record_follows hT hΓ rs left he.1).bind fun _ _ => ?_
            exact (record_follows hT hΓ _ right he.2).bind_nil fun _ _ => .pure trivial
      | unary span op operand =>
          cases op with
          | not =>
              refine (record_follows hT hΓ rs operand he).bind_nil fun _ _ => ?_
              exact .step (narrowVar_keeps (fun _ _ => trivial) operand) fun _ _ => .pure trivial
          | negate =>
              refine (record_follows hT hΓ rs operand he).bind_nil fun _ _ => ?_
              exact .step (narrowVar_keeps (fun _ _ => trivial) operand) fun _ _ => .pure trivial
          | isvoid => exact (record_follows hT hΓ rs operand he).bind_nil fun _ _ => .pure trivial
      | loop span test body =>
          refine (record_follows hT hΓ rs test he.1).bind fun _ _ => ?_
          refine .step (narrowVar_keeps (fun _ _ => trivial) test) fun _ _ => ?_
          exact (record_follows hT hΓ _ body he.2).bind_nil fun _ _ => .pure trivial
      | cond span test thenBranch elseBranch =>
          dsimp only
          rw [List.append_assoc]
          refine (record_follows hT hΓ rs test he.1).bind fun _ _ => ?_
          refine .step (narrowVar_keeps (fun _ _ => trivial) test) fun _ _ => ?_
          refine (record_follows hT hΓ _ thenBranch he.2.1).bind fun _ _ => ?_
          exact (record_follows hT hΓ _ elseBranch he.2.2).bind_nil fun _ _ => .pure trivial
      | letIn span bindings body =>
          refine (recordBindings_follows hT hΓ.nested rs bindings he.1).bind fun scope hscope => ?_
          obtain ⟨rfl, hbound⟩ := hscope
          exact record_follows hT hbound _ body he.2
      | caseOf span scrutinee arms =>
          refine (record_follows hT hΓ rs scrutinee he.1).bind fun _ _ => ?_
          exact recordArms_follows hT hΓ _ arms he.2
      | dispatch span receiver method args =>
          refine (recordReceiver_follows hT hΓ rs receiver he.1).bind fun found _ => ?_
          refine .ite (fun _ => ?_) fun _ => ?_
          · refine .step (report_keeps _ _) fun _ _ => ?_
            exact (recordAll_follows hT hΓ _ args _ he.2).bind_nil fun _ _ => .last everything_keeps
          refine .step (narrowReceiver_keeps (fun _ _ => trivial) receiver) fun _ _ => ?_
          split
          · rename_i owner m hm
            refine .get fun s hs => ?_
            refine (recordArgs_follows hT hΓ _ m.params args _ he.2 ?_).bind_nil fun _ _ => ?_
            · exact Nat.le_of_eq (arity_of_onlyMethod? (Γ := ⟨ctx, c.name⟩) hm).symm
            · exact .get fun _ _ => .pure trivial
          · refine .get fun s hs => ?_
            exact (recordAll_follows hT hΓ _ args _ he.2).bind_nil fun _ _ => .pure trivial
      | staticDispatch span receiver ancestor method args =>
          refine (record_follows hT hΓ rs receiver he.1).bind fun found _ => ?_
          dsimp only
          split
          · refine .step (report_keeps _ _) fun _ _ => ?_
            exact (recordAll_follows hT hΓ _ args _ he.2).bind_nil fun _ _ => .last everything_keeps
          · rename_i owner m hm
            refine .get fun s hs => ?_
            refine (recordArgs_follows hT hΓ _ m.params args _ he.2 ?_).bind_nil fun _ _ => ?_
            · exact Nat.le_of_eq (fitting?_eq_some hm).2.symm
            · exact .ite (fun _ => .pure trivial) fun _ => .get fun _ _ => .pure trivial

theorem recordReceiver_follows (hT : T.Ordered) {Γ : CoolTyping.Env} {bag : BagId}
    (hΓ : Γ.Bound ctx T c bag) (rs : List Report) :
    (receiver : Option Expr) → NestedOpt ctx T c bag receiver →
      Follows (After (fun _ => True) ⟨T, []⟩) (Visit.Matches ctx)
        (recordReceiver ⟨ctx, c.name⟩ bag receiver) (visitsReceiver rs Γ receiver) (fun _ => True)
  | some e, he => record_follows hT hΓ rs e he
  | none, _ => .pure trivial

theorem recordAll_follows (hT : T.Ordered) {Γ : CoolTyping.Env} {bag : BagId}
    (hΓ : Γ.Bound ctx T c bag) (rs : List Report) :
    (es : List Expr) → (ts : List TypeName) → NestedAll ctx T c bag es →
      Follows (After (fun _ => True) ⟨T, []⟩) (Visit.Matches ctx)
        (recordAll ⟨ctx, c.name⟩ bag es) (visitsArgs rs Γ es ts) (fun _ => True)
  | [], _, _ => by unfold visitsArgs; exact .pure trivial
  | e :: es, [], he => by
      refine (record_follows hT hΓ rs e he.1).bind fun _ _ => ?_
      exact recordAll_follows hT hΓ _ es [] he.2
  | e :: es, t :: ts, he => by
      refine (record_follows hT hΓ rs e he.1).bind fun _ _ => ?_
      exact recordAll_follows hT hΓ _ es ts he.2

theorem recordBlock_follows (hT : T.Ordered) {Γ : CoolTyping.Env} {bag : BagId}
    (hΓ : Γ.Bound ctx T c bag) (rs : List Report) {r : Option Candidates} :
    (es : List Expr) → NestedAll ctx T c bag es →
      Follows (After (fun _ => True) ⟨T, []⟩) (Visit.Matches ctx)
        (recordBlock ⟨ctx, c.name⟩ bag r es) (visitsBlock rs Γ es) (fun _ => True)
  | [], _ => .pure trivial
  | [e], he => by
      refine (record_follows hT hΓ rs e he.1).bind fun found _ => ?_
      exact .step (narrowTo_keeps (fun _ _ _ _ => trivial) e) fun _ _ => .pure trivial
  | e :: e' :: es, he => by
      refine (record_follows hT hΓ rs e he.1).bind fun _ _ => ?_
      exact recordBlock_follows hT hΓ _ (e' :: es) he.2

theorem recordArgs_follows (hT : T.Ordered) {Γ : CoolTyping.Env} {bag : BagId}
    (hΓ : Γ.Bound ctx T c bag) (rs : List Report) {methodBag : Option BagId} :
    (params : List (String × TypeName)) → (es : List Expr) → (ts : List TypeName) →
      NestedAll ctx T c bag es → es.length ≤ params.length →
      Follows (After (fun _ => True) ⟨T, []⟩) (Visit.Matches ctx)
        (recordArgs ⟨ctx, c.name⟩ bag methodBag params es) (visitsArgs rs Γ es ts) (fun _ => True)
  | _, [], _, _, _ => by unfold visitsArgs recordArgs; exact .pure trivial
  | [], _ :: _, _, _, hlen => absurd hlen (Nat.not_succ_le_zero _)
  | param :: params, e :: es, ts, he, hlen => by
      refine .step (paramTypes_keeps (Or.inl trivial)) fun types _ => ?_
      cases ts with
      | nil =>
          refine (record_follows hT hΓ rs e he.1).bind fun found _ => ?_
          refine .step (narrowParam_keeps (fun _ _ => trivial) _ _) fun _ _ => ?_
          refine .step (narrowVar_keeps (fun _ _ => trivial) e) fun _ _ => ?_
          exact recordArgs_follows hT hΓ _ params es [] he.2 (Nat.le_of_succ_le_succ hlen)
      | cons t ts =>
          refine (record_follows hT hΓ rs e he.1).bind fun found _ => ?_
          refine .step (narrowParam_keeps (fun _ _ => trivial) _ _) fun _ _ => ?_
          refine .step (narrowVar_keeps (fun _ _ => trivial) e) fun _ _ => ?_
          exact recordArgs_follows hT hΓ _ params es ts he.2 (Nat.le_of_succ_le_succ hlen)

theorem recordInit_follows (hT : T.Ordered) {Γ : CoolTyping.Env} {bag inner : BagId} {name : String}
    (hΓ : Γ.Bound ctx T c bag) (rs : List Report) :
    (init : Option Expr) → NestedOpt ctx T c bag init →
      Follows (After (fun _ => True) ⟨T, []⟩) (Visit.Matches ctx)
        (recordInit ⟨ctx, c.name⟩ bag inner name init) (visitsInit rs Γ init) (fun _ => True)
  | some e, he => by
      refine (record_follows hT hΓ rs e he).bind_nil fun found _ => ?_
      exact .last (store_keeps (fun _ _ => trivial) _ _)
  | none, _ => .pure trivial

/-- The body of the `let` stands in the innermost bag. -/
theorem recordBindings_follows (hT : T.Ordered) {Γ : CoolTyping.Env} {bag : BagId}
    (hΓ : Γ.Bound ctx T c bag) (rs : List Report) :
    (bindings : List (Binder × Option Expr)) → NestedLets ctx T c bag bindings →
      Follows (After (fun _ => True) ⟨T, []⟩) (Visit.Matches ctx)
        (recordBindings ⟨ctx, c.name⟩ bag bindings) (visitsBindings rs Γ bindings)
        (fun scope => scope = Constraint.letScope T bag bindings ∧
          (typeBindings Γ bindings).value.Bound ctx T c scope)
  | [], _ => .pure ⟨rfl, hΓ⟩
  | (b, init) :: bindings, he => by
      refine .step (scopeBag_finds b bag) fun inner hinner => ?_
      subst hinner
      refine (recordInit_follows hT hΓ _ init he.1).bind fun _ _ => ?_
      exact recordBindings_follows hT (hΓ.declare hT he.2.1 _) _ bindings he.2.2

theorem recordArms_follows (hT : T.Ordered) {Γ : CoolTyping.Env} {bag : BagId}
    (hΓ : Γ.Bound ctx T c bag) (rs : List Report) {acc : Candidates} :
    (arms : List (Binder × Expr)) → NestedArms ctx T c bag arms →
      Follows (After (fun _ => True) ⟨T, []⟩) (Visit.Matches ctx)
        (recordArms ⟨ctx, c.name⟩ bag acc arms) (visitsArms rs Γ arms) (fun _ => True)
  | [], _ => .pure trivial
  | (b, body) :: arms, he => by
      refine .step (scopeBag_finds b bag) fun inner hinner => ?_
      subst hinner
      refine (record_follows hT (hΓ.nested.declare hT he.1 _) _ body he.2.1).bind fun found _ => ?_
      exact recordArms_follows hT hΓ _ arms he.2.2

end

/-! ## Classes -/

theorem forM_follows {α : Type} {K : State → Prop} {R : Visit → Sighting → Prop} {f : α → Recorded Unit}
    {reports : α → List Report} {visit : List Report → α → List Visit} {as : List α}
    (h : ∀ a ∈ as, ∀ rs, Follows K R (f a) (visit rs a) (fun _ => True)) (rs : List Report) :
    Follows K R (forM as f) (visitsEach reports visit rs as) (fun _ => True) := by
  induction as generalizing rs with
  | nil => exact .pure trivial
  | cons a as ih =>
      rw [List.forM_cons]
      refine (h a List.mem_cons_self rs).bind fun _ _ => ?_
      exact ih (fun b hb => h b (List.mem_cons_of_mem _ hb)) _

theorem recordFeature_follows (hT : T.Ordered) {Γ : CoolTyping.Env} {bag : BagId}
    (hΓ : Γ.Bound ctx T c bag) (rs : List Report) {f : Feature} (hf : NestedFeature ctx T c bag f) :
    Follows (After (fun _ => True) ⟨T, []⟩) (Visit.Matches ctx) (recordFeature ⟨ctx, c.name⟩ bag f)
      (f.visits rs Γ) (fun _ => True) := by
  cases f with
  | attr a => exact recordInit_follows hT hΓ rs a.init hf
  | method m =>
      obtain ⟨inner, hm, hbody⟩ := hf
      apply Follows.get
      intro s hs
      rw [hs.tree.bagOf?, show T.bagOf? m.id = some inner from hm.found]
      refine (record_follows hT (hΓ.methodEnv hT hm) rs m.body hbody).bind_nil fun found _ => ?_
      exact .last (store_keeps (fun _ _ => trivial) _ _)

theorem recordClass_follows (hT : T.Ordered) {bag : BagId} (hc : NestedClass ctx T c bag)
    (hΓ : (classEnv ctx c.name).Bound ctx T c bag) (rs : List Report) :
    Follows (After (fun _ => True) ⟨T, []⟩) (Visit.Matches ctx) (recordClass ctx c)
      (visitsEach (fun f => (checkFeature (classEnv ctx c.name) f).reports)
        (fun rs f => f.visits rs (classEnv ctx c.name)) rs c.features) (fun _ => True) := by
  apply Follows.get
  intro s hs
  rw [hs.tree.bagOf?, show T.bagOf? c.id = some bag from hc.placed.found]
  exact forM_follows (fun f hf rs => recordFeature_follows hT hΓ rs (hc.features f hf)) rs

end Sweep

/-! ## Names in a class -/

namespace ClassTable

open Seed

variable {p : Program} {T : BagTree} {c : ClassDecl} {bag : BagId} {x : String}

/-- The attributes that a class has or inherits are those that it and its ancestors declare. Where one is
declared twice, the last declaration is turned down, which leaves the name. -/
theorem mem_namesIn_build : x ∈ ((build p).value.context.namesIn c.name).bound ↔ x = selfName ∨
    ∃ d ∈ (build p).value.classes, (build p).value.context.Descends c.name d.name ∧
      ∃ a ∈ d.attributes, a.name = x := by
  have hattribute : (∃ a ∈ (build p).value.context.allAttributes c.name, a.name = x) ↔
      ((build p).value.context.attribute? c.name x).isSome = true := by
    simp only [Context.isSome_attribute?, Context.mem_allAttributes, Context.ownAttribute?,
      List.find?_isSome, beq_iff_eq]
    constructor
    · rintro ⟨a, ⟨D, hD, ha⟩, hname⟩
      exact ⟨D, hD, a, ha, hname⟩
    · rintro ⟨D, hD, a, ha, hname⟩
      exact ⟨a, ⟨D, hD, ha⟩, hname⟩
  rw [Context.namesIn, Names.mem_declareAll, List.mem_map, hattribute, isSome_attribute?_build,
    List.mem_singleton, or_comm]

theorem placed_class_has {ctx : Context} (h : Placed ctx T c .ofClass none bag) :
    T.has bag (.var x) = true ↔ x = selfName ∨ ∃ a ∈ c.attributes, a.name = x := by
  rw [h.holds.has]
  simp [Opener.entries]

/-- The bag that is found for a name of a class is that of a class of this name. -/
theorem exists_class_of_classBag? {t : ClassTable} {name : TypeName} (h : t.seed.classBag? name = some bag) :
    ∃ d ∈ t.classes, d.name = name := by
  obtain ⟨b, hb, hfound⟩ := lastIdx?_eq_some h
  simp only [Bool.and_eq_true, beq_iff_eq] at hfound
  obtain ⟨d, hd, o, _, hopens⟩ := opens_of_mem_seed (List.mem_of_getElem? hb)
  have hplace := hopens.place
  cases o with
  | ofClass => exact ⟨d, hd, hplace.2.symm.trans hfound.2⟩
  | ofMethod m => exact absurd (hfound.1.symm.trans hplace.1) (by simp)
  | ofBinder b => rcases hplace with hk | hk <;> exact absurd (hfound.1.symm.trans hk) (by simp)

theorem register_classes_sublist (ctx : Context) (cs : List ClassDecl) :
    (register ctx cs).value.classes.Sublist cs := by
  induction cs generalizing ctx with
  | nil => exact List.Sublist.slnil
  | cons c cs ih =>
      unfold register
      cases ctx.create c.name with
      | error e => exact (ih ctx).cons c
      | ok ctx => exact (ih ctx).cons_cons c

/-- The scopes of a program that was read from a text have bags of their own, also where a class was turned
down. -/
theorem build_distinctOwners {source : String} (hp : parse source = .ok p) :
    (build p).value.seed.DistinctOwners := by
  have hnodup : (p.classes.flatMap ClassDecl.scopeIds).Nodup :=
    (parse_scopeIds hp).nodup_iff.mpr List.nodup_range
  have hsublist : (build p).value.classes.Sublist p.classes := register_classes_sublist _ _
  exact (seed_owners _).nodup_iff.mpr (hnodup.sublist (hsublist.flatMap _))

/-- In the bag of a class just the names have entries that are in sight in the class. -/
theorem classEnv_bound (hU : (build p).value.seed.DistinctOwners)
    (hT : (build p).value.seed.EvolvesTo T) (hc : c ∈ (build p).value.classes)
    (hn : NestedClass (build p).value.context T c bag) :
    (classEnv (build p).value.context c.name).Bound (build p).value.context T c bag where
  inClass := hn.placed.inClass
  names x := by
    have hwf := build_wellFormed p
    rw [names_classEnv, mem_namesIn_build,
      ((seed_ordered hU).evolvesTo hT).resolve?_root _ _ hn.placed.parent, hn.placed.inClass]
    by_cases hown : T.has bag (.var x) = true
    · rw [if_pos hown]
      refine iff_of_true ?_ rfl
      rcases (placed_class_has hn.placed).mp hown with hself | ha
      · exact Or.inl hself
      · exact Or.inr ⟨c, hc, .refl, ha⟩
    rw [if_neg hown, List.find?_isSome]
    constructor
    · rintro (hself | ⟨d, hd, hcd, ha⟩)
      · exact absurd ((placed_class_has hn.placed).mpr (Or.inl hself)) hown
      obtain ⟨owner, howner⟩ := nestedClass_seed hU hT hd
      have hne : d.name ≠ c.name := by
        intro heq
        obtain rfl := hwf.class_eq_of_name hd hc heq
        exact hown ((placed_class_has hn.placed).mpr (Or.inr ha))
      have habove := (List.mem_cons.mp (Context.mem_ancestors.mpr hcd)).resolve_left hne
      refine ⟨owner, List.mem_filterMap.mpr ⟨d.name, habove, hwf.classBag?_eq hU hT hd howner⟩, ?_⟩
      exact (placed_class_has howner.placed).mpr (Or.inr ha)
    · rintro ⟨owner, howner, hhas⟩
      obtain ⟨name, habove, hfound⟩ := List.mem_filterMap.mp howner
      obtain ⟨d, hd, rfl⟩ := exists_class_of_classBag? (hT.classBag? name ▸ hfound)
      obtain ⟨owner', howner'⟩ := nestedClass_seed hU hT hd
      obtain rfl := Option.some.inj ((hwf.classBag?_eq hU hT hd howner').symm.trans hfound)
      rcases (placed_class_has howner'.placed).mp hhas with hself | ha
      · exact Or.inl hself
      · exact Or.inr ⟨d, hd, Context.mem_ancestors.mp (List.mem_of_mem_tail habove), ha⟩

/-! ## Programs -/

theorem recordedSweep_follows {source : String} (hp : parse source = .ok p)
    (hT : (build p).value.seed.EvolvesTo T) :
    Follows (After (fun _ => True) ⟨T, []⟩) (Visit.Matches (build p).value.context)
      (build p).value.recordedSweep (build p).value.visits (fun _ => True) := by
  have hU := build_distinctOwners hp
  refine Sweep.forM_follows (fun c hc rs => ?_) []
  obtain ⟨bag, hbag⟩ := nestedClass_seed hU hT hc
  exact Sweep.recordClass_follows ((seed_ordered hU).evolvesTo hT) hbag (classEnv_bound hU hT hc hbag) rs

/-- Where nothing is reported, every variable that is used is in sight. -/
theorem lookup?_isSome_of_clean {v : Visit} (hv : v ∈ (build p).value.visits) {span : Span} {name : String}
    (he : v.expr = .ident span name) (h : (typecheck p).diagnostics = []) :
    (v.env.scope.lookup? name).isSome = true := by
  have hprefix := visits_reports _ v hv
  rw [(reports_of_typecheck h).2, List.prefix_nil, Visit.reports, List.append_eq_nil_iff, he, typeOf,
    Env.variableType] at hprefix
  cases hlookup : v.env.scope.lookup? name with
  | some ty => rfl
  | none => simp [hlookup, Reporting.report] at hprefix

/-- In every sweep, the visits are those of all expressions of the registered classes, in the order in which
the check types them. At each of them the variables that the check has in sight are those that the bag leads
to an entry for. If the check finds no mistake, then the types of a variable are always read off its entry. -/
theorem scopes_match_bags {source : String} (hp : parse source = .ok p) (n : Nat) :
    let t := (build p).value
    let tree := t.swept n t.seed
    t.recordedSweep.run = t.classes.forM (Sweep.classDecl t.context) ∧
    ((t.sightings tree).map (·.expr) =
      t.classes.flatMap fun c => c.features.flatMap fun f => f.expr?.elim [] Expr.walk) ∧
    List.Forall₂ (Visit.Matches t.context) t.visits (t.sightings tree) ∧
    ((typecheck p).diagnostics = [] → ∀ g ∈ t.sightings tree, ∀ span name, g.expr = .ident span name →
      ∃ entry, g.tree.get? t.context g.bag (.var name) = some entry ∧ ∀ current restriction reports,
        Sweep.result (Sweep.visit ⟨t.context, current⟩ g.bag restriction g.expr) ⟨g.tree, reports⟩ =
          entry.snapshot) := by
  intro t tree
  have hmatches : List.Forall₂ (Visit.Matches t.context) t.visits (t.sightings tree) :=
    (recordedSweep_follows hp (t.swept_evolvesTo n t.seed)).notes (.refl ⟨fun _ _ => trivial,
      fun _ _ _ _ _ _ => trivial⟩)
  refine ⟨t.run_recordedSweep, ?_, hmatches, ?_⟩
  · rw [← t.visits_walk]
    exact (forall₂_map_eq hmatches fun _ _ h => h.1).symm
  · intro hclean g hg span name he
    obtain ⟨v, hv, hexpr, hnames⟩ := forall₂_mem_right hmatches hg
    have hsome := (hnames name).mp (lookup?_isSome_of_clean hv (hexpr.trans he) hclean)
    obtain ⟨entry, hentry⟩ := Option.isSome_iff_exists.mp (BagTree.isSome_get?_of_resolve? hsome)
    refine ⟨entry, hentry, fun current restriction reports => ?_⟩
    rw [he]
    exact Sweep.visit_ident_of_get? hentry

/-- An attribute of the class above, a parameter, a `let` without a type and a `case` arm. -/
def layeredText : String :=
  "class A\x7ba:Int;\x7d;class B inherits A\x7bm(b:Int):Object\x7blet c:AUTO_TYPE<-b in " ++
  "case c of d:Int=>a+d;esac\x7d;\x7d;"

def layered : Program :=
  ⟨[⟨0, "A", none, [.attr ⟨"a", TypeName.int, none, ⟨8, 13⟩⟩], ⟨0, 16⟩⟩,
    ⟨1, "B", some "A", [
      .method ⟨2, "m", [⟨"b", TypeName.int, ⟨37, 42⟩⟩], TypeName.object,
        .letIn ⟨51, 98⟩ [(⟨3, "c", TypeName.auto, ⟨55, 69⟩⟩, some (.ident ⟨68, 69⟩ "b"))]
          (.caseOf ⟨73, 98⟩ (.ident ⟨78, 79⟩ "c") [(⟨4, "d", TypeName.int, ⟨83, 94⟩⟩,
            .binary ⟨90, 93⟩ .add (.ident ⟨90, 91⟩ "a") (.ident ⟨92, 93⟩ "d"))]),
        ⟨35, 99⟩⟩], ⟨16, 102⟩⟩]⟩

theorem layered_scopes_match : ∃ p, parse layeredText = .ok p ∧ (typecheck p).diagnostics = [] ∧
    (build p).value.visits.length = 7 ∧
    List.Forall₂ (Visit.Matches (build p).value.context) (build p).value.visits
      ((build p).value.sightings ((build p).value.swept 1 (build p).value.seed)) := by
  have hp : parse layeredText = .ok layered := by cbv
  exact ⟨layered, hp, by decide +kernel, by decide +kernel, (scopes_match_bags hp 1).2.2.1⟩

end ClassTable

end CoolTyping
