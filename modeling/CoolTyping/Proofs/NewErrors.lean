import CoolTyping.Proofs.Naming
import CoolTyping.Proofs.Sights
import CoolTyping.Proofs.Stability

/-!
# Errors of filled programs

A program without errors whose placeholders are filled with types that exist may have errors, but only such as
come from comparing types: in an expression, or in a method and the one that it overrides. Two methods that
were declared with the same types may differ after filling only where both had a placeholder.
-/

namespace CoolTyping

open Reporting

variable {U : List TypeName} {c c' : ClassDecl} {cs cs' : List ClassDecl}

/-! ## Classes that still fit together -/

namespace ClassTable

section Fitting

variable (hcs : List.Forall₂ (ClassDecl.Filled U) cs cs')
  (hU : ∀ t ∈ U, (Context.ofClasses cs).contains t = true)
include hcs hU

theorem contains_of_filled {t t' : TypeName} (ht : TypeName.Filled U t t')
    (h : (Context.ofClasses cs).contains t = true) : (Context.ofClasses cs').contains t' = true := by
  rw [← (Context.filled_ofClasses hcs).contains]
  cases ht with
  | kept _ => exact h
  | filled ht => exact hU _ ht

theorem FeaturesOk.filled (h : FeaturesOk (Context.ofClasses cs) c) (hc : ClassDecl.Filled U c c') :
    FeaturesOk (Context.ofClasses cs') c' where
  attributes a' ha' := by
    obtain ⟨a, ha, hfilled⟩ := forall₂_mem_right hc.attributes ha'
    exact contains_of_filled hcs hU hfilled.ty (h.attributes a ha)
  params m' hm' p' hp' := by
    obtain ⟨m, hm, hfilled⟩ := forall₂_mem_right hc.methods hm'
    obtain ⟨p, hp, hfilled⟩ := forall₂_mem_right hfilled.params hp'
    exact contains_of_filled hcs hU hfilled.ty (h.params m hm p hp)
  results m' hm' := by
    obtain ⟨m, hm, hfilled⟩ := forall₂_mem_right hc.methods hm'
    exact contains_of_filled hcs hU hfilled.ret (h.results m hm)
  methodNames := by
    rw [← forall₂_map_eq hc.methods fun _ _ hm => hm.name]
    exact h.methodNames
  attributeNames := by
    rw [← forall₂_map_eq hc.attributes fun _ _ ha => ha.name]
    exact h.attributeNames

theorem Fitting.filled (h : Fitting cs) : Fitting cs' where
  names := h.names.congr (names_filled hcs)
  links := by
    rw [← outlines_filled hcs, ← link_filled hcs]
    exact h.links
  features c' hc' := by
    obtain ⟨c, hc, hfilled⟩ := forall₂_mem_right hcs hc'
    exact (h.features c hc).filled hcs hU hfilled
  unshadowed c' hc' := by
    obtain ⟨c, hc, hfilled⟩ := forall₂_mem_right hcs hc'
    exact (unshadowed_filled hcs hfilled).mp (h.unshadowed c hc)

end Fitting

end ClassTable

/-! ## Methods that no longer agree -/

/-- The types that a method declares. -/
def Signature.types (m : Signature) : List TypeName := m.ret :: m.paramTypes

theorem Signature.agrees_iff {m n : Signature} : m.agrees n = true ↔ m.types = n.types := by
  simp [agrees, types]

theorem Signature.Filled.types {m m' : Signature} (h : m.Filled U m') :
    List.Forall₂ (TypeName.Filled U) m.types m'.types := .cons h.ret h.paramTypes

/-- Without placeholders there is nothing to fill. -/
theorem TypeName.types_eq_of_filled {ts ts' : List TypeName} (h : List.Forall₂ (TypeName.Filled U) ts ts')
    (hauto : TypeName.auto ∉ ts) : ts = ts' := by
  induction h with
  | nil => rfl
  | cons ht _ ih =>
      obtain ⟨hhead, htail⟩ := not_or.mp (mt List.mem_cons.mpr hauto)
      rw [ht.eq_or.resolve_left fun heq => hhead heq.symm, ih htail]

/-- The report is about a method of the program that overrides another one. Both were declared with the same
types, and there are placeholders among them. -/
def Program.OverrideFilled (p : Program) (r : Report) : Prop :=
  ∃ c ∈ p.classes, ∃ m ∈ c.methods, ∃ d ∈ p.classes, ∃ n ∈ d.methods,
    (typecheck p).value.context.method? c.parentName m.name = some (d.name, n.signature) ∧
    m.signature.types = n.signature.types ∧ TypeName.auto ∈ m.signature.types ∧
    r = ⟨.methodSignatureMismatch m.name d.name, m.span⟩

namespace ClassTable

theorem methodSpan_filled (hc : ClassDecl.Filled U c c') (name : String) :
    methodSpan c name = methodSpan c' name := by
  have hfound := forall₂_find? (p := (·.name == name)) (q := (·.name == name)) hc.methods
    fun _ _ hm => by rw [hm.name]
  unfold methodSpan
  exact rel_elim hfound hc.span fun _ _ hm => hm.span

theorem methodSpan_eq {m : MethodDecl} (h : (c.methods.map (·.name)).Nodup) (hm : m ∈ c.methods) :
    methodSpan c m.name = m.span := by
  unfold methodSpan
  cases hfound : c.methods.find? (·.name == m.name) with
  | none => simpa using List.find?_eq_none.mp hfound m hm
  | some n =>
      have hname : n.name = m.name := by simpa using List.find?_some hfound
      rw [List.inj_on_of_nodup_map h (List.mem_of_find?_eq_some hfound) hm hname]
      rfl

/-- A method with a placeholder is declared in a class. -/
theorem class_of_auto {t : TypeName} {m : Signature} (hm : m ∈ (Context.ofClasses cs).ownMethods t)
    (hauto : TypeName.auto ∈ m.types) : ∃ c ∈ cs, c.name = t ∧ ∃ d ∈ c.methods, d.signature = m := by
  refine (mem_ownMethods hm).resolve_left fun ⟨hret, hparams⟩ => ?_
  have hconcrete : TypeName.auto ∉ Context.basic.concreteTypes := by decide
  rcases List.mem_cons.mp hauto with heq | hmem
  · rcases hret with hself | hret
    · exact absurd (heq.trans hself) (by decide)
    · exact hconcrete (heq ▸ hret)
  · obtain ⟨p, hp, heq⟩ := List.mem_map.mp hmem
    exact hconcrete (heq ▸ hparams p hp)

theorem overrideFilled_of_mismatch {p p' : Program} (hclean : (typecheck p).diagnostics = [])
    (hp : p.Filled U p') (hc' : c' ∈ p'.classes) {r : Report}
    (hr : r ∈ mismatchReports (Context.ofClasses p'.classes) c') : p.OverrideFilled r := by
  obtain ⟨hfit, hagree⟩ := build_fitting (reports_of_typecheck hclean).1
  have hctx := Context.filled_ofClasses hp
  obtain ⟨c, hc, hfilled⟩ := forall₂_mem_right hp hc'
  obtain ⟨parent, m', owner, n', hparent, hown', hmethod', hdiffers, rfl⟩ := mem_mismatchReports.mp hr
  rw [← hfilled.name, ← hctx.parent?] at hparent
  rw [← hfilled.name] at hown'
  obtain ⟨s, hown, hs⟩ := forall₂_mem_right (hctx.ownMethods c.name) hown'
  -- the inherited method is the filling of one of the same owner
  obtain ⟨n, hmethod, hn⟩ : ∃ n, (Context.ofClasses p.classes).method? parent s.name = some (owner, n) ∧
      n.Filled U n' := by
    have hfound := hctx.method? parent m'.name
    rw [hmethod'] at hfound
    rw [hs.name]
    generalize (Context.ofClasses p.classes).method? parent m'.name = x at hfound
    cases hfound with
    | @some x _ hx => exact ⟨x.2, congrArg some (Prod.ext hx.1 rfl), hx.2⟩
  have htypes : s.types = n.types :=
    Signature.agrees_iff.mp (agrees_of_parent hagree hparent hown (Context.hasMethod_iff.mpr ⟨owner, hmethod⟩))
  have hauto : TypeName.auto ∈ s.types := by
    by_contra hauto
    have hsame : m'.types = n'.types := by
      rw [← TypeName.types_eq_of_filled hs.types hauto, htypes,
        TypeName.types_eq_of_filled hn.types (htypes ▸ hauto)]
    rw [Signature.agrees_iff.mpr hsame] at hdiffers
    cases hdiffers
  obtain ⟨d, hd, rfl, e, he, rfl⟩ := class_of_auto (Context.mem_ownMethods_of_method? hmethod).1 (htypes ▸ hauto)
  rw [hfit.ownMethods_class hc] at hown
  obtain ⟨m, hm, rfl⟩ := List.mem_map.mp hown
  have hparentName : parent = c.parentName := by
    rw [Context.parent?, hfit.info?_class hc] at hparent
    exact (Option.some.inj hparent).symm
  refine ⟨c, hc, m, hm, d, hd, e, he, ?_, htypes, hauto, ?_⟩
  · rw [typecheck_value hclean, ← hparentName]
    exact hmethod
  · rw [← hs.name, ← methodSpan_filled hfilled]
    exact congrArg (Report.mk _) (methodSpan_eq (hfit.features c hc).methodNames hm)

end ClassTable

/-! ## The errors of a filled program -/

/-- Filling with types that exist does not change what is reported about names. -/
theorem ClassTable.nominal_filled {p p' : Program} (hfit : Fitting p.classes) (hfit' : Fitting p'.classes)
    (hp : p.Filled U p') (hU : ∀ t ∈ U, (Context.ofClasses p.classes).contains t = true) :
    (build p').value.check.nominal = (build p).value.check.nominal := by
  have hctx := Context.filled_ofClasses hp
  have hknows : ∀ t, ((Context.ofClasses p.classes).namesIn t).Knows U := by
    intro t
    refine Names.Knows.declareAll ⟨?_, hU⟩ _
    exact Context.contains_iff.mpr (mem_names_ofClasses.mpr (.inl (by decide)))
  have hreports : p.classes.flatMap (ClassDecl.nameReports (Context.ofClasses p.classes)) =
      p'.classes.flatMap (ClassDecl.nameReports (Context.ofClasses p'.classes)) := by
    rw [List.flatMap_def, List.flatMap_def,
      forall₂_map_eq hp fun _ _ hc => ClassDecl.nameReports_filled hctx hknows hc]
  rw [nominal_check, nominal_check, hfit'.build_eq, hfit.build_eq, classes_all, classes_all]
  exact hreports.symm

/-- In a program without errors whose placeholders are filled with types that exist, every error is about the
types in an expression, or about a method that no longer agrees with the one it overrides. -/
theorem typecheck_filled {p p' : Program} (hclean : (typecheck p).diagnostics = [])
    (hp : p.Filled U p') (hU : ∀ t ∈ U, (typecheck p).value.context.contains t = true) {r : Report}
    (hr : r ∈ (typecheck p').diagnostics) : r.error.aboutTypes = true ∨ p.OverrideFilled r := by
  obtain ⟨hbuild, hcheck⟩ := ClassTable.reports_of_typecheck hclean
  obtain ⟨hfit, -⟩ := ClassTable.build_fitting hbuild
  rw [ClassTable.typecheck_value hclean] at hU
  have hfit' := hfit.filled hp hU
  have hreports : r ∈ (ClassTable.build p').reports ∨ r ∈ (ClassTable.build p').value.check.reports := by
    simpa [typecheck, diagnostics] using hr
  rcases hreports with hr | hr
  · rw [hfit'.build_eq] at hr
    obtain ⟨c', hc', hr⟩ := List.mem_flatMap.mp hr
    exact .inr (ClassTable.overrideFilled_of_mismatch hclean hp hc' hr)
  · by_contra hneither
    have hnominal : r ∈ (ClassTable.build p').value.check.nominal :=
      List.mem_filter.mpr ⟨hr, by simpa using (not_or.mp hneither).1⟩
    rw [ClassTable.nominal_filled hfit hfit' hp hU, nominal, hcheck] at hnominal
    cases hnominal

/-- Inference brings no errors about names, about how classes are put together, or of its own: every error of
the program that it ends with is about the types in an expression, or about two methods of which one overrides
the other and that had placeholders in the same places. -/
theorem analyze_inferred_errors {source : String} {options : Options} {a : Analysis}
    (ha : analyzeSource source options = .ok a) (hi : a.inferred.isSome = true) :
    ∃ p, parse source = .ok p ∧ ∀ r ∈ a.finalErrors, r.error.aboutTypes = true ∨ p.OverrideFilled r := by
  obtain ⟨p, hp, ha⟩ := analyzeSource_eq_ok.mp ha
  obtain ⟨i, hi⟩ := Option.isSome_iff_exists.mp hi
  have hfilled := filled_inferred hp ha hi
  obtain ⟨hclean, -, rfl⟩ := analyze_inferred ha hi
  refine ⟨p, hp, fun r hr => typecheck_filled hclean hfilled (fun t ht => ?_) hr⟩
  exact Context.contains_iff.mpr ((Context.concreteTypes_sublist _).subset ht)

/-- The text of a class whose method makes another use of its parameter than the one that it overrides, and of
its attribute than a method promises. -/
def divergingText : String :=
  "class A\x7bf(x:AUTO_TYPE):Int\x7bx+1\x7d;\x7d;class B inherits A\x7by:AUTO_TYPE<-\"s\";" ++
  "f(x:AUTO_TYPE):Int\x7bx.length()\x7d;g():Int\x7by\x7d;\x7d;"

def diverging : Program :=
  ⟨[⟨0, "A", none, [
      .method ⟨1, "f", [⟨"x", TypeName.auto, ⟨10, 21⟩⟩], TypeName.int,
        .binary ⟨27, 30⟩ .add (.ident ⟨27, 28⟩ "x") (.int ⟨29, 30⟩ 1), ⟨8, 31⟩⟩], ⟨0, 34⟩⟩,
    ⟨2, "B", some "A", [
      .attr ⟨"y", TypeName.auto, some (.str ⟨66, 69⟩ "s"), ⟨53, 69⟩⟩,
      .method ⟨3, "f", [⟨"x", TypeName.auto, ⟨72, 83⟩⟩], TypeName.int,
        .dispatch ⟨89, 99⟩ (some (.ident ⟨89, 90⟩ "x")) "length" [], ⟨70, 100⟩⟩,
      .method ⟨4, "g", [], TypeName.int, .ident ⟨109, 110⟩ "y", ⟨101, 111⟩⟩], ⟨34, 114⟩⟩]⟩

theorem diverging_errors : ∃ a, analyzeSource divergingText ⟨true, none⟩ = .ok a ∧
    a.inferred.isSome = true ∧
    a.finalErrors = [⟨.methodSignatureMismatch "f" "A", ⟨70, 100⟩⟩,
      ⟨.incompatibleTypes TypeName.string TypeName.int, ⟨109, 110⟩⟩] ∧
    ∃ p, parse divergingText = .ok p ∧
      ∀ r ∈ a.finalErrors, r.error.aboutTypes = true ∨ p.OverrideFilled r := by
  have hp : parse divergingText = .ok diverging := by cbv
  obtain ⟨a, ha, hruns⟩ := exists_analysis
    (P := fun a => a.inferred.isSome && a.finalErrors == [⟨.methodSignatureMismatch "f" "A", ⟨70, 100⟩⟩,
      ⟨.incompatibleTypes TypeName.string TypeName.int, ⟨109, 110⟩⟩])
    (p := diverging) (o := ⟨true, none⟩) (by decide +kernel)
  obtain ⟨hsome, herrors⟩ := Bool.and_eq_true_iff.mp hruns
  have ha := analyzeSource_eq_ok.mpr ⟨diverging, hp, ha⟩
  exact ⟨a, ha, hsome, beq_iff_eq.mp herrors, analyze_inferred_errors ha hsome⟩

end CoolTyping
