import CoolTyping.Proofs.Operations
import CoolTyping.Proofs.Rounds

/-!
# The order of the classes

Where the classes of a program have names of their own and do not inherit from themselves, the order in which
they are declared does not matter to the class table. It matters to one thing that is reported: an attribute
that several classes above declare is said to be defined in one of them, and in which one depends on the
attributes that were dropped before. So the reports are the same as well if no class declares an attribute
that two classes above it declare.
-/

namespace CoolTyping

namespace Context

variable {ctx ctx' : Context} {t x D : TypeName} {name : String}

theorem info?_eq_some_iff (hd : ctx.names.Nodup) {i : TypeInfo} :
    ctx.info? t = some i ↔ i ∈ ctx.types ∧ i.name = t := by
  constructor
  · exact fun h => ⟨List.mem_of_find?_eq_some h, name_of_info? h⟩
  · rintro ⟨hi, rfl⟩
    exact info?_of_mem hd hi

theorem info?_perm (hd : ctx.names.Nodup) (h : ctx'.types.Perm ctx.types) (t : TypeName) :
    ctx'.info? t = ctx.info? t := by
  have hd' : ctx'.names.Nodup := (h.map TypeInfo.name).nodup_iff.mpr hd
  ext i
  simp [info?_eq_some_iff hd, info?_eq_some_iff hd', h.mem_iff]

theorem types_perm (hd : ctx.names.Nodup) (hd' : ctx'.names.Nodup)
    (h : ∀ t, ctx'.info? t = ctx.info? t) : ctx'.types.Perm ctx.types := by
  apply (List.perm_ext_iff_of_nodup hd'.of_map hd.of_map).mpr
  intro i
  have hi := h i.name
  rw [Option.ext_iff] at hi
  simpa [info?_eq_some_iff hd, info?_eq_some_iff hd'] using hi i

/-! ## Contexts that hold the same -/

/-- The contexts hold the same about every type. -/
def SameInfo (ctx ctx' : Context) : Prop := ∀ t, ctx'.info? t = ctx.info? t

namespace SameInfo

variable (h : ctx.SameInfo ctx')
include h

theorem contains (t : TypeName) : ctx'.contains t = ctx.contains t := by
  rw [Bool.eq_iff_iff, contains_iff_info?, contains_iff_info?, h]

theorem parent? (t : TypeName) : ctx'.parent? t = ctx.parent? t := by
  simp [Context.parent?, h t]

theorem ownAttributes (t : TypeName) : ctx'.ownAttributes t = ctx.ownAttributes t := by
  simp [Context.ownAttributes, h t]

theorem ownMethods (t : TypeName) : ctx'.ownMethods t = ctx.ownMethods t := by
  simp [Context.ownMethods, h t]

theorem inheritedFrom? (t : TypeName) (name : String) :
    ctx'.inheritedFrom? t name = ctx.inheritedFrom? t name := by
  have hown : ∀ x name, ctx'.ownAttribute? x name = ctx.ownAttribute? x name := by
    simp [ownAttribute?, h.ownAttributes]
  simp [Context.inheritedFrom?, h.parent?, attribute?_congr h.parent? hown]

theorem pruned : ctx'.pruned = ctx.pruned := by
  funext i
  simp [Context.pruned, h.inheritedFrom?]

theorem declaredAbove : ctx'.DeclaredAbove t name D ↔ ctx.DeclaredAbove t name D := by
  have hparent : ctx'.Parent = ctx.Parent := Parent.congr h.parent?
  have hown : ctx'.ownAttribute? D name = ctx.ownAttribute? D name := by
    simp [ownAttribute?, h.ownAttributes]
  constructor
  · exact fun hD => ⟨hparent ▸ hD.above, hown ▸ hD.declared⟩
  · exact fun hD => ⟨hparent ▸ hD.above, hown ▸ hD.declared⟩

theorem mismatchReports (c : ClassDecl) :
    ClassTable.mismatchReports ctx' c = ClassTable.mismatchReports ctx c := by
  have hown : ∀ x name, ctx'.ownMethod? x name = ctx.ownMethod? x name := by
    simp [ownMethod?, h.ownMethods]
  simp [ClassTable.mismatchReports, ClassTable.mismatched, h.parent?, h.ownMethods,
    method?_congr h.parent? hown]

end SameInfo

end Context

namespace ClassTable

open Reporting

variable {ps qs : List ClassDecl} {p q : Program} {c d e : ClassDecl} {name : String}

/-- No class inherits from itself, directly or through others. -/
def Acyclic (cs : List ClassDecl) : Prop := ∀ a, ¬ Relation.TransGen (Inherits cs) a a

/-- The class `d` is above `c` and declares an attribute `name`. -/
structure AlsoDeclares (cs : List ClassDecl) (c : ClassDecl) (name : String) (d : ClassDecl) : Prop where
  mem : d ∈ cs
  above : Relation.TransGen (Inherits cs) c.name d.name
  declares : ∃ a ∈ d.attributes, a.name = name

/-! ## Links -/

theorem inherits_perm (h : qs.Perm ps) : Inherits qs = Inherits ps := by
  funext a b
  simp [Inherits, h.mem_iff]

theorem contains_ofClasses_perm (h : qs.Perm ps) (x : TypeName) :
    (Context.ofClasses qs).contains x = (Context.ofClasses ps).contains x := by
  rw [Bool.eq_iff_iff, Context.contains_iff, Context.contains_iff, mem_names_ofClasses,
    mem_names_ofClasses, (h.map (·.name)).mem_iff]

/-- Without cycles the outcome of linking a class depends on the names of the types alone. -/
theorem outcome_perm (hac : Acyclic ps) (h : qs.Perm ps) (c : ClassDecl) : outcome qs c = outcome ps c := by
  have hp : ¬ ClosesCycle ps c := fun hcloses => hac _ hcloses.cycle.1
  have hq : ¬ ClosesCycle qs c := fun hcloses => hac c.name (inherits_perm h ▸ hcloses.cycle.1)
  simp [outcome, contains_ofClasses_perm h, hp, hq]

theorem NamesOk.perm (hn : NamesOk ps) (h : qs.Perm ps) : NamesOk qs where
  fresh c hc := hn.fresh c (h.subset hc)
  distinct := (h.map ClassDecl.name).nodup_iff.mpr hn.distinct

/-- Where the names are in order, every class is registered. -/
theorem register_of_names (hn : NamesOk ps) : register Context.basic ps =
    ⟨⟨outlines (fun _ => TypeName.object) ps, ps.map some⟩, []⟩ := by
  have hclean := register_clean.mpr ⟨hn.fresh, hn.distinct⟩
  rw [eq_pure hclean, register_eq hclean]
  rfl

theorem register_classes (hn : NamesOk ps) : (register Context.basic ps).value.classes = ps := by
  rw [register_of_names hn]
  exact classes_all _ ps

theorem build_classes (hn : NamesOk p.classes) : (build p).value.classes = p.classes := register_classes hn

theorem linked_linking (hn : NamesOk ps) : Linking ps ps [] (register Context.basic ps).value.linked := by
  have hrun := ((register_linking ps).run (register_namesOk ps)).2
  rw [linked]
  rwa [register_classes hn] at hrun ⊢

theorem linked_reports (hn : NamesOk ps) :
    (ps.foldlM linkParent (register Context.basic ps).value.context).reports =
      ps.flatMap fun c => (outcome ps c).2 := by
  have hrun := ((register_linking ps).run (register_namesOk ps)).1
  rwa [register_classes hn] at hrun

/-- The reports of all rounds. -/
theorem build_rounds (hn : NamesOk p.classes) : (build p).reports =
    p.classes.flatMap (fun c => (outcome p.classes c).2) ++
      (p.classes.flatMap
          (fun c => (defineFeatures (register Context.basic p.classes).value.linked c).reports) ++
        (p.classes.foldlM checkInherited (register Context.basic p.classes).value.featured).reports) := by
  have hfeatures := (LocalTo.round (fun c _ => defineFeatures_local c) hn.distinct
    (register Context.basic p.classes).value.linked).1
  have hlinks := linked_reports hn
  have hclasses := register_classes hn
  have hclean : (register Context.basic p.classes).reports = [] := by rw [register_of_names hn]
  rw [build]
  simp only [reports_bind, reports_pure, List.append_nil, hclean, List.nil_append, featured, linked,
    hclasses] at hfeatures ⊢
  rw [hlinks, hfeatures]

/-! ## The same classes in two orders -/

/-- The classes of `q` are those of `p` in some order, where the order may not matter: their names are in
order, and none inherits from itself. -/
structure Reordered (p q : Program) : Prop where
  names : NamesOk p.classes
  acyclic : Acyclic p.classes
  perm : q.classes.Perm p.classes

namespace Reordered

theorem symm (h : Reordered p q) : Reordered q p where
  names := h.names.perm h.perm
  acyclic a hcycle := h.acyclic a (inherits_perm h.perm ▸ hcycle)
  perm := h.perm.symm

variable (h : Reordered p q)
include h

theorem registered_sameInfo : Context.SameInfo (register Context.basic p.classes).value.context
    (register Context.basic q.classes).value.context := by
  rw [register_of_names h.names, register_of_names h.symm.names]
  apply Context.info?_perm
  · simpa [Context.names, outlines, ClassDecl.outline, Function.comp_def] using h.names.nodup
  · exact (h.perm.map _).append_left _

theorem linked_sameInfo : Context.SameInfo (register Context.basic p.classes).value.linked
    (register Context.basic q.classes).value.linked := by
  have hlinking := linked_linking h.names
  have hlinking' := linked_linking h.symm.names
  intro x
  rw [linked_sameButParents, linked_sameButParents, h.registered_sameInfo x]
  cases hi : (register Context.basic p.classes).value.context.info? x with
  | none => rfl
  | some i =>
      have hx : x ∈ (Context.ofClasses p.classes).names := by
        rw [← Context.contains_iff, ← hlinking.contains_iff, contains_linked]
        simp [Context.contains_iff_info?, hi]
      have hparent : (register Context.basic q.classes).value.linked.parent? x =
          (register Context.basic p.classes).value.linked.parent? x := by
        rcases mem_names_ofClasses.mp hx with hx | hx
        · rw [hlinking.basics x hx, hlinking'.basics x hx]
        · obtain ⟨c, hc, rfl⟩ := List.mem_map.mp hx
          rw [hlinking.linked c hc, hlinking'.linked c (h.perm.mem_iff.mpr hc),
            outcome_perm h.acyclic h.perm]
      rw [hparent]

theorem alikeAt (c : ClassDecl) : AlikeAt c.name (register Context.basic p.classes).value.linked
    (register Context.basic q.classes).value.linked :=
  ⟨h.linked_sameInfo.contains, h.linked_sameInfo c.name⟩

theorem featured_sameInfo : Context.SameInfo (register Context.basic p.classes).value.featured
    (register Context.basic q.classes).value.featured := by
  obtain ⟨_, hclasses, hothers⟩ := LocalTo.round (fun c _ => defineFeatures_local c) h.names.distinct
    (register Context.basic p.classes).value.linked
  obtain ⟨_, hclasses', hothers'⟩ := LocalTo.round (fun c _ => defineFeatures_local c)
    h.symm.names.distinct (register Context.basic q.classes).value.linked
  have hnames := h.perm.map ClassDecl.name
  intro x
  rw [featured, featured, register_classes h.names, register_classes h.symm.names]
  by_cases hx : x ∈ p.classes.map (·.name)
  · obtain ⟨c, hc, rfl⟩ := List.mem_map.mp hx
    rw [hclasses c hc, hclasses' c (h.perm.mem_iff.mpr hc)]
    exact (defineFeatures_local c).info (h.alikeAt c)
  · rw [hothers x hx, hothers' x (fun hx' => hx (hnames.mem_iff.mp hx'))]
    exact h.linked_sameInfo x

theorem build_sameInfo : Context.SameInfo (build p).value.context (build q).value.context := by
  have hp := (build_pruning p).1
  have hq := (build_pruning q).1
  have hF := h.featured_sameInfo
  have hnames := h.perm.map ClassDecl.name
  intro x
  rw [hp x, hq x, hF.pruned, hF x, build_classes h.names, build_classes h.symm.names]
  simp only [hnames.mem_iff]

end Reordered

/-! ## Attributes declared above -/

theorem attribute_of_mem_featured (hn : NamesOk ps) (hc : c ∈ ps) {a : Attribute}
    (ha : a ∈ (register Context.basic ps).value.featured.ownAttributes c.name) :
    ∃ b ∈ c.attributes, b.name = a.name := by
  have hsome : ((register Context.basic ps).value.featured.ownAttribute? c.name a.name).isSome = true := by
    rw [Context.ownAttribute?, List.find?_isSome]
    exact ⟨a, ha, by simp⟩
  obtain ⟨d, hd, heq, hdeclares⟩ := (isSome_ownAttribute?_featured ps c.name).mp hsome
  rw [register_classes hn] at hd
  obtain rfl := hn.eq_of_name hd hc heq
  exact hdeclares

theorem Linking.inherits_of_transGen {done rest : List ClassDecl} {ctx : Context}
    (h : Linking ps done rest ctx) (hn : NamesOk ps) (hd : d ∈ ps) {x : TypeName}
    (hx : Relation.TransGen ctx.Parent x d.name) : Relation.TransGen (Inherits ps) x d.name := by
  induction hx using Relation.TransGen.head_induction_on with
  | single hstep => exact .single (h.inherits_of_parent hn hd hstep .refl)
  | head hstep hrest ih => exact .head (h.inherits_of_parent hn hd hstep hrest.to_reflTransGen) ih

/-- What is above a class along the links is above it by declaration, if it declares an attribute. -/
theorem alsoDeclares_of_declaredAbove (hn : NamesOk ps) {D : TypeName}
    (h : (register Context.basic ps).value.featured.DeclaredAbove c.name name D) :
    ∃ d, d.name = D ∧ AlsoDeclares ps c name d := by
  obtain ⟨d, hd, rfl, hdeclares⟩ := (isSome_ownAttribute?_featured ps D).mp h.declared
  rw [register_classes hn] at hd
  have hlinks : SameLinks (register Context.basic ps).value.linked (register Context.basic ps).value.featured :=
    SameLinks.foldlM fun ctx c _ => defineFeatures_links ctx c
  have habove := h.above
  rw [Context.Parent.congr hlinks] at habove
  exact ⟨d, rfl, hd, (linked_linking hn).inherits_of_transGen hn hd habove, hdeclares⟩

/-! ## Reports -/

/-- What is reported about `q` is reported about `p`, except that an attribute which several classes above
declare may be said to be defined in another one of them. -/
def ReportsCovered (p q : Program) : Prop :=
  ∀ r ∈ (build q).diagnostics, r ∈ (build p).diagnostics ∨
    ∃ c ∈ p.classes, ∃ a ∈ c.attributes, ∃ d e, d ≠ e ∧ AlsoDeclares p.classes c a.name d ∧
      AlsoDeclares p.classes c a.name e ∧ r = ⟨.duplicateAttribute a.name d.name, attrSpan c a.name⟩ ∧
      ⟨.duplicateAttribute a.name e.name, attrSpan c a.name⟩ ∈ (build p).diagnostics

theorem Reordered.reportsCovered (h : Reordered p q) : ReportsCovered p q := by
  have hp := (build_pruning p).2
  have hq := (build_pruning q).2
  have hF := h.featured_sameInfo
  rw [build_classes h.names, register_classes h.names] at hp
  rw [build_classes h.symm.names, register_classes h.symm.names] at hq
  intro r hr
  simp only [diagnostics, Diagnostics.mem_ofReports, build_rounds h.names, build_rounds h.symm.names,
    List.mem_append] at hr ⊢
  rcases hr with hr | hr | hr
  · -- links
    obtain ⟨c, hc, hr⟩ := List.mem_flatMap.mp hr
    rw [outcome_perm h.acyclic h.perm] at hr
    exact .inl (.inl (List.mem_flatMap.mpr ⟨c, h.perm.mem_iff.mp hc, hr⟩))
  · -- features
    obtain ⟨c, hc, hr⟩ := List.mem_flatMap.mp hr
    rw [(defineFeatures_local c).reports (h.alikeAt c)] at hr
    exact .inl (.inr (.inl (List.mem_flatMap.mpr ⟨c, h.perm.mem_iff.mp hc, hr⟩)))
  · obtain ⟨c, hc, hr⟩ := hq.sound r hr
    have hc := h.perm.mem_iff.mp hc
    rcases hr with hr | ⟨a, ha, D, hD, rfl⟩
    · rw [hF.mismatchReports] at hr
      exact .inl (.inr (.inr (hp.mismatches c hc r hr)))
    · rw [hF.ownAttributes] at ha
      rw [hF.declaredAbove] at hD
      obtain ⟨E, hE, hmem⟩ := hp.shadows c hc a ha D hD
      by_cases heq : D = E
      · subst heq
        exact .inl (.inr (.inr hmem))
      · obtain ⟨b, hb, hname⟩ := attribute_of_mem_featured h.names hc ha
        obtain ⟨d, rfl, hd⟩ := alsoDeclares_of_declaredAbove h.names hD
        obtain ⟨e, rfl, he⟩ := alsoDeclares_of_declaredAbove h.names hE
        rw [← hname] at hd he hmem ⊢
        exact .inr ⟨c, hc, b, hb, d, e, fun hde => heq (congrArg _ hde), hd, he, rfl, .inr (.inr hmem)⟩

/-- No class declares an attribute that two classes above it declare. -/
def DeclaredOnceAbove (cs : List ClassDecl) : Prop :=
  ∀ c ∈ cs, ∀ a ∈ c.attributes, ∀ d e, AlsoDeclares cs c a.name d → AlsoDeclares cs c a.name e → d = e

/-- The order of the classes matters neither to the class table nor to the reports, except for the class that
an attribute is said to be defined in which several classes above declare. -/
theorem build_reordered (h : Reordered p q) :
    (build p).value.registered = p.classes.map some ∧ (build q).value.registered = q.classes.map some ∧
    (build q).value.context.types.Perm (build p).value.context.types ∧
    (∀ name, (build q).value.context.info? name = (build p).value.context.info? name) ∧
    ReportsCovered p q ∧ ReportsCovered q p ∧
    (DeclaredOnceAbove p.classes → ∀ r, r ∈ (build q).diagnostics ↔ r ∈ (build p).diagnostics) := by
  have hregistered : ∀ {p : Program}, NamesOk p.classes → (build p).value.registered = p.classes.map some := by
    intro p hn
    change (register Context.basic p.classes).value.registered = _
    rw [register_of_names hn]
  refine ⟨hregistered h.names, hregistered h.symm.names, ?_, h.build_sameInfo, h.reportsCovered,
    h.symm.reportsCovered, fun honce r => ⟨fun hr => ?_, fun hr => ?_⟩⟩
  · exact Context.types_perm (build_wellFormed p).distinct (build_wellFormed q).distinct h.build_sameInfo
  · rcases h.reportsCovered r hr with hr | ⟨c, hc, a, ha, d, e, hne, hd, he, _⟩
    · exact hr
    · exact absurd (honce c hc a ha d e hd he) hne
  · rcases h.symm.reportsCovered r hr with hr | ⟨c, hc, a, ha, d, e, hne, hd, he, _⟩
    · exact hr
    · have hperm := h.perm
      have hback : ∀ {d}, AlsoDeclares q.classes c a.name d → AlsoDeclares p.classes c a.name d :=
        fun hd => ⟨hperm.mem_iff.mp hd.mem, inherits_perm hperm ▸ hd.above, hd.declares⟩
      exact absurd (honce c (hperm.mem_iff.mp hc) a ha d e (hback hd) (hback he)) hne

/-! ## Two programs -/

/-- Classes do not inherit from themselves if every one has a higher rank than the class it inherits from. -/
theorem acyclic_of_rank {cs : List ClassDecl} (rank : TypeName → Nat)
    (h : ∀ c ∈ cs, ∀ b ∈ c.parent, b ∈ cs.map (·.name) → rank b < rank c.name) : Acyclic cs := by
  have hstep : ∀ {a b}, Inherits cs a b → rank b < rank a := by
    rintro a b ⟨c, hc, rfl, hparent, hb⟩
    exact h c hc b hparent hb
  have hrank : ∀ {a b}, Relation.TransGen (Inherits cs) a b → rank b < rank a := by
    intro a b hab
    induction hab with
    | single hab => exact hstep hab
    | tail _ hbc ih => exact Nat.lt_trans (hstep hbc) ih
  exact fun a ha => Nat.lt_irrefl _ (hrank ha)

/-- A class that declares an attribute `x`. -/
def holder (id : NodeId) (name : TypeName) (parent : Option TypeName) : ClassDecl :=
  ⟨id, name, parent, [.attr ⟨"x", TypeName.int, none, ⟨id, id + 1⟩⟩], ⟨id, id + 1⟩⟩

/-- Three classes below each other that declare the same attribute. -/
def layers : Program := ⟨[holder 0 "A" none, holder 1 "B" (some "A"), holder 2 "C" (some "B")]⟩

/-- The same classes, each before the one that it inherits from. -/
def layersReversed : Program := ⟨layers.classes.reverse⟩

theorem layers_reordered : Reordered layers layersReversed where
  names := ⟨by decide, by decide⟩
  acyclic := acyclic_of_rank (fun name => if name = "A" then 0 else if name = "B" then 1 else 2) (by decide)
  perm := List.reverse_perm _

/-- The attribute of the lowest class is reported as defined in the highest one, or in the one between. -/
theorem order_reported : Reordered layers layersReversed ∧
    ¬ ∀ r, r ∈ (build layersReversed).diagnostics ↔ r ∈ (build layers).diagnostics := by
  refine ⟨layers_reordered, fun hsame => ?_⟩
  have hreversed : ⟨.duplicateAttribute "x" "B", ⟨2, 3⟩⟩ ∈ (build layersReversed).diagnostics := by
    decide +kernel
  have hnot : ⟨.duplicateAttribute "x" "B", ⟨2, 3⟩⟩ ∉ (build layers).diagnostics := by decide +kernel
  exact hnot ((hsame _).mp hreversed)

/-- Two classes that declare the same attribute, one below the other, and one below an unknown class. -/
def pair : Program := ⟨[holder 0 "A" none, holder 1 "B" (some "A"), holder 2 "D" (some "Missing")]⟩

theorem pair_reordered :
    let q : Program := ⟨pair.classes.reverse⟩
    Reordered pair q ∧ DeclaredOnceAbove pair.classes ∧
      (∀ name, (build q).value.context.info? name = (build pair).value.context.info? name) ∧
      (∀ r, r ∈ (build q).diagnostics ↔ r ∈ (build pair).diagnostics) ∧
      ⟨.duplicateAttribute "x" "A", ⟨1, 2⟩⟩ ∈ (build q).diagnostics := by
  have hreordered : Reordered pair ⟨pair.classes.reverse⟩ :=
    ⟨⟨by decide, by decide⟩, acyclic_of_rank (fun name => if name = "A" then 0 else 1) (by decide),
      List.reverse_perm _⟩
  have honce : DeclaredOnceAbove pair.classes := by
    have honly : ∀ c ∈ pair.classes, ∀ d ∈ pair.classes, c.parent = some d.name → d.name = "A" := by decide
    have hA : ∀ {c name d}, AlsoDeclares pair.classes c name d → d.name = "A" := by
      rintro c name d ⟨hd, habove, _⟩
      obtain ⟨x, _, e, he, _, hparent, _⟩ := Relation.TransGen.tail'_iff.mp habove
      exact honly e he d hd hparent
    intro c _ a _ d e hd he
    exact hreordered.names.eq_of_name hd.mem he.mem ((hA hd).trans (hA he).symm)
  obtain ⟨_, _, _, hinfo, _, _, hreports⟩ := build_reordered hreordered
  exact ⟨hreordered, honce, hinfo, hreports honce, by decide +kernel⟩

end ClassTable

end CoolTyping
