import CoolTyping.Proofs.Conformance

/-!
# Cycles of inheritance

Classes are linked to their parents one after the other, and those that still wait for their turn hang below
`Object`. A cycle of declared parents is therefore met by the last one of its classes, and by no other: until
then one of the links is missing, and from then on that link leads to `Object`.
-/

namespace CoolTyping

namespace SemanticError

def isCyclic : SemanticError → Bool
  | cyclicInheritance _ => true
  | _ => false

/-- The class whose declared parent the error turns down. -/
def refused? : SemanticError → Option TypeName
  | cyclicInheritance name => some name
  | illegalParent name _ => some name
  | _ => none

/-- The error is about the name of a class, a feature or a type in a declaration. -/
def aboutDeclaration : SemanticError → Bool
  | duplicateClass _ | duplicateAttribute _ _ | duplicateMethod _ _ | methodSignatureMismatch _ _
  | unknownType _ => true
  | _ => false

end SemanticError

namespace Diagnostics

variable {d rs : List Report}

theorem filter_insertAll (f : Report → Bool) :
    (insertAll d rs).filter f = insertAll (d.filter f) (rs.filter f) := by
  unfold insertAll
  induction rs generalizing d with
  | nil => rfl
  | cons r rs ih =>
      rw [List.foldl_cons, ih]
      cases hr : f r with
      | true =>
          rw [List.filter_cons_of_pos hr, List.foldl_cons]
          congr 1
          by_cases hmem : r ∈ d <;> simp [insert, hmem, hr]
      | false =>
          rw [List.filter_cons_of_neg (by simp [hr])]
          congr 1
          by_cases hmem : r ∈ d <;> simp [insert, hmem, hr]

theorem insertAll_of_nodup (h : (d ++ rs).Nodup) : insertAll d rs = d ++ rs := by
  unfold insertAll
  induction rs generalizing d with
  | nil => simp
  | cons r rs ih =>
      have hr : r ∉ d := fun hr => (List.nodup_append.mp h).2.2 r hr r List.mem_cons_self rfl
      rw [List.append_cons] at h ⊢
      rw [List.foldl_cons, insert, if_neg hr]
      exact ih h

end Diagnostics

/-- The parent that a class declares, as far as it is known. -/
def Context.declaredParent (ctx : Context) (c : ClassDecl) : TypeName :=
  c.parent.elim TypeName.object fun parent => if ctx.contains parent then parent else TypeName.error

namespace ClassTable

open Reporting

variable {cs done rest : List ClassDecl} {c d : ClassDecl} {ctx : Context} {a b q x y : TypeName}

/-! ## Cycles of declared parents -/

/-- The class `a` declares the class `b` as its parent. -/
def Inherits (cs : List ClassDecl) (a b : TypeName) : Prop :=
  ∃ c ∈ cs, c.name = a ∧ c.parent = some b ∧ b ∈ cs.map (·.name)

/-- Declared parents lead from `a` to `b` and back. -/
def SameCycle (cs : List ClassDecl) (a b : TypeName) : Prop :=
  Relation.TransGen (Inherits cs) a b ∧ Relation.TransGen (Inherits cs) b a

/-- `c` is declared before `d`. -/
def Precedes (cs : List ClassDecl) (c d : ClassDecl) : Prop := [c, d].Sublist cs

/-- `c` is the last class of a cycle. -/
structure ClosesCycle (cs : List ClassDecl) (c : ClassDecl) : Prop where
  mem : c ∈ cs
  cycle : SameCycle cs c.name c.name
  last : ∀ d, Precedes cs c d → ¬ SameCycle cs c.name d.name

theorem SameCycle.trans (hab : SameCycle cs a b) (hbc : SameCycle cs b x) : SameCycle cs a x :=
  ⟨hab.1.trans hbc.1, hbc.2.trans hab.2⟩

theorem SameCycle.symm (h : SameCycle cs a b) : SameCycle cs b a := ⟨h.2, h.1⟩

theorem precedes_of_mem (hc : c ∈ done) (hd : d ∈ rest) : Precedes (done ++ rest) c d :=
  (List.singleton_sublist.mpr hc).append (List.singleton_sublist.mpr hd)

theorem mem_of_precedes (hc : c ∉ done) (h : Precedes (done ++ c :: rest) c d) : d ∈ rest := by
  obtain ⟨xs, ys, hsplit, hxs, hys⟩ := List.sublist_append_iff.mp h
  cases xs with
  | nil =>
      rw [List.nil_append] at hsplit
      subst hsplit
      rcases List.cons_sublist_cons'.mp hys with hrest | ⟨_, hrest⟩
      · exact hrest.subset (List.mem_cons_of_mem _ List.mem_cons_self)
      · exact List.singleton_sublist.mp hrest
  | cons y ys' =>
      obtain ⟨rfl, _⟩ := List.cons.inj hsplit
      exact absurd (hxs.subset List.mem_cons_self) hc

theorem precedes_total (hc : c ∈ cs) (hd : d ∈ cs) (hne : c ≠ d) :
    Precedes cs c d ∨ Precedes cs d c := by
  obtain ⟨xs, ys, rfl⟩ := List.append_of_mem hc
  rcases List.mem_append.mp hd with hd | hd
  · exact .inr (precedes_of_mem hd List.mem_cons_self)
  · have hd := (List.mem_cons.mp hd).resolve_left (Ne.symm hne)
    rw [List.append_cons]
    exact .inl (precedes_of_mem (List.mem_append_right _ List.mem_cons_self) hd)

theorem exists_last {P : ClassDecl → Prop} (hd : cs.Nodup) (h : ∃ c ∈ cs, P c) :
    ∃ c ∈ cs, P c ∧ ∀ d, Precedes cs c d → ¬ P d := by
  induction cs with
  | nil => simp at h
  | cons e cs ih =>
      obtain ⟨he, hcs⟩ := List.nodup_cons.mp hd
      by_cases hlater : ∃ c ∈ cs, P c
      · obtain ⟨c, hc, hPc, hlast⟩ := ih hcs hlater
        refine ⟨c, List.mem_cons_of_mem _ hc, hPc, fun d hcd => hlast d ?_⟩
        cases hcd with
        | cons _ hcd => exact hcd
        | cons_cons _ _ => exact absurd hc he
      · obtain ⟨c, hc, hPc⟩ := h
        rcases List.mem_cons.mp hc with rfl | hc
        · exact ⟨c, hc, hPc, fun d hcd hPd => hlater ⟨d, mem_of_precedes List.not_mem_nil hcd, hPd⟩⟩
        · exact absurd ⟨c, hc, hPc⟩ hlater

section Names

variable (hn : NamesOk cs)
include hn

theorem NamesOk.eq_of_name (hc : c ∈ cs) (hd : d ∈ cs) (h : c.name = d.name) : c = d :=
  List.inj_on_of_nodup_map hn.distinct hc hd h

/-- A class has one parent. -/
theorem Inherits.unique (h : Inherits cs a x) (h' : Inherits cs a y) : x = y := by
  obtain ⟨c, hc, hca, hcx, _⟩ := h
  obtain ⟨d, hd, hda, hdy, _⟩ := h'
  obtain rfl := hn.eq_of_name hc hd (hca.trans hda.symm)
  exact Option.some.inj (hcx.symm.trans hdy)

/-- A class on a cycle declares another class as its parent. -/
theorem SameCycle.parent (hc : c ∈ cs) (h : SameCycle cs c.name c.name) :
    ∃ q, c.parent = some q ∧ q ∈ cs.map (·.name) := by
  obtain ⟨q, ⟨d, hd, hname, hq⟩, _⟩ := Relation.TransGen.head'_iff.mp h.1
  obtain rfl := hn.eq_of_name hd hc hname
  exact ⟨q, hq⟩

theorem exists_closing (hc : c ∈ cs) (h : SameCycle cs c.name c.name) :
    ∃! d, ClosesCycle cs d ∧ SameCycle cs c.name d.name := by
  obtain ⟨d, hd, hcd, hlast⟩ :=
    exists_last (P := fun d => SameCycle cs c.name d.name) hn.distinct.of_map ⟨c, hc, h⟩
  have hcloses : ClosesCycle cs d :=
    ⟨hd, hcd.symm.trans hcd, fun e hde hcycle => hlast e hde (hcd.trans hcycle)⟩
  refine ⟨d, ⟨hcloses, hcd⟩, ?_⟩
  rintro e ⟨hecloses, hce⟩
  by_contra hne
  rcases precedes_total hecloses.mem hd hne with hed | hde
  · exact hecloses.last d hed (hce.symm.trans hcd)
  · exact hcloses.last e hde (hcd.symm.trans hce)

end Names

/-! ## What becomes of a declared parent -/

/-- The types that no class may inherit from. -/
def sealedTypes : List TypeName :=
  [TypeName.int, TypeName.string, TypeName.bool, TypeName.auto, TypeName.selfType]

open Classical in
/-- The parent that a class ends with, and what is reported about the one that it declares. -/
noncomputable def outcome (cs : List ClassDecl) (c : ClassDecl) : TypeName × List Report :=
  match c.parent with
  | none => (TypeName.object, [])
  | some q =>
    if (Context.ofClasses cs).contains q = false then
      (TypeName.error, [⟨.unknownType q, c.span⟩])
    else if q ∈ sealedTypes then
      (TypeName.object, [⟨.illegalParent c.name q, c.span⟩])
    else if ClosesCycle cs c then
      (TypeName.object, [⟨.cyclicInheritance c.name, c.span⟩])
    else (q, [])

/-- The five ways in which the linking of a class can end. -/
theorem outcome_cases (cs : List ClassDecl) (c : ClassDecl) :
    (c.parent = none ∧ outcome cs c = (TypeName.object, [])) ∨ ∃ q, c.parent = some q ∧
      ((Context.ofClasses cs).contains q = false ∧
          outcome cs c = (TypeName.error, [⟨.unknownType q, c.span⟩]) ∨
        (Context.ofClasses cs).contains q = true ∧
          (q ∈ sealedTypes ∧ outcome cs c = (TypeName.object, [⟨.illegalParent c.name q, c.span⟩]) ∨
            q ∉ sealedTypes ∧
              (ClosesCycle cs c ∧
                  outcome cs c = (TypeName.object, [⟨.cyclicInheritance c.name, c.span⟩]) ∨
                ¬ ClosesCycle cs c ∧ outcome cs c = (q, [])))) := by
  unfold outcome
  cases c.parent with
  | none => exact .inl ⟨rfl, rfl⟩
  | some q =>
      refine .inr ⟨q, rfl, ?_⟩
      dsimp only
      by_cases hknown : (Context.ofClasses cs).contains q = false
      · exact .inl ⟨hknown, if_pos hknown⟩
      rw [if_neg hknown]
      refine .inr ⟨by simpa using hknown, ?_⟩
      by_cases hsealed : q ∈ sealedTypes
      · exact .inl ⟨hsealed, if_pos hsealed⟩
      rw [if_neg hsealed]
      refine .inr ⟨hsealed, ?_⟩
      by_cases hcloses : ClosesCycle cs c
      · exact .inl ⟨hcloses, if_pos hcloses⟩
      · exact .inr ⟨hcloses, if_neg hcloses⟩

/-- The classes `done` were linked, and `rest` are still to come. -/
structure Linking (cs done rest : List ClassDecl) (ctx : Context) : Prop where
  split : cs = done ++ rest
  labels : ctx.labels = (Context.ofClasses cs).labels
  basics : ∀ t ∈ Context.basic.names, ctx.parent? t = Context.basic.parent? t
  linked : ∀ c ∈ done, ctx.parent? c.name = some (outcome cs c).1
  waiting : ∀ c ∈ rest, ctx.parent? c.name = some TypeName.object

theorem basic_of_sealed : ∀ t ∈ sealedTypes, t ∈ Context.basic.names := by decide

theorem not_sealed (hn : NamesOk cs) (hx : x ∈ cs.map (·.name)) : x ∉ sealedTypes := by
  obtain ⟨c, hc, rfl⟩ := List.mem_map.mp hx
  exact fun hs => hn.not_basic hc (basic_of_sealed _ hs)

/-- A class that declares another one as its parent ends below it, unless it closes a cycle. -/
theorem outcome_class (hn : NamesOk cs) (hc : c.parent = some q) (hq : q ∈ cs.map (·.name))
    (hnot : ¬ ClosesCycle cs c) : outcome cs c = (q, []) := by
  have hknown := Context.contains_iff.mpr (mem_names_ofClasses.mpr (.inr hq))
  unfold outcome
  rw [hc]
  simp [hknown, not_sealed hn hq, hnot]

/-- A class ends below a basic type, or below the class that it declares as its parent. -/
theorem outcome_parent_cases (cs : List ClassDecl) (c : ClassDecl) :
    (outcome cs c).1 ∈ Context.basic.names ∨
      c.parent = some (outcome cs c).1 ∧ (outcome cs c).1 ∈ cs.map (·.name) := by
  have hobject : TypeName.object ∈ Context.basic.names := by decide
  have herror : TypeName.error ∈ Context.basic.names := by decide
  rcases outcome_cases cs c with
    ⟨_, ho⟩ | ⟨q, hq, ⟨_, ho⟩ | ⟨hknown, ⟨_, ho⟩ | ⟨_, ⟨_, ho⟩ | ⟨_, ho⟩⟩⟩⟩
  · exact .inl (ho ▸ hobject)
  · exact .inl (ho ▸ herror)
  · exact .inl (ho ▸ hobject)
  · exact .inl (ho ▸ hobject)
  · rw [ho]
    rw [Context.contains_iff, mem_names_ofClasses] at hknown
    exact hknown.imp_right fun hclass => ⟨hq, hclass⟩

namespace Linking

variable (hn : NamesOk cs) (h : Linking cs done rest ctx)
include h

theorem contains_iff : ctx.contains x = true ↔ (Context.ofClasses cs).contains x = true :=
  Context.contains_congr h.labels

theorem basic_of_descends (hx : x ∈ Context.basic.names) (hxy : ctx.Descends x y) :
    y ∈ Context.basic.names := by
  have hall : ∀ t ∈ Context.basic.names, ∀ p, Context.basic.parent? t = some p →
      p ∈ Context.basic.names := by
    have htop : ∀ t ∈ Context.basic.names,
        Context.basic.parent? t = none ∨ Context.basic.parent? t = some TypeName.object := by decide
    intro t ht p hp
    rcases htop t ht with hnone | hobject
    · rw [hnone] at hp
      cases hp
    · rw [hobject] at hp
      cases hp
      decide
  induction hxy with
  | refl => exact hx
  | tail _ hp ih => exact hall _ ih _ ((h.basics _ ih).symm.trans hp)

include hn

/-- A link on the way to a class is one that was declared. -/
theorem inherits_of_parent (hc : c ∈ cs) (hp : ctx.Parent x y) (hy : ctx.Descends y c.name) :
    Inherits cs x y := by
  have hyb : y ∉ Context.basic.names := fun hb => hn.not_basic hc (h.basic_of_descends hb hy)
  have hxb : x ∉ Context.basic.names := fun hb => hyb (h.basic_of_descends hb (.single hp))
  have hx := h.contains_iff.mp (Context.contains_iff.mpr (Context.mem_names_of_parent? hp))
  rw [Context.contains_iff, mem_names_ofClasses] at hx
  obtain ⟨d, hd, rfl⟩ := List.mem_map.mp (hx.resolve_left hxb)
  rw [Context.Parent] at hp
  have hd' := hd
  rw [h.split] at hd'
  rcases List.mem_append.mp hd' with hdone | hrest
  · rw [h.linked d hdone] at hp
    cases hp
    obtain ⟨hparent, hclass⟩ := (outcome_parent_cases cs d).resolve_left hyb
    exact ⟨d, hd, rfl, hparent, hclass⟩
  · rw [h.waiting d hrest] at hp
    cases hp
    exact absurd (by decide) hyb

end Linking

namespace Linking

variable (hn : NamesOk cs) (h : Linking cs done (c :: rest) ctx)
include h

theorem mem : c ∈ cs := h.split ▸ List.mem_append_right _ List.mem_cons_self

theorem precedes_iff (hn : NamesOk cs) : Precedes cs c d ↔ d ∈ rest := by
  have hdone : c ∉ done := by
    have hd := hn.distinct.of_map
    rw [h.split] at hd
    exact fun hc => (List.nodup_append.mp hd).2.2 c hc c List.mem_cons_self rfl
  rw [h.split]
  constructor
  · exact mem_of_precedes hdone
  · intro hd
    rw [List.append_cons]
    exact precedes_of_mem (List.mem_append_right _ List.mem_cons_self) hd

include hn

/-- Once links lead from the declared parent back to the class, so do they from all that declared parents
lead to. -/
theorem descends_of_inherits (hq : c.parent = some q) (hback : ctx.Descends q c.name)
    (hx : Relation.ReflTransGen (Inherits cs) q x) : ctx.Descends x c.name := by
  induction hx with
  | refl => exact hback
  | @tail x y _ hxy ih =>
      rcases Relation.ReflTransGen.cases_head ih with rfl | ⟨z, hxz, hz⟩
      · obtain ⟨d, hd, hname, hparent, _⟩ := hxy
        obtain rfl := hn.eq_of_name hd h.mem hname
        obtain rfl := Option.some.inj (hq.symm.trans hparent)
        exact hback
      · obtain rfl := Inherits.unique hn hxy (h.inherits_of_parent hn h.mem hxz hz)
        exact hz

theorem closes_of_descends (hq : c.parent = some q) (hback : ctx.Descends q c.name) : ClosesCycle cs c := by
  have hway : ∀ {x}, ctx.Descends x c.name → Relation.ReflTransGen (Inherits cs) x c.name := by
    intro x hx
    refine Relation.ReflTransGen.head_induction_on hx .refl ?_
    exact fun hp hy ih => .head (h.inherits_of_parent hn h.mem hp hy) ih
  have hclass : q ∈ cs.map (·.name) := by
    rcases Relation.ReflTransGen.cases_head (hway hback) with rfl | ⟨_, ⟨d, hd, rfl, _⟩, _⟩
    · exact List.mem_map_of_mem h.mem
    · exact List.mem_map_of_mem hd
  have hfirst : Inherits cs c.name q := ⟨c, h.mem, rfl, hq, hclass⟩
  have hcircle : Relation.TransGen (Inherits cs) c.name c.name := .head' hfirst (hway hback)
  refine ⟨h.mem, ⟨hcircle, hcircle⟩, fun d hcd hcycle => ?_⟩
  -- `d` would lie on the way back, but it still hangs below `Object`
  have hd := (h.precedes_iff hn).mp hcd
  obtain ⟨q', hfirst', hqd⟩ := Relation.TransGen.head'_iff.mp hcycle.1
  obtain rfl := Inherits.unique hn hfirst hfirst'
  have hdc := h.descends_of_inherits hn hq hback hqd
  have hwaiting := h.waiting d (List.mem_cons_of_mem _ hd)
  rcases Relation.ReflTransGen.cases_head hdc with hname | ⟨z, hz, hzc⟩
  · have hmem : d ∈ cs := h.split ▸ List.mem_append_right _ (List.mem_cons_of_mem _ hd)
    obtain rfl := hn.eq_of_name hmem h.mem hname
    have hnodup := hn.distinct.of_map
    rw [h.split] at hnodup
    exact (List.nodup_cons.mp (List.nodup_append.mp hnodup).2.1).1 hd
  · obtain rfl := Option.some.inj (hz.symm.trans hwaiting)
    exact hn.not_basic h.mem (h.basic_of_descends (by decide) hzc)

theorem descends_of_closes (hq : c.parent = some q) (hcloses : ClosesCycle cs c) :
    ctx.Descends q c.name := by
  obtain ⟨q', ⟨d, hd, hname, hparent, _⟩, hway⟩ := Relation.TransGen.head'_iff.mp hcloses.cycle.1
  obtain rfl := hn.eq_of_name hd h.mem hname
  obtain rfl := Option.some.inj (hq.symm.trans hparent)
  have hround : Relation.TransGen (Inherits cs) d.name q := .single ⟨d, hd, rfl, hq, ‹_›⟩
  revert hround
  refine Relation.ReflTransGen.head_induction_on hway (fun _ => .refl) ?_
  intro x y hxy hyc ih hx
  have hcycle : SameCycle cs d.name x := ⟨hx, .head' hxy hyc⟩
  have hrest := ih (hx.tail hxy)
  obtain ⟨e, he, rfl, hey, hclass⟩ := hxy
  have hsplit := he
  rw [h.split] at hsplit
  rcases List.mem_append.mp hsplit with hdone | hwaiting
  · -- `d` is later on the same cycle, so the link of `e` was made
    have hprecedes : Precedes cs e d := h.split ▸ precedes_of_mem hdone List.mem_cons_self
    have hparent := h.linked e hdone
    rw [outcome_class hn hey hclass fun hcloses => hcloses.last d hprecedes hcycle.symm] at hparent
    exact .head hparent hrest
  · rcases List.mem_cons.mp hwaiting with rfl | hwaiting
    · exact .refl
    · exact absurd hcycle (hcloses.last e ((h.precedes_iff hn).mpr hwaiting))

/-- Links lead from the declared parent of a class back to it exactly if the class closes a cycle. -/
theorem descends_iff_closes (hq : c.parent = some q) : ctx.Descends q c.name ↔ ClosesCycle cs c :=
  ⟨h.closes_of_descends hn hq, h.descends_of_closes hn hq⟩

end Linking

/-! ## A single link -/

theorem inheritable_congr {ctx' : Context} (hl : ctx'.labels = ctx.labels) (x : TypeName) :
    (ctx'.info? x).all (·.kind.inheritable) = (ctx.info? x).all (·.kind.inheritable) := by
  have hkind : ∀ ctx : Context,
      (ctx.info? x).all (·.kind.inheritable) = (ctx.labels.find? (·.1 == x)).all (·.2.inheritable) := by
    intro ctx
    rw [Context.labels, List.find?_map, Context.info?, Option.all_map]
    rfl
  rw [hkind, hkind, hl]

theorem not_inheritable_iff :
    ((Context.ofClasses cs).info? q).all (·.kind.inheritable) = false ↔ q ∈ sealedTypes := by
  constructor
  · intro h
    cases hi : (Context.ofClasses cs).info? q with
    | none => simp [hi] at h
    | some i =>
        rw [hi] at h
        have hname : i.name = q := by simpa using List.find?_some hi
        have hbasic : ∀ i ∈ Context.basic.types, i.kind.inheritable = false → i.name ∈ sealedTypes := by
          decide
        rcases List.mem_append.mp (List.mem_of_find?_eq_some hi) with hmem | hmem
        · exact hname ▸ hbasic i hmem h
        · obtain ⟨d, _, rfl⟩ := List.mem_map.mp hmem
          cases h
  · intro h
    simp only [sealedTypes, List.mem_cons, List.not_mem_nil, or_false] at h
    rcases h with rfl | rfl | rfl | rfl | rfl <;> rfl

open Classical in
theorem link_eq (ctx : Context) (c : ClassDecl) (parent : TypeName) : link ctx c parent =
    if (ctx.info? parent).all (·.kind.inheritable) = false then
      ⟨ctx, [⟨.illegalParent c.name parent, c.span⟩]⟩
    else if ctx.Descends parent c.name then ⟨ctx, [⟨.cyclicInheritance c.name, c.span⟩]⟩
    else pure (ctx.withParent c.name (some parent)) := by
  unfold link Context.setParent
  simp only [Bool.not_eq_true', List.contains_eq_mem, decide_eq_true_eq, Context.mem_ancestors]
  by_cases hkind : (ctx.info? parent).all (·.kind.inheritable) = false
  · rw [if_pos hkind, if_pos hkind]
    rfl
  rw [if_neg hkind, if_neg hkind]
  by_cases hcircle : ctx.Descends parent c.name
  · rw [if_pos hcircle, if_pos hcircle]
    rfl
  · rw [if_neg hcircle, if_neg hcircle]

/-- A class is linked as its outcome says, and the other links stay as they are. -/
theorem Linking.linkParent (hn : NamesOk cs) (h : Linking cs done (c :: rest) ctx) :
    (linkParent ctx c).reports = (outcome cs c).2 ∧
      ∀ x, (linkParent ctx c).value.parent? x =
        if x = c.name then some (outcome cs c).1 else ctx.parent? x := by
  have hc : ctx.contains c.name = true :=
    h.contains_iff.mpr (Context.contains_iff.mpr (mem_names_ofClasses.mpr (.inr (List.mem_map_of_mem h.mem))))
  have hstay : ∀ x, ctx.parent? x = if x = c.name then some TypeName.object else ctx.parent? x := by
    intro x
    split
    · rename_i hx
      rw [hx, h.waiting c List.mem_cons_self]
    · rfl
  have hlinked : ∀ q x, (ctx.withParent c.name (some q)).parent? x =
      if x = c.name then some q else ctx.parent? x := fun q x => Context.parent?_withParent _ hc
  have hkind : ∀ q, (ctx.info? q).all (·.kind.inheritable) = false ↔ q ∈ sealedTypes :=
    fun q => inheritable_congr h.labels q ▸ not_inheritable_iff
  have hlink : ∀ q, c.parent = some q → (Context.ofClasses cs).contains q = true →
      ClassTable.linkParent ctx c = link ctx c q := by
    intro q hq hknown
    simp only [ClassTable.linkParent, hq, Context.resolve, h.contains_iff.mpr hknown, ↓reduceIte]
  rcases outcome_cases cs c with
    ⟨hq, ho⟩ | ⟨q, hq, ⟨hknown, ho⟩ | ⟨hknown, ⟨hs, ho⟩ | ⟨hs, ⟨hcloses, ho⟩ | ⟨hcloses, ho⟩⟩⟩⟩
  · rw [ho, ClassTable.linkParent, hq]
    exact ⟨rfl, hstay⟩
  · -- the type `<error>` may have children, and no class is above it
    have hunknown : ClassTable.linkParent ctx c =
        (do report (.unknownType q) c.span; link ctx c TypeName.error) := by
      have hctx : ¬ ctx.contains q = true := fun hc => by simp [h.contains_iff.mp hc] at hknown
      simp only [ClassTable.linkParent, hq, Context.resolve, hctx, Bool.false_eq_true, ↓reduceIte]
    have hnot : ¬ ctx.Descends TypeName.error c.name :=
      fun hd => hn.not_basic h.mem (h.basic_of_descends (by decide) hd)
    rw [ho, hunknown, link_eq, if_neg (mt (hkind _).mp (by decide)), if_neg hnot]
    exact ⟨rfl, hlinked TypeName.error⟩
  · rw [ho, hlink q hq hknown, link_eq, if_pos ((hkind q).mpr hs)]
    exact ⟨rfl, hstay⟩
  · rw [ho, hlink q hq hknown, link_eq, if_neg (mt (hkind q).mp hs),
      if_pos ((h.descends_iff_closes hn hq).mpr hcloses)]
    exact ⟨rfl, hstay⟩
  · rw [ho, hlink q hq hknown, link_eq, if_neg (mt (hkind q).mp hs),
      if_neg (mt (h.descends_iff_closes hn hq).mp hcloses)]
    exact ⟨rfl, hlinked q⟩

theorem Linking.step (hn : NamesOk cs) (h : Linking cs done (c :: rest) ctx) :
    Linking cs (done ++ [c]) rest (ClassTable.linkParent ctx c).value := by
  have hparent := (h.linkParent hn).2
  have hne : ∀ d ∈ cs, d ≠ c →
      (ClassTable.linkParent ctx c).value.parent? d.name = ctx.parent? d.name := by
    intro d hd hdc
    rw [hparent, if_neg fun hname => hdc (hn.eq_of_name hd h.mem hname)]
  have hnodup := hn.distinct.of_map
  rw [h.split, List.nodup_append] at hnodup
  obtain ⟨_, hrest, hdisjoint⟩ := hnodup
  refine ⟨by rw [h.split, List.append_cons], ?_, fun t ht => ?_, fun d hd => ?_, fun d hd => ?_⟩
  · exact (linkParent_kept ctx c : Kept [] ctx _).labels.trans h.labels
  · rw [hparent, if_neg fun hname : t = c.name => hn.not_basic h.mem (hname ▸ ht)]
    exact h.basics t ht
  · rcases List.mem_append.mp hd with hd | hd
    · rw [hne d (h.split ▸ List.mem_append_left _ hd) (hdisjoint d hd c List.mem_cons_self)]
      exact h.linked d hd
    · obtain rfl := List.mem_singleton.mp hd
      rw [hparent, if_pos rfl]
  · rw [hne d (h.split ▸ List.mem_append_right _ (List.mem_cons_of_mem _ hd))]
    · exact h.waiting d (List.mem_cons_of_mem _ hd)
    · rintro rfl
      exact (List.nodup_cons.mp hrest).1 hd

/-! ## All links -/

/-- From class to class, every one is linked as its outcome says. -/
theorem Linking.run (hn : NamesOk cs) (h : Linking cs done rest ctx) :
    (rest.foldlM ClassTable.linkParent ctx).reports = rest.flatMap (fun c => (outcome cs c).2) ∧
      Linking cs cs [] (rest.foldlM ClassTable.linkParent ctx).value := by
  induction rest generalizing done ctx with
  | nil =>
      have hall := h.split
      rw [List.append_nil] at hall
      subst hall
      exact ⟨rfl, h⟩
  | cons c rest ih =>
      obtain ⟨hreports, hlinking⟩ := ih (h.step hn)
      rw [List.foldlM_cons, reports_bind, value_bind, (h.linkParent hn).1, hreports, List.flatMap_cons]
      exact ⟨rfl, hlinking⟩

/-! ## Registration -/

theorem register_info (ctx : Context) (cs : List ClassDecl) :
    (∀ x, ctx.contains x = true → (register ctx cs).value.context.info? x = ctx.info? x) ∧
      ∀ c ∈ (register ctx cs).value.classes,
        (register ctx cs).value.context.info? c.name = some (c.outline TypeName.object) := by
  induction cs generalizing ctx with
  | nil => exact ⟨fun _ _ => rfl, fun _ hc => absurd hc List.not_mem_nil⟩
  | cons c cs ih =>
      unfold register
      cases hc : ctx.create c.name with
      | error e => exact ih ctx
      | ok ctx' =>
          have hinfo := Context.info?_create hc
          have hfresh := (Context.create_eq_ok hc).1
          obtain ⟨hkept, hclasses⟩ := ih ctx'
          constructor
          · intro x hx
            have hne : x ≠ c.name := by
              rintro rfl
              exact Bool.false_ne_true (hfresh.symm.trans hx)
            have hx' : ctx'.contains x = true := by
              simpa [Context.contains_iff_info?, hinfo, hne] using hx
            simpa [hinfo, hne] using hkept x hx'
          · intro d hd
            rcases List.mem_cons.mp hd with rfl | hd
            · simpa [hinfo, ClassDecl.outline] using hkept d.name (by simp [Context.contains_iff_info?, hinfo])
            · exact hclasses d hd

theorem register_parents (ctx : Context) (cs : List ClassDecl) :
    (∀ x, ctx.contains x = true → (register ctx cs).value.context.parent? x = ctx.parent? x) ∧
      ∀ c ∈ (register ctx cs).value.classes,
        (register ctx cs).value.context.parent? c.name = some TypeName.object := by
  obtain ⟨hkept, hclasses⟩ := register_info ctx cs
  constructor
  · intro x hx
    rw [Context.parent?, hkept x hx, Context.parent?]
  · intro c hc
    rw [Context.parent?, hclasses c hc]
    rfl

theorem register_namesOk (cs : List ClassDecl) : NamesOk (register Context.basic cs).value.classes := by
  have hreg := register_registered Context.basic_names_nodup cs
  have hnames := hreg.distinct
  rw [Context.names_eq, hreg.labels, List.map_append, ← Context.names_eq, List.map_map] at hnames
  obtain ⟨_, hdistinct, hdisjoint⟩ := List.nodup_append.mp hnames
  refine ⟨fun c hc => ?_, hdistinct⟩
  rw [← Bool.not_eq_true, Context.contains_iff]
  exact fun hb => hdisjoint c.name hb c.name (List.mem_map_of_mem hc) rfl

theorem register_linking (cs : List ClassDecl) :
    Linking (register Context.basic cs).value.classes [] (register Context.basic cs).value.classes
      (register Context.basic cs).value.context where
  split := rfl
  labels := (register_registered Context.basic_names_nodup cs).labels.trans (Fitting.labels_eq _).symm
  basics t ht := (register_parents Context.basic cs).1 t (Context.contains_iff.mpr ht)
  linked _ hc := absurd hc List.not_mem_nil
  waiting := (register_parents Context.basic cs).2

/-! ## Reports that are not about links -/

theorem register_aboutDeclaration {r : Report} (hr : r ∈ (register ctx cs).reports) :
    r.error.aboutDeclaration = true := by
  induction cs generalizing ctx with
  | nil => cases hr
  | cons c cs ih =>
      unfold register at hr
      cases hc : ctx.create c.name with
      | ok ctx' =>
          rw [hc] at hr
          exact ih (by simpa using hr)
      | error e =>
          rw [hc] at hr
          rcases List.mem_cons.mp hr with rfl | hr
          · unfold Context.create at hc
            split at hc
            · cases hc
              rfl
            · cases hc
          · exact ih (by simpa using hr)

theorem declaredType_aboutDeclaration {name : TypeName} {span : Span} {r : Report}
    (hr : r ∈ (declaredType ctx name span).reports) : r.error.aboutDeclaration = true := by
  unfold declaredType Context.resolve at hr
  by_cases hname : ctx.contains name = true
  · simp [hname] at hr
  · simp only [hname, Bool.false_eq_true, ↓reduceIte, reports_bind, reports_report, reports_pure,
      List.append_nil, List.mem_singleton] at hr
    rw [hr]
    rfl

theorem defineFeatures_aboutDeclaration {r : Report} (hr : r ∈ (defineFeatures ctx c).reports) :
    r.error.aboutDeclaration = true := by
  unfold defineFeatures at hr
  rw [reports_bind, List.mem_append] at hr
  rcases hr with hr | hr
  · obtain ⟨ctx', a, _, hr⟩ := mem_reports_foldlM hr
    unfold defineAttribute at hr
    rw [reports_bind, List.mem_append] at hr
    rcases hr with hr | hr
    · exact declaredType_aboutDeclaration hr
    · split at hr
      · rw [List.mem_singleton.mp hr]
        rfl
      · cases hr
  · obtain ⟨ctx', d, _, hr⟩ := mem_reports_foldlM hr
    unfold defineMethod at hr
    rw [reports_bind, reports_bind, reports_mapM, List.mem_append, List.mem_append, List.mem_flatMap] at hr
    rcases hr with ⟨p, _, hr⟩ | hr | hr
    · exact declaredType_aboutDeclaration (by simpa using hr)
    · exact declaredType_aboutDeclaration hr
    · split at hr
      · rw [List.mem_singleton.mp hr]
        rfl
      · cases hr

theorem checkInherited_aboutDeclaration {r : Report} (hr : r ∈ (checkInherited ctx c).reports) :
    r.error.aboutDeclaration = true := by
  unfold checkInherited at hr
  cases hp : ctx.parent? c.name with
  | none =>
      rw [hp] at hr
      cases hr
  | some parent =>
      rw [hp] at hr
      simp only [reports_bind, reports_tell, reports_pure, List.append_nil, List.mem_append,
        List.mem_map] at hr
      rcases hr with ⟨_, _, rfl⟩ | ⟨_, _, rfl⟩
      · rfl
      · rfl

/-! ## The class table -/

namespace SemanticError

variable {e : SemanticError}

theorem refused?_of_aboutDeclaration (h : e.aboutDeclaration = true) : e.refused? = none := by
  cases e with
  | cyclicInheritance name => cases h
  | illegalParent child parent => cases h
  | _ => rfl

theorem isCyclic_of_aboutDeclaration (h : e.aboutDeclaration = true) : e.isCyclic = false := by
  cases e with
  | cyclicInheritance name => cases h
  | _ => rfl

end SemanticError

/-- Apart from reports about declarations, a program is reported on as the outcomes of its classes say. -/
theorem build_reports (p : Program) : ∃ before after : List Report,
    (build p).reports = before ++ (build p).value.classes.flatMap
      (fun c => (outcome (build p).value.classes c).2) ++ after ∧
    (∀ r ∈ before, r.error.aboutDeclaration = true) ∧ ∀ r ∈ after, r.error.aboutDeclaration = true := by
  let t := (register Context.basic p.classes).value
  have hlinks := ((register_linking p.classes).run (register_namesOk p.classes)).1
  refine ⟨(register Context.basic p.classes).reports, (t.classes.foldlM defineFeatures t.linked).reports ++
    (t.classes.foldlM checkInherited t.featured).reports, ?_, fun r hr => register_aboutDeclaration hr,
    fun r hr => ?_⟩
  · have hrounds : (build p).reports = (register Context.basic p.classes).reports ++
        ((t.classes.foldlM linkParent t.context).reports ++
          ((t.classes.foldlM defineFeatures t.linked).reports ++
            ((t.classes.foldlM checkInherited t.featured).reports ++ []))) := rfl
    rw [hrounds, hlinks, List.append_nil, List.append_assoc]
    rfl
  · rcases List.mem_append.mp hr with hr | hr
    · obtain ⟨ctx, c, _, hr⟩ := mem_reports_foldlM hr
      exact defineFeatures_aboutDeclaration hr
    · obtain ⟨ctx, c, _, hr⟩ := mem_reports_foldlM hr
      exact checkInherited_aboutDeclaration hr

theorem mem_refusals {p : Program} {r : Report} (hr : r.error.refused? ≠ none) :
    r ∈ (build p).diagnostics ↔
      ∃ c ∈ (build p).value.classes, r ∈ (outcome (build p).value.classes c).2 := by
  obtain ⟨before, after, hreports, hbefore, hafter⟩ := build_reports p
  rw [diagnostics, Diagnostics.mem_ofReports, hreports, List.mem_append, List.mem_append, List.mem_flatMap]
  constructor
  · rintro ((hmem | hmem) | hmem)
    · exact absurd (SemanticError.refused?_of_aboutDeclaration (hbefore r hmem)) hr
    · exact hmem
    · exact absurd (SemanticError.refused?_of_aboutDeclaration (hafter r hmem)) hr
  · exact fun hmem => .inl (.inr hmem)

/-! ## What outcomes report -/

open Classical in
theorem filter_outcome (hn : NamesOk cs) (hc : c ∈ cs) : (outcome cs c).2.filter (·.error.isCyclic) =
    if ClosesCycle cs c then [⟨.cyclicInheritance c.name, c.span⟩] else [] := by
  by_cases hcloses : ClosesCycle cs c
  · obtain ⟨q, hq, hclass⟩ := hcloses.cycle.parent hn hc
    have hknown := Context.contains_iff.mpr (mem_names_ofClasses.mpr (.inr hclass))
    simp [outcome, hq, hknown, not_sealed hn hclass, hcloses, SemanticError.isCyclic]
  · rw [if_neg hcloses]
    rcases outcome_cases cs c with
      ⟨_, ho⟩ | ⟨q, _, ⟨_, ho⟩ | ⟨_, ⟨_, ho⟩ | ⟨_, ⟨h, _⟩ | ⟨_, ho⟩⟩⟩⟩
    · rw [ho]; rfl
    · rw [ho]; rfl
    · rw [ho]; rfl
    · exact absurd h hcloses
    · rw [ho]; rfl

theorem refused_of_mem_outcome {r : Report} (hr : r ∈ (outcome cs c).2) (h : r.error.refused? = some x) :
    x = c.name := by
  rcases outcome_cases cs c with
    ⟨_, ho⟩ | ⟨q, _, ⟨_, ho⟩ | ⟨_, ⟨_, ho⟩ | ⟨_, ⟨_, ho⟩ | ⟨_, ho⟩⟩⟩⟩
  · simp [ho] at hr
  · obtain rfl := by simpa [ho] using hr
    cases h
  · obtain rfl := by simpa [ho] using hr
    exact (Option.some.inj h).symm
  · obtain rfl := by simpa [ho] using hr
    exact (Option.some.inj h).symm
  · simp [ho] at hr

/-- A class whose parent is turned down ends below `Object`, and others below the parent that they declare. -/
theorem outcome_parent (cs : List ClassDecl) (c : ClassDecl) : (outcome cs c).1 =
    if (outcome cs c).2.any (·.error.refused? == some c.name) then TypeName.object
    else (Context.ofClasses cs).declaredParent c := by
  unfold Context.declaredParent
  rcases outcome_cases cs c with
    ⟨hq, ho⟩ | ⟨q, hq, ⟨hknown, ho⟩ | ⟨hknown, ⟨_, ho⟩ | ⟨_, ⟨_, ho⟩ | ⟨_, ho⟩⟩⟩⟩
  · simp [ho, hq]
  · simp [ho, hq, hknown, SemanticError.refused?]
  · simp [ho, SemanticError.refused?]
  · simp [ho, SemanticError.refused?]
  · simp [ho, hq, hknown]

theorem illegal_mem_outcome (cs : List ClassDecl) :
    ⟨.illegalParent c.name x, c.span⟩ ∈ (outcome cs c).2 ↔ c.parent = some x ∧ x ∈ sealedTypes := by
  rcases outcome_cases cs c with
    ⟨hq, ho⟩ | ⟨q, hq, ⟨hknown, ho⟩ | ⟨_, ⟨hs, ho⟩ | ⟨hs, ⟨_, ho⟩ | ⟨_, ho⟩⟩⟩⟩
  · simp [ho, hq]
  · refine ⟨fun h => by simp [ho] at h, ?_⟩
    rintro ⟨hx, hs⟩
    cases hq.symm.trans hx
    have hcontains : (Context.ofClasses cs).contains x = true :=
      Context.contains_iff.mpr (mem_names_ofClasses.mpr (.inl (basic_of_sealed _ hs)))
    exact absurd hcontains (by simp [hknown])
  · simp only [ho, hq, List.mem_singleton, Report.mk.injEq, SemanticError.illegalParent.injEq, true_and,
      and_true, Option.some.injEq]
    exact ⟨fun hx => ⟨hx.symm, hx ▸ hs⟩, fun hx => hx.1.symm⟩
  · refine ⟨fun h => by simp [ho] at h, ?_⟩
    rintro ⟨hx, hx'⟩
    cases hq.symm.trans hx
    exact absurd hx' hs
  · refine ⟨fun h => by simp [ho] at h, ?_⟩
    rintro ⟨hx, hx'⟩
    cases hq.symm.trans hx
    exact absurd hx' hs

/-! ## All cycles are found -/

theorem build_namesOk (p : Program) : NamesOk (build p).value.classes := register_namesOk p.classes

theorem build_parent (p : Program) (hc : c ∈ (build p).value.classes) :
    (build p).value.context.parent? c.name = some (outcome (build p).value.classes c).1 := by
  rw [build_links p c.name]
  exact ((register_linking p.classes).run (register_namesOk p.classes)).2.linked c hc

open Classical in
theorem build_cyclic (p : Program) : (build p).diagnostics.filter (·.error.isCyclic) =
    ((build p).value.classes.filter (ClosesCycle (build p).value.classes ·)).map
      fun c => ⟨.cyclicInheritance c.name, c.span⟩ := by
  have hn := build_namesOk p
  obtain ⟨before, after, hreports, hbefore, hafter⟩ := build_reports p
  generalize (build p).value.classes = cs at hn hreports
  have hother : ∀ rs : List Report, (∀ r ∈ rs, r.error.aboutDeclaration = true) →
      rs.filter (·.error.isCyclic) = [] := by
    intro rs hrs
    refine List.filter_eq_nil_iff.mpr fun r hr => ?_
    simp [SemanticError.isCyclic_of_aboutDeclaration (hrs r hr)]
  have houtcomes : ∀ ds ⊆ cs, (ds.flatMap fun c => (outcome cs c).2).filter (·.error.isCyclic) =
      (ds.filter (ClosesCycle cs ·)).map fun c => ⟨.cyclicInheritance c.name, c.span⟩ := by
    intro ds hds
    induction ds with
    | nil => rfl
    | cons d ds ih =>
        obtain ⟨hd, hds⟩ := List.cons_subset.mp hds
        rw [List.flatMap_cons, List.filter_append, filter_outcome hn hd, ih hds, List.filter_cons]
        by_cases hcloses : ClosesCycle cs d <;> simp [hcloses]
  rw [diagnostics, Diagnostics.ofReports, Diagnostics.filter_insertAll, hreports, List.filter_append,
    List.filter_append, hother before hbefore, hother after hafter, houtcomes cs (List.Subset.refl cs),
    List.nil_append, List.append_nil, List.filter_nil, Diagnostics.insertAll_of_nodup, List.nil_append]
  -- different classes have different names
  refine List.Nodup.map_on (fun c hc d hd heq => ?_) (hn.distinct.of_map.filter _)
  have hname : c.name = d.name := by injection heq with herror; injection herror
  exact hn.eq_of_name (List.mem_of_mem_filter hc) (List.mem_of_mem_filter hd) hname

theorem declaredParent_congr {ctx' : Context} (hl : ctx'.labels = ctx.labels) (c : ClassDecl) :
    ctx'.declaredParent c = ctx.declaredParent c := by
  simp only [Context.declaredParent, Context.contains_congr hl]

/-- The parent of a class is turned down exactly if that is reported. -/
theorem any_refused (p : Program) (hc : c ∈ (build p).value.classes) :
    (build p).diagnostics.any (·.error.refused? == some c.name) =
      (outcome (build p).value.classes c).2.any (·.error.refused? == some c.name) := by
  rw [Bool.eq_iff_iff, List.any_eq_true, List.any_eq_true]
  constructor
  · rintro ⟨r, hr, hname⟩
    have hname : r.error.refused? = some c.name := by simpa using hname
    obtain ⟨d, hd, hmem⟩ := (mem_refusals (by simp [hname])).mp hr
    obtain rfl := (build_namesOk p).eq_of_name hc hd (refused_of_mem_outcome hmem hname)
    exact ⟨r, hmem, by simpa using hname⟩
  · rintro ⟨r, hr, hname⟩
    have hsome : r.error.refused? ≠ none := by
      have hname : r.error.refused? = some c.name := by simpa using hname
      simp [hname]
    exact ⟨r, (mem_refusals hsome).mpr ⟨c, hc, hr⟩, hname⟩

open Classical in
/-- Of every cycle of declared parents exactly one class is reported, the last one, and no other class is. A
class that is reported, or that declares a parent which may not have children, ends below `Object`. All others
end below the parent that they declare. -/
theorem build_cycles (p : Program) :
    (build p).diagnostics.filter (·.error.isCyclic) =
        ((build p).value.classes.filter (ClosesCycle (build p).value.classes ·)).map
          (fun c => ⟨.cyclicInheritance c.name, c.span⟩) ∧
      (∀ c ∈ (build p).value.classes, SameCycle (build p).value.classes c.name c.name →
        ∃! d, ClosesCycle (build p).value.classes d ∧
          SameCycle (build p).value.classes c.name d.name) ∧
      (∀ c ∈ (build p).value.classes, ∀ parent,
        ⟨.illegalParent c.name parent, c.span⟩ ∈ (build p).diagnostics ↔
          c.parent = some parent ∧ parent ∈ sealedTypes) ∧
      ∀ c ∈ (build p).value.classes, (build p).value.context.parent? c.name =
        some (if (build p).diagnostics.any (·.error.refused? == some c.name) then TypeName.object
          else (build p).value.context.declaredParent c) := by
  have hn := build_namesOk p
  refine ⟨build_cyclic p, fun c hc => exists_closing hn hc, fun c hc parent => ?_, fun c hc => ?_⟩
  · rw [mem_refusals (by simp [SemanticError.refused?]), ← illegal_mem_outcome (build p).value.classes]
    constructor
    · rintro ⟨d, hd, hmem⟩
      obtain rfl := hn.eq_of_name hc hd (refused_of_mem_outcome hmem rfl)
      exact hmem
    · exact fun hmem => ⟨c, hc, hmem⟩
  · have hlabels : (build p).value.context.labels = (Context.ofClasses (build p).value.classes).labels :=
      (build_wellFormed p).labels.trans (Fitting.labels_eq _).symm
    rw [build_parent p hc, outcome_parent, any_refused p hc, declaredParent_congr hlabels]

/-- Three classes in a circle, one that inherits from them, and one that inherits from itself. -/
example : (build ⟨[⟨0, "A", some "C", [], ⟨0, 1⟩⟩, ⟨1, "B", some "A", [], ⟨1, 2⟩⟩,
    ⟨2, "D", some "B", [], ⟨2, 3⟩⟩, ⟨3, "C", some "B", [], ⟨3, 4⟩⟩,
    ⟨4, "E", some "E", [], ⟨4, 5⟩⟩]⟩).diagnostics =
      [⟨.cyclicInheritance "C", ⟨3, 4⟩⟩, ⟨.cyclicInheritance "E", ⟨4, 5⟩⟩] := by
  decide +kernel

end ClassTable

end CoolTyping
