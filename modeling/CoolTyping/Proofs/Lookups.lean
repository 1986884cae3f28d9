import CoolTyping.Proofs.Operations
import CoolTyping.Proofs.Rounds

/-!
# Looking up features

Attributes that a class also inherits are dropped class by class, while descendants and ancestors still have
theirs. What is left in the end is the declaration nearest to the root on every way up: searching the class
table from a type upwards gives the same as searching the declarations from `Object` downwards. Methods may be
declared again, with the signature of the nearest one above. So where nothing was reported, a type has every
method of the types that it conforms to, with the same signature.
-/

namespace CoolTyping

namespace ClassTable

open Reporting

variable {ctx : Context} {t owner D E : TypeName} {name : String} {a : Attribute}

/-! ## Attributes of a single type -/

/-- No type has two attributes of its own with the same name. -/
def AttributesDistinct (ctx : Context) : Prop := ∀ t, ((ctx.ownAttributes t).map (·.name)).Nodup

theorem ownAttributes_addAttribute (ctx : Context) (owner : TypeName) (a : Attribute) (t : TypeName) :
    (ctx.addAttribute owner a).ownAttributes t = ctx.ownAttributes t ∨
      t = owner ∧ (ctx.addAttribute owner a).ownAttributes t = ctx.ownAttributes t ++ [a] := by
  have hinfo : (ctx.addAttribute owner a).info? t = if t = owner then
      (ctx.info? t).map fun i => { i with attributes := i.attributes ++ [a] } else ctx.info? t := by
    apply Context.info?_modify_eq
    simp
  simp only [Context.ownAttributes, hinfo]
  by_cases ht : t = owner
  · cases ctx.info? t <;> simp [ht]
  · simp [ht]

theorem AttributesDistinct.defineAttribute (h : AttributesDistinct ctx) (owner : TypeName) (a : AttrDecl) :
    AttributesDistinct (defineAttribute owner ctx a).value := by
  by_cases hown : (ctx.ownAttribute? owner a.name).isSome
  · simpa [ClassTable.defineAttribute, hown] using h
  have hvalue : (ClassTable.defineAttribute owner ctx a).value =
      ctx.addAttribute owner (declaredAttribute ctx a) := by
    simp [ClassTable.defineAttribute, hown, declaredAttribute]
  intro t
  rw [hvalue]
  rcases ownAttributes_addAttribute ctx owner (declaredAttribute ctx a) t with hsame | ⟨rfl, hnew⟩
  · rw [hsame]
    exact h t
  · have hfresh : a.name ∉ (ctx.ownAttributes t).map (·.name) := by
      simpa [Context.ownAttribute?] using hown
    rw [hnew, List.map_append]
    exact (h t).append (List.nodup_singleton _) (List.disjoint_singleton.mpr hfresh)

theorem AttributesDistinct.defineFeatures (h : AttributesDistinct ctx) (c : ClassDecl) :
    AttributesDistinct (defineFeatures ctx c).value := by
  rw [ClassTable.defineFeatures, value_bind]
  refine foldlM_value (foldlM_value h fun ctx h a _ => h.defineAttribute c.name a) fun ctx h m _ t => ?_
  rw [ownAttributes_defineMethod]
  exact h t

theorem featured_distinct (cs : List ClassDecl) :
    AttributesDistinct (register Context.basic cs).value.featured := by
  refine foldlM_value (fun t => ?_) fun ctx h c _ => h.defineFeatures c
  rw [ownAttributes_linked, ownAttributes_register]
  exact List.nodup_nil

theorem Pruning.ownAttributes_sublist {F : Context} {done : List ClassDecl} (h : Pruning F done ctx)
    (t : TypeName) : (ctx.ownAttributes t).Sublist (F.ownAttributes t) := by
  rw [Context.ownAttributes, h t, Context.ownAttributes]
  cases F.info? t with
  | none => simp
  | some i =>
      by_cases ht : t ∈ done.map (·.name)
      · simp [ht, Context.pruned]
      · simp [ht]

theorem build_distinct (p : Program) : AttributesDistinct (build p).value.context := fun t =>
  (featured_distinct p.classes t).sublist (((build_pruning p).1.ownAttributes_sublist t).map _)

/-! ## The topmost declaration -/

/-- An attribute stays in a class if no class above declares one of that name. -/
theorem ownAttribute?_build (p : Program) : (build p).value.context.ownAttribute? t name = some a ↔
    (register Context.basic p.classes).value.featured.ownAttribute? t name = some a ∧
      ∀ D, ¬ (register Context.basic p.classes).value.featured.DeclaredAbove t name D := by
  have hclass : (register Context.basic p.classes).value.featured.ownAttribute? t name = some a →
      t ∈ (build p).value.classes.map (·.name) := by
    intro hown
    obtain ⟨d, hd, rfl, _⟩ := (isSome_ownAttribute?_featured p.classes t).mp (Option.isSome_of_eq_some hown)
    exact List.mem_map_of_mem hd
  rw [(build_pruning p).1.ownAttribute?, ← not_exists, ← Context.isSome_inheritedFrom?]
  split
  · rename_i hdropped
    simp [hdropped.2]
  · rename_i hkept
    exact ⟨fun hown => ⟨hown, fun hinherited => hkept ⟨hclass hown, hinherited⟩⟩, And.left⟩

/-- On the way up from a type, at most one type has an attribute of a given name. -/
theorem eq_of_ownAttribute? (p : Program) {b : Attribute} (hD : (build p).value.context.Descends t D)
    (hE : (build p).value.context.Descends t E)
    (hownD : (build p).value.context.ownAttribute? D name = some a)
    (hownE : (build p).value.context.ownAttribute? E name = some b) : D = E := by
  have hparent := Context.Parent.congr (build_pruning p).1.parent?
  have hnot : ∀ {x y a b}, (build p).value.context.Descends x y →
      (build p).value.context.ownAttribute? x name = some a →
        (build p).value.context.ownAttribute? y name = some b → y = x := by
    intro x y a b hxy hx hy
    rcases Relation.reflTransGen_iff_eq_or_transGen.mp hxy with heq | habove
    · exact heq
    · have hdeclared := ((ownAttribute?_build p).mp hy).1
      exact absurd ⟨hparent ▸ habove, by simp [hdeclared]⟩ (((ownAttribute?_build p).mp hx).2 y)
  have hunique : Relator.RightUnique (build p).value.context.Parent :=
    fun _ _ _ h h' => Option.some.inj (h.symm.trans h')
  rcases Relation.ReflTransGen.total_of_right_unique hunique hD hE with hDE | hED
  · exact (hnot hDE hownD hownE).symm
  · exact hnot hED hownE hownD

theorem allAttributes_distinct (p : Program) (t : TypeName) :
    (((build p).value.context.allAttributes t).map (·.name)).Nodup := by
  have hwalk : ((build p).value.context.ancestors t).Nodup := (build_rooted p).nodup_ancestorsN _ t
  rw [Context.allAttributes, List.map_flatMap, List.nodup_flatMap]
  refine ⟨fun D _ => build_distinct p D, ?_⟩
  refine (List.nodup_reverse.mpr hwalk).pairwise_of_forall_ne fun D hD E hE hne name hnameD hnameE => hne ?_
  have hown : ∀ {x}, name ∈ ((build p).value.context.ownAttributes x).map (·.name) →
      ∃ a, (build p).value.context.ownAttribute? x name = some a := by
    intro x hx
    rw [← Option.isSome_iff_exists, Context.ownAttribute?, List.find?_isSome]
    simpa using hx
  obtain ⟨a, ha⟩ := hown hnameD
  obtain ⟨b, hb⟩ := hown hnameE
  rw [List.mem_reverse, Context.mem_ancestors] at hD hE
  exact eq_of_ownAttribute? p hD hE ha hb

theorem contains_build (p : Program) (t : TypeName) : (build p).value.context.contains t =
    (register Context.basic p.classes).value.context.contains t := by
  rw [Bool.eq_iff_iff]
  exact Context.contains_congr (((linked_kept _).trans (featured_kept _)).trans (build_kept p)).labels

/-- Before the last round, a class has the attributes that it declares, with types of the class table. -/
theorem ownAttribute?_declared (p : Program) (t : TypeName) (name : String) :
    (register Context.basic p.classes).value.featured.ownAttribute? t name =
      (firstAttribute? (build p).value.classes t name).map (declaredAttribute (build p).value.context) := by
  rw [ownAttribute?_featured, funext (declaredAttribute_congr (contains_build p))]
  rfl

/-- Searching the class table upwards finds what searching the declarations downwards finds. -/
theorem attribute?_build (p : Program) (t : TypeName) (name : String) :
    (build p).value.context.attribute? t name =
      ((build p).value.context.ancestors t).reverse.findSome? fun owner =>
        (firstAttribute? (build p).value.classes owner name).map fun a =>
          (owner, declaredAttribute (build p).value.context a) := by
  cases hfound : (build p).value.context.attribute? t name with
  | none =>
      symm
      rw [List.findSome?_eq_none_iff]
      intro D hD
      rw [List.mem_reverse, Context.mem_ancestors] at hD
      rw [Option.map_eq_none_iff]
      by_contra hsome
      rw [← ne_eq, Option.ne_none_iff_isSome, isSome_firstAttribute? (build_namesOk p).distinct] at hsome
      obtain ⟨c, hc, rfl, hdeclares⟩ := hsome
      have hattribute := (isSome_attribute?_build p t name).mpr ⟨c, hc, hD, hdeclares⟩
      simp [hfound] at hattribute
  | some found =>
      obtain ⟨as, owner, bs, hwalk, howner, _⟩ := List.findSome?_eq_some_iff.mp hfound
      obtain ⟨a, hown, rfl⟩ := Option.map_eq_some_iff.mp howner
      obtain ⟨hdeclared, htop⟩ := (ownAttribute?_build p).mp hown
      symm
      rw [List.findSome?_eq_some_iff]
      refine ⟨bs.reverse, owner, as.reverse, by simp [hwalk], ?_, fun E hE => ?_⟩
      · rw [ownAttribute?_declared] at hdeclared
        obtain ⟨b, hb, rfl⟩ := Option.map_eq_some_iff.mp hdeclared
        simp [hb]
      · -- what comes later on the walk is above the owner, and declares nothing of that name
        rw [List.mem_reverse] at hE
        have hnodup : ((build p).value.context.ancestors t).Nodup := (build_rooted p).nodup_ancestorsN _ t
        rw [hwalk] at hnodup
        have hne : E ≠ owner := by
          rintro rfl
          exact (List.nodup_cons.mp (List.nodup_append.mp hnodup).2.1).1 hE
        have habove := (Relation.reflTransGen_iff_eq_or_transGen.mp
          (Context.descends_of_split hwalk E (List.mem_cons_of_mem _ hE))).resolve_left hne
        rw [Context.Parent.congr (build_pruning p).1.parent?] at habove
        cases hfirst : firstAttribute? (build p).value.classes E name with
        | none => rfl
        | some b => exact absurd ⟨habove, by simp [ownAttribute?_declared, hfirst]⟩ (htop E)

/-- A type has the attributes that it or an ancestor declares. Of several declarations of a name the one
nearest to the root counts, and of those in one class the first. No name is listed twice. -/
theorem build_attributes (p : Program) (t : TypeName) (name : String) :
    let table := (build p).value
    ((table.context.attribute? t name).isSome = true ↔
      ∃ c ∈ table.classes, c.name ∈ table.context.ancestors t ∧ ∃ a ∈ c.attributes, a.name = name) ∧
    (table.context.attribute? t name =
      (table.context.ancestors t).reverse.findSome? fun owner =>
        (firstAttribute? table.classes owner name).map fun a => (owner, declaredAttribute table.context a)) ∧
    ((table.context.allAttributes t).map (·.name)).Nodup := by
  refine ⟨?_, attribute?_build p t name, allAttributes_distinct p t⟩
  simp only [Context.mem_ancestors]
  exact isSome_attribute?_build p t name

-- three classes that declare the same attribute, each before the one that it inherits from
example :
    let declaring (id : NodeId) (name : TypeName) (parent : Option TypeName) : ClassDecl :=
      ⟨id, name, parent, [.attr ⟨"x", name, none, ⟨id, id + 1⟩⟩], ⟨id, id + 1⟩⟩
    let ctx := (build ⟨[declaring 0 "C" (some "B"), declaring 1 "B" (some "A"),
      declaring 2 "A" none]⟩).value.context
    ctx.attribute? "C" "x" = some ("A", ⟨"x", "A"⟩) ∧ ctx.allAttributes "C" = [⟨"x", "A"⟩] := by
  decide +kernel

/-! ## Methods -/

/-- Where nothing was reported, the methods of a type are the methods of all types that conform to it, up to
the names of parameters. -/
theorem build_methods_kept {p : Program} (hclean : (build p).diagnostics = []) {S T : TypeName}
    (hS : S.isWildcard = false) (hT : T.isWildcard = false)
    (hST : (build p).value.context.conforms S T = true) {m : Signature}
    (hm : (build p).value.context.method? T name = some (owner, m)) :
    ∃ heir n, (build p).value.context.method? S name = some (heir, n) ∧ n.ret = m.ret ∧
      n.paramTypes = m.paramTypes := by
  obtain ⟨hfit, hmismatch⟩ := build_fitting (diagnostics_eq_nil.mp hclean)
  have hcontext : (build p).value.context = Context.ofClasses p.classes := by rw [hfit.build_eq]
  rw [hcontext] at hST hm ⊢
  obtain ⟨n, hn, hret, hparams⟩ := hasMethod_of_descends hmismatch ((Context.conforms_iff hS hT).mp hST)
    (Context.hasMethod_iff.mpr ⟨owner, hm⟩)
  obtain ⟨heir, hheir⟩ := Context.hasMethod_iff.mp hn
  exact ⟨heir, n, hheir, hret, hparams⟩

/-- A method that gives back its argument, or `self` if it has none. -/
def echo (id : NodeId) (name : String) (params : List Param) (ret : TypeName) : Feature :=
  .method ⟨id, name, params, ret, .ident ⟨id, id + 1⟩ ((params.head?.map (·.name)).getD selfName),
    ⟨id, id + 1⟩⟩

/-- A class that declares a basic method again, and one below it that declares one of its methods again. -/
def overriding : Program :=
  ⟨[⟨0, "A", none, [echo 1 "copy" [] TypeName.selfType, echo 2 "f" [⟨"x", TypeName.int, ⟨2, 3⟩⟩] TypeName.int],
      ⟨0, 1⟩⟩,
    ⟨3, "B", some "A", [echo 4 "f" [⟨"y", TypeName.int, ⟨4, 5⟩⟩] TypeName.int], ⟨3, 4⟩⟩]⟩

theorem overriding_kept :
    let ctx := (build overriding).value.context
    (build overriding).diagnostics = [] ∧
    (∃ heir n, ctx.method? "B" "f" = some (heir, n) ∧ n.ret = TypeName.int ∧ n.paramTypes = [TypeName.int]) ∧
    ∃ heir n, ctx.method? "B" "copy" = some (heir, n) ∧ n.ret = TypeName.selfType ∧ n.paramTypes = [] := by
  have hclean : (build overriding).diagnostics = [] := by decide +kernel
  have hf : (build overriding).value.context.method? "A" "f" =
      some ("A", ⟨"f", [("x", TypeName.int)], TypeName.int⟩) := by decide +kernel
  have hcopy : (build overriding).value.context.method? TypeName.object "copy" =
      some (TypeName.object, ⟨"copy", [], TypeName.selfType⟩) := by decide +kernel
  exact ⟨hclean, build_methods_kept hclean (by decide) (by decide) (by decide +kernel) hf,
    build_methods_kept hclean (by decide) (by decide) (by decide +kernel) hcopy⟩

end ClassTable

end CoolTyping
