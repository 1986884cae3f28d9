import CoolTyping.Proofs.Evolution
import CoolTyping.Proofs.Conformance
import Mathlib.Data.List.Forall2

/-!
# Fillings

A filling of a program has a type in place of every placeholder, and is the same program otherwise. The
class tables of both hold the same types with the same links and the same names of features. So if the one
of the filling is built without a report, the other can only report methods that differ from inherited ones
where one of them has a placeholder.
-/

namespace CoolTyping

/-- `t'` may stand in place of the declared type `t` once placeholders are filled with types of `U`. -/
inductive TypeName.Filled (U : List TypeName) : TypeName → TypeName → Prop
  | kept {t} : t ≠ TypeName.auto → Filled U t t
  | filled {t} : t ∈ U → Filled U TypeName.auto t

theorem TypeName.Filled.eq_or {U : List TypeName} {t t' : TypeName} (h : TypeName.Filled U t t') :
    t = TypeName.auto ∨ t = t' := by
  cases h with
  | kept => exact Or.inr rfl
  | filled => exact Or.inl rfl

theorem TypeName.Filled.ne_auto {U : List TypeName} {t t' : TypeName} (h : TypeName.Filled U t t')
    (hU : TypeName.auto ∉ U) : t' ≠ TypeName.auto := by
  cases h with
  | kept hne => exact hne
  | filled hmem => exact fun heq => hU (heq ▸ hmem)

namespace Expr

mutual

/-- The types that `let` bindings and `case` arms declare are filled. -/
inductive Filled (U : List TypeName) : Expr → Expr → Prop
  | assign {span name value value'} : Filled U value value' →
      Filled U (.assign span name value) (.assign span name value')
  | dispatch {span receiver receiver' method args args'} : FilledOpt U receiver receiver' →
      FilledAll U args args' →
      Filled U (.dispatch span receiver method args) (.dispatch span receiver' method args')
  | staticDispatch {span receiver receiver' ancestor method args args'} : Filled U receiver receiver' →
      FilledAll U args args' → Filled U (.staticDispatch span receiver ancestor method args)
        (.staticDispatch span receiver' ancestor method args')
  | cond {span test test' a a' b b'} : Filled U test test' → Filled U a a' → Filled U b b' →
      Filled U (.cond span test a b) (.cond span test' a' b')
  | loop {span test test' body body'} : Filled U test test' → Filled U body body' →
      Filled U (.loop span test body) (.loop span test' body')
  | letIn {span bindings bindings' body body'} : FilledInits U bindings bindings' →
      Filled U body body' → Filled U (.letIn span bindings body) (.letIn span bindings' body')
  | caseOf {span scrutinee scrutinee' arms arms'} : Filled U scrutinee scrutinee' →
      FilledArms U arms arms' → Filled U (.caseOf span scrutinee arms) (.caseOf span scrutinee' arms')
  | block {span body body'} : FilledAll U body body' → Filled U (.block span body) (.block span body')
  | binary {span op left left' right right'} : Filled U left left' → Filled U right right' →
      Filled U (.binary span op left right) (.binary span op left' right')
  | unary {span op operand operand'} : Filled U operand operand' →
      Filled U (.unary span op operand) (.unary span op operand')
  | new {span ty} : Filled U (.new span ty) (.new span ty)
  | paren {span inner inner'} : Filled U inner inner' → Filled U (.paren span inner) (.paren span inner')
  | ident {span name} : Filled U (.ident span name) (.ident span name)
  | int {span value} : Filled U (.int span value) (.int span value)
  | str {span value} : Filled U (.str span value) (.str span value)
  | bool {span value} : Filled U (.bool span value) (.bool span value)

inductive FilledOpt (U : List TypeName) : Option Expr → Option Expr → Prop
  | none : FilledOpt U none none
  | some {e e'} : Filled U e e' → FilledOpt U (some e) (some e')

inductive FilledAll (U : List TypeName) : List Expr → List Expr → Prop
  | nil : FilledAll U [] []
  | cons {e e' es es'} : Filled U e e' → FilledAll U es es' → FilledAll U (e :: es) (e' :: es')

inductive FilledInits (U : List TypeName) :
    List (Binder × Option Expr) → List (Binder × Option Expr) → Prop
  | nil : FilledInits U [] []
  | cons {id name ty ty' span init init' rest rest'} : TypeName.Filled U ty ty' →
      FilledOpt U init init' → FilledInits U rest rest' →
      FilledInits U ((⟨id, name, ty, span⟩, init) :: rest) ((⟨id, name, ty', span⟩, init') :: rest')

inductive FilledArms (U : List TypeName) : List (Binder × Expr) → List (Binder × Expr) → Prop
  | nil : FilledArms U [] []
  | cons {id name ty ty' span body body' rest rest'} : TypeName.Filled U ty ty' →
      Filled U body body' → FilledArms U rest rest' →
      FilledArms U ((⟨id, name, ty, span⟩, body) :: rest) ((⟨id, name, ty', span⟩, body') :: rest')

end

theorem Filled.span_eq {U : List TypeName} {e e' : Expr} (h : Filled U e e') : e.span = e'.span := by
  cases h <;> rfl

theorem FilledAll.length_eq {U : List TypeName} {es es' : List Expr} :
    FilledAll U es es' → es.length = es'.length
  | .nil => rfl
  | .cons _ hes => congrArg Nat.succ hes.length_eq

end Expr

structure AttrDecl.Filled (U : List TypeName) (a a' : AttrDecl) : Prop where
  name : a.name = a'.name
  ty : TypeName.Filled U a.ty a'.ty
  init : Expr.FilledOpt U a.init a'.init
  span : a.span = a'.span

structure Param.Filled (U : List TypeName) (p p' : Param) : Prop where
  name : p.name = p'.name
  ty : TypeName.Filled U p.ty p'.ty
  span : p.span = p'.span

structure MethodDecl.Filled (U : List TypeName) (m m' : MethodDecl) : Prop where
  id : m.id = m'.id
  name : m.name = m'.name
  params : List.Forall₂ (Param.Filled U) m.params m'.params
  ret : TypeName.Filled U m.ret m'.ret
  body : Expr.Filled U m.body m'.body
  span : m.span = m'.span

inductive Feature.Filled (U : List TypeName) : Feature → Feature → Prop
  | attr {a a'} : AttrDecl.Filled U a a' → Filled U (.attr a) (.attr a')
  | method {m m'} : MethodDecl.Filled U m m' → Filled U (.method m) (.method m')

structure ClassDecl.Filled (U : List TypeName) (c c' : ClassDecl) : Prop where
  id : c.id = c'.id
  name : c.name = c'.name
  parent : c.parent = c'.parent
  features : List.Forall₂ (Feature.Filled U) c.features c'.features
  span : c.span = c'.span

/-- `p'` is `p` with types of `U` in place of its placeholders. -/
def Program.Filled (U : List TypeName) (p p' : Program) : Prop :=
  List.Forall₂ (ClassDecl.Filled U) p.classes p'.classes

/-! ## Lists side by side -/

section Lists

variable {α β γ : Type} {R : α → β → Prop} {xs : List α} {ys : List β}

theorem forall₂_find? {p : α → Bool} {q : β → Bool} (h : List.Forall₂ R xs ys)
    (hR : ∀ x y, R x y → p x = q y) : Option.Rel R (xs.find? p) (ys.find? q) := by
  induction h with
  | nil => exact .none
  | @cons x y _ _ hxy _ ih =>
      rw [List.find?_cons, List.find?_cons, ← hR x y hxy]
      cases p x with
      | true => exact .some hxy
      | false => exact ih

theorem rel_findSome? {zs : List γ} {f : γ → Option α} {g : γ → Option β}
    (h : ∀ z, Option.Rel R (f z) (g z)) : Option.Rel R (zs.findSome? f) (zs.findSome? g) := by
  induction zs with
  | nil => exact .none
  | cons z zs ih =>
      rw [List.findSome?_cons, List.findSome?_cons]
      have hz := h z
      generalize f z = x, g z = y at hz
      cases hz with
      | none => exact ih
      | some hxy => exact .some hxy

theorem forall₂_filterMap_eq {f : α → Option γ} {g : β → Option γ} (h : List.Forall₂ R xs ys)
    (hR : ∀ x y, R x y → f x = g y) : xs.filterMap f = ys.filterMap g := by
  induction h with
  | nil => rfl
  | cons hxy _ ih => rw [List.filterMap_cons, List.filterMap_cons, hR _ _ hxy, ih]

theorem forall₂_and_mem {Q : β → Prop} (h : List.Forall₂ R xs ys) (hQ : ∀ y ∈ ys, Q y) :
    List.Forall₂ (fun x y => R x y ∧ Q y) xs ys := by
  induction h with
  | nil => exact .nil
  | cons hxy _ ih =>
      obtain ⟨hy, hys⟩ := List.forall_mem_cons.mp hQ
      exact .cons ⟨hxy, hy⟩ (ih hys)

theorem rel_flip {x : Option α} {y : Option β} (h : Option.Rel R x y) : Option.Rel (flip R) y x := by
  cases h with
  | none => exact .none
  | some h => exact .some h

theorem rel_elim {δ : Type} {S : γ → δ → Prop} {x : Option α} {y : Option β} {c : γ} {d : δ} {f : α → γ}
    {g : β → δ} (h : Option.Rel R x y) (hnone : S c d) (hsome : ∀ a b, R a b → S (f a) (g b)) :
    S (x.elim c f) (y.elim d g) := by
  cases h with
  | none => exact hnone
  | some h => exact hsome _ _ h

end Lists

/-! ## Contexts -/

structure Attribute.Filled (U : List TypeName) (a a' : Attribute) : Prop where
  name : a.name = a'.name
  ty : TypeName.Filled U a.ty a'.ty

structure Signature.Filled (U : List TypeName) (m m' : Signature) : Prop where
  name : m.name = m'.name
  paramTypes : List.Forall₂ (TypeName.Filled U) m.paramTypes m'.paramTypes
  ret : TypeName.Filled U m.ret m'.ret

structure TypeInfo.Filled (U : List TypeName) (i i' : TypeInfo) : Prop where
  name : i.name = i'.name
  kind : i.kind = i'.kind
  parent : i.parent = i'.parent
  attributes : List.Forall₂ (Attribute.Filled U) i.attributes i'.attributes
  methods : List.Forall₂ (Signature.Filled U) i.methods i'.methods

def Context.Filled (U : List TypeName) (ctx ctx' : Context) : Prop :=
  List.Forall₂ (TypeInfo.Filled U) ctx.types ctx'.types

namespace Context

variable {U : List TypeName} {ctx ctx' : Context} {t : TypeName}

theorem ancestorsN_congr (h : ∀ t, ctx.parent? t = ctx'.parent? t) (n : Nat) (t : TypeName) :
    ctx.ancestorsN n t = ctx'.ancestorsN n t := by
  induction n generalizing t with
  | zero => rfl
  | succ n ih =>
      rw [ancestorsN, ancestorsN, h]
      exact congrArg (fun f => t :: (ctx'.parent? t).elim [] f) (funext ih)

/-- Contexts with the same links and own methods that are related have related methods. -/
theorem HasMethod.transfer {R : Signature → Signature → Prop} {name : String} {m : Signature}
    (hm : ctx.HasMethod name t m) (hp : ∀ t, ctx.parent? t = ctx'.parent? t)
    (hown : ∀ t, Option.Rel R (ctx.ownMethod? t name) (ctx'.ownMethod? t name)) :
    ∃ m', ctx'.HasMethod name t m' ∧ R m m' := by
  induction hm with
  | @own t m hm =>
      have hrel := hown t
      rw [hm] at hrel
      generalize hm' : ctx'.ownMethod? t name = x at hrel
      cases hrel with
      | some hR => exact ⟨_, .own hm', hR⟩
  | @inherited t p m hnone hparent _ ih =>
      have hrel := hown t
      rw [hnone] at hrel
      generalize hnone' : ctx'.ownMethod? t name = x at hrel
      cases hrel
      obtain ⟨m', hm', hR⟩ := ih
      exact ⟨m', .inherited hnone' ((hp t).symm.trans hparent) hm', hR⟩

namespace Filled

theorem labels (h : Filled U ctx ctx') : ctx.labels = ctx'.labels :=
  forall₂_map_eq h fun _ _ hi => Prod.ext hi.name hi.kind

theorem concrete_iff (h : Filled U ctx ctx') : t ∈ ctx.concreteTypes ↔ t ∈ ctx'.concreteTypes := by
  rw [mem_concreteTypes, mem_concreteTypes, h.labels]

theorem info? (h : Filled U ctx ctx') (t : TypeName) :
    Option.Rel (TypeInfo.Filled U) (ctx.info? t) (ctx'.info? t) :=
  forall₂_find? h fun _ _ hi => by rw [hi.name]

theorem parent? (h : Filled U ctx ctx') (t : TypeName) : ctx.parent? t = ctx'.parent? t := by
  have hrel := h.info? t
  unfold Context.parent?
  generalize ctx.info? t = x, ctx'.info? t = y at hrel ⊢
  cases hrel with
  | none => rfl
  | some hi => exact hi.parent

theorem ownAttributes (h : Filled U ctx ctx') (t : TypeName) :
    List.Forall₂ (Attribute.Filled U) (ctx.ownAttributes t) (ctx'.ownAttributes t) :=
  rel_elim (h.info? t) .nil fun _ _ hi => hi.attributes

theorem ownMethods (h : Filled U ctx ctx') (t : TypeName) :
    List.Forall₂ (Signature.Filled U) (ctx.ownMethods t) (ctx'.ownMethods t) :=
  rel_elim (h.info? t) .nil fun _ _ hi => hi.methods

theorem ownMethod? (h : Filled U ctx ctx') (t : TypeName) (name : String) :
    Option.Rel (Signature.Filled U) (ctx.ownMethod? t name) (ctx'.ownMethod? t name) :=
  forall₂_find? (h.ownMethods t) fun _ _ hm => by rw [hm.name]

theorem ownAttribute? (h : Filled U ctx ctx') (t : TypeName) (name : String) :
    Option.Rel (Attribute.Filled U) (ctx.ownAttribute? t name) (ctx'.ownAttribute? t name) :=
  forall₂_find? (h.ownAttributes t) fun _ _ ha => by rw [ha.name]

theorem ancestors (h : Filled U ctx ctx') (t : TypeName) : ctx.ancestors t = ctx'.ancestors t := by
  rw [Context.ancestors, Context.ancestors, h.length_eq, ancestorsN_congr h.parent?]

/-- The attribute that is found belongs to the same type. -/
theorem attribute? (h : Filled U ctx ctx') (t : TypeName) (name : String) :
    Option.Rel (fun x y => x.1 = y.1 ∧ Attribute.Filled U x.2 y.2) (ctx.attribute? t name)
      (ctx'.attribute? t name) := by
  rw [Context.attribute?, Context.attribute?, h.ancestors]
  refine rel_findSome? fun owner => ?_
  have hown := h.ownAttribute? owner name
  generalize ctx.ownAttribute? owner name = x, ctx'.ownAttribute? owner name = y at hown
  cases hown with
  | none => exact .none
  | some ha => exact .some ⟨rfl, ha⟩

/-- The method that is found belongs to the same type. -/
theorem method? (h : Filled U ctx ctx') (t : TypeName) (name : String) :
    Option.Rel (fun x y => x.1 = y.1 ∧ Signature.Filled U x.2 y.2) (ctx.method? t name)
      (ctx'.method? t name) := by
  rw [Context.method?, Context.method?, h.ancestors]
  refine rel_findSome? fun owner => ?_
  have hown := h.ownMethod? owner name
  generalize ctx.ownMethod? owner name = x, ctx'.ownMethod? owner name = y at hown
  cases hown with
  | none => exact .none
  | some hm => exact .some ⟨rfl, hm⟩

theorem allAttributes (h : Filled U ctx ctx') (t : TypeName) :
    List.Forall₂ (Attribute.Filled U) (ctx.allAttributes t) (ctx'.allAttributes t) := by
  rw [Context.allAttributes, Context.allAttributes, h.ancestors]
  refine List.rel_flatMap (R := Eq) (List.forall₂_same.mpr fun _ _ => rfl) ?_
  rintro t _ rfl
  exact h.ownAttributes t

theorem conforms (h : Filled U ctx ctx') : ctx.conforms = ctx'.conforms := by
  funext a b
  rw [Context.conforms, Context.conforms, h.ancestors]

theorem join (h : Filled U ctx ctx') : ctx.join = ctx'.join := by
  have hclimb : ctx.climb = ctx'.climb := by
    funext a b
    rw [climb, climb, h.ancestors, h.conforms]
  funext a b
  rw [Context.join, Context.join, hclimb]

theorem joinAll (h : Filled U ctx ctx') : ctx.joinAll = ctx'.joinAll := by
  funext ts
  cases ts with
  | nil => rfl
  | cons t ts => rw [Context.joinAll, Context.joinAll, h.join]

theorem contains (h : Filled U ctx ctx') (t : TypeName) : ctx.contains t = ctx'.contains t :=
  Bool.eq_iff_iff.mpr (contains_congr h.labels)

/-- Where the type that is filled in exists, so does the placeholder. -/
theorem contains_of_filled (h : Filled U ctx ctx') (hauto : ctx'.contains TypeName.auto = true)
    {t t' : TypeName} (ht : TypeName.Filled U t t') (h' : ctx'.contains t' = true) :
    ctx.contains t = true := by
  rw [h.contains]
  cases ht with
  | kept _ => exact h'
  | filled _ => exact hauto

theorem hasMethod (h : Filled U ctx ctx') {name : String} {m : Signature}
    (hm : ctx.HasMethod name t m) : ∃ m', ctx'.HasMethod name t m' ∧ m.Filled U m' :=
  hm.transfer h.parent? (h.ownMethod? · name)

theorem hasMethod' (h : Filled U ctx ctx') {name : String} {m' : Signature}
    (hm : ctx'.HasMethod name t m') : ∃ m, ctx.HasMethod name t m ∧ m.Filled U m' :=
  hm.transfer (fun t => (h.parent? t).symm) fun t => rel_flip (h.ownMethod? t name)

end Filled

/-- Basic types have no placeholders to fill. -/
theorem basic_filled (U : List TypeName) : Filled U basic basic := by
  refine List.forall₂_same.mpr fun i hi => ⟨rfl, rfl, rfl, ?_, List.forall₂_same.mpr fun m hm => ?_⟩
  · have hnone : ∀ i ∈ basic.types, i.attributes = [] := by decide
    rw [hnone i hi]
    exact .nil
  · have hkept : ∀ i ∈ basic.types, ∀ m ∈ i.methods,
        m.ret ≠ TypeName.auto ∧ ∀ ty ∈ m.paramTypes, ty ≠ TypeName.auto := by decide
    obtain ⟨hret, hparams⟩ := hkept i hi m hm
    exact ⟨rfl, List.forall₂_same.mpr fun ty hty => .kept (hparams ty hty), .kept hret⟩

end Context

/-! ## Class tables -/

section Classes

variable {U : List TypeName} {c c' : ClassDecl} {cs cs' : List ClassDecl}

namespace ClassDecl.Filled

theorem attributes (h : ClassDecl.Filled U c c') :
    List.Forall₂ (AttrDecl.Filled U) c.attributes c'.attributes := by
  refine List.rel_filterMap (fun f f' hf => ?_) h.features
  cases hf with
  | attr ha => exact .some ha
  | method _ => exact .none

theorem methods (h : ClassDecl.Filled U c c') :
    List.Forall₂ (MethodDecl.Filled U) c.methods c'.methods := by
  refine List.rel_filterMap (fun f f' hf => ?_) h.features
  cases hf with
  | attr _ => exact .none
  | method hm => exact .some hm

theorem info (h : ClassDecl.Filled U c c') : TypeInfo.Filled U c.info c'.info where
  name := h.name
  kind := rfl
  parent := by rw [ClassDecl.info, ClassDecl.info, parentName, parentName, h.parent]
  attributes := List.rel_map (fun _ _ ha => ⟨ha.name, ha.ty⟩) h.attributes
  methods := by
    refine List.rel_map (fun m m' hm => ⟨hm.name, ?_, hm.ret⟩) h.methods
    rw [Signature.paramTypes, Signature.paramTypes, MethodDecl.signature, MethodDecl.signature,
      List.map_map, List.map_map]
    exact List.rel_map (fun _ _ hp => hp.ty) hm.params

theorem linkParent_eq (h : ClassDecl.Filled U c c') (ctx : Context) :
    ClassTable.linkParent ctx c = ClassTable.linkParent ctx c' := by
  unfold ClassTable.linkParent ClassTable.link
  rw [h.parent, h.name, h.span]

end ClassDecl.Filled

theorem Context.filled_ofClasses (h : List.Forall₂ (ClassDecl.Filled U) cs cs') :
    Context.Filled U (Context.ofClasses cs) (Context.ofClasses cs') :=
  List.rel_append (Context.basic_filled U) (List.rel_map (fun _ _ hc => hc.info) h)

namespace ClassTable

theorem outlines_filled (h : List.Forall₂ (ClassDecl.Filled U) cs cs') (parent : TypeName) :
    outlines (fun _ => parent) cs = outlines (fun _ => parent) cs' := by
  have hmap : cs.map (·.outline parent) = cs'.map (·.outline parent) :=
    forall₂_map_eq h fun c c' hc => by simp only [ClassDecl.outline, hc.name]
  exact congrArg (fun is => (⟨Context.basic.types ++ is⟩ : Context)) hmap

theorem link_filled (h : List.Forall₂ (ClassDecl.Filled U) cs cs') (ctx : Context) :
    cs.foldlM linkParent ctx = cs'.foldlM linkParent ctx := by
  induction h generalizing ctx with
  | nil => rfl
  | cons hc _ ih =>
      rw [List.foldlM_cons, List.foldlM_cons, hc.linkParent_eq]
      exact congrArg _ (funext ih)

theorem NamesOk.congr (h : NamesOk cs) (hnames : cs.map (·.name) = cs'.map (·.name)) : NamesOk cs' where
  fresh c' hc' := by
    obtain ⟨c, hc, hname⟩ := List.mem_map.mp (hnames ▸ List.mem_map_of_mem hc')
    exact hname ▸ h.fresh c hc
  distinct := hnames ▸ h.distinct

theorem names_filled (h : List.Forall₂ (ClassDecl.Filled U) cs cs') : cs.map (·.name) = cs'.map (·.name) :=
  forall₂_map_eq h fun _ _ hc => hc.name

theorem contains_filled (h : List.Forall₂ (ClassDecl.Filled U) cs cs') {t t' : TypeName}
    (ht : TypeName.Filled U t t') (h' : (Context.ofClasses cs').contains t' = true) :
    (Context.ofClasses cs).contains t = true := by
  refine (Context.filled_ofClasses h).contains_of_filled ?_ ht h'
  exact Context.contains_iff.mpr (mem_names_ofClasses.mpr (.inl (by decide)))

theorem FeaturesOk.of_filled (hcs : List.Forall₂ (ClassDecl.Filled U) cs cs')
    (hc : ClassDecl.Filled U c c') (h : FeaturesOk (Context.ofClasses cs') c') :
    FeaturesOk (Context.ofClasses cs) c where
  attributes a ha := by
    obtain ⟨a', ha', hfilled⟩ := forall₂_mem_left hc.attributes ha
    exact contains_filled hcs hfilled.ty (h.attributes a' ha')
  params m hm p hp := by
    obtain ⟨m', hm', hfilled⟩ := forall₂_mem_left hc.methods hm
    obtain ⟨p', hp', hfilled⟩ := forall₂_mem_left hfilled.params hp
    exact contains_filled hcs hfilled.ty (h.params m' hm' p' hp')
  results m hm := by
    obtain ⟨m', hm', hfilled⟩ := forall₂_mem_left hc.methods hm
    exact contains_filled hcs hfilled.ret (h.results m' hm')
  methodNames := by
    rw [forall₂_map_eq hc.methods fun _ _ hm => hm.name]
    exact h.methodNames
  attributeNames := by
    rw [forall₂_map_eq hc.attributes fun _ _ ha => ha.name]
    exact h.attributeNames

/-- The same attributes are inherited too. -/
theorem shadowing_filled {ctx ctx' : Context} (h : Context.Filled U ctx ctx') (t parent : TypeName) :
    shadowing ctx t parent = shadowing ctx' t parent := by
  refine forall₂_filterMap_eq (h.ownAttributes t) fun a a' ha => ?_
  rw [ha.name]
  have hfound := h.attribute? parent a'.name
  generalize ctx.attribute? parent a'.name = x, ctx'.attribute? parent a'.name = y at hfound
  cases hfound with
  | none => rfl
  | some hxy => exact congrArg (fun owner => some (a'.name, owner)) hxy.1

theorem unshadowed_filled (hcs : List.Forall₂ (ClassDecl.Filled U) cs cs') (hc : ClassDecl.Filled U c c') :
    Unshadowed (Context.ofClasses cs) c ↔ Unshadowed (Context.ofClasses cs') c' := by
  have hctx := Context.filled_ofClasses hcs
  simp only [Unshadowed, hc.name, hctx.parent?, shadowing_filled hctx]

/-- Classes fit together if they do once their placeholders are filled. -/
theorem Fitting.of_filled (h : Fitting cs') (hcs : List.Forall₂ (ClassDecl.Filled U) cs cs') :
    Fitting cs where
  names := h.names.congr (names_filled hcs).symm
  links := by
    rw [outlines_filled hcs, link_filled hcs]
    exact h.links
  features c hc := by
    obtain ⟨c', hc', hfilled⟩ := forall₂_mem_left hcs hc
    exact (h.features c' hc').of_filled hcs hfilled
  unshadowed c hc := by
    obtain ⟨c', hc', hfilled⟩ := forall₂_mem_left hcs hc
    exact (unshadowed_filled hcs hfilled).mpr (h.unshadowed c' hc')

end ClassTable

/-! ## Overriding with placeholders -/

/-- Types that are equal once the right types are filled in. -/
def TypeName.MayEqual (a b : TypeName) : Prop := a = TypeName.auto ∨ b = TypeName.auto ∨ a = b

/-- Methods that agree once the right types are filled in. -/
structure Signature.MayAgree (m n : Signature) : Prop where
  paramTypes : List.Forall₂ TypeName.MayEqual m.paramTypes n.paramTypes
  ret : m.ret.MayEqual n.ret

theorem TypeName.Filled.mayEqual {a b t : TypeName} (ha : TypeName.Filled U a t)
    (hb : TypeName.Filled U b t) : a.MayEqual b := by
  cases ha with
  | filled _ => exact Or.inl rfl
  | kept _ =>
      cases hb with
      | filled _ => exact Or.inr (Or.inl rfl)
      | kept _ => exact Or.inr (Or.inr rfl)

theorem forall₂_mayEqual {as bs ts : List TypeName} (ha : List.Forall₂ (TypeName.Filled U) as ts)
    (hb : List.Forall₂ (TypeName.Filled U) bs ts) : List.Forall₂ TypeName.MayEqual as bs := by
  induction ha generalizing bs with
  | nil =>
      cases hb
      exact .nil
  | cons ha _ ih =>
      cases hb with
      | cons hb hbs => exact .cons (ha.mayEqual hb) (ih hbs)

theorem Signature.Filled.mayAgree {m n m' n' : Signature} (hm : m.Filled U m') (hn : n.Filled U n')
    (h : m'.agrees n' = true) : m.MayAgree n := by
  rw [Signature.agrees, Bool.and_eq_true, beq_iff_eq, beq_iff_eq] at h
  exact ⟨forall₂_mayEqual hm.paramTypes (h.2 ▸ hn.paramTypes), hm.ret.mayEqual (h.1 ▸ hn.ret)⟩

namespace ClassTable

/-- The report is about a method of `c` that differs from the inherited one, but only where one of them has
a placeholder. -/
def OverrideOpen (ctx : Context) (c : ClassDecl) (r : Report) : Prop :=
  ∃ parent m owner inherited, ctx.parent? c.name = some parent ∧ m ∈ ctx.ownMethods c.name ∧
    ctx.method? parent m.name = some (owner, inherited) ∧ m.agrees inherited = false ∧
    m.MayAgree inherited ∧ r = ⟨.methodSignatureMismatch m.name owner, methodSpan c m.name⟩

theorem mem_mismatchReports {ctx : Context} {r : Report} : r ∈ mismatchReports ctx c ↔
    ∃ parent m owner inherited, ctx.parent? c.name = some parent ∧ m ∈ ctx.ownMethods c.name ∧
      ctx.method? parent m.name = some (owner, inherited) ∧ m.agrees inherited = false ∧
      r = ⟨.methodSignatureMismatch m.name owner, methodSpan c m.name⟩ := by
  unfold mismatchReports
  cases ctx.parent? c.name with
  | none => simp
  | some parent =>
      simp only [Option.elim_some, List.mem_map, mismatched, List.mem_filterMap, Option.some.injEq]
      constructor
      · rintro ⟨⟨name, owner⟩, ⟨m, hown, hfound⟩, rfl⟩
        cases hmethod : ctx.method? parent m.name with
        | none => simp [hmethod] at hfound
        | some found =>
            rw [hmethod] at hfound
            simp only [Option.ite_none_left_eq_some, Option.some.injEq, Prod.mk.injEq] at hfound
            obtain ⟨hdiffers, rfl, rfl⟩ := hfound
            exact ⟨parent, m, found.1, found.2, rfl, hown, hmethod, by simpa using hdiffers, rfl⟩
      · rintro ⟨_, m, owner, inherited, rfl, hown, hmethod, hdiffers, rfl⟩
        exact ⟨(m.name, owner), ⟨m, hown, by simp [hmethod, hdiffers]⟩, rfl⟩

/-- Where the methods of a filling agree with the inherited ones, the others may. -/
theorem overrideOpen_of_filled (hcs : List.Forall₂ (ClassDecl.Filled U) cs cs')
    (hm : ∀ c ∈ cs', mismatchReports (Context.ofClasses cs') c = []) {r : Report}
    (hr : r ∈ mismatchReports (Context.ofClasses cs) c) : OverrideOpen (Context.ofClasses cs) c r := by
  have hctx := Context.filled_ofClasses hcs
  obtain ⟨parent, m, owner, inherited, hp, hown, hmethod, hdiffers, hreport⟩ := mem_mismatchReports.mp hr
  obtain ⟨m', hown', hfilled⟩ := forall₂_mem_left (hctx.ownMethods c.name) hown
  obtain ⟨inherited', hinherited', hfilled'⟩ :=
    hctx.hasMethod (Context.hasMethod_iff.mpr ⟨owner, hmethod⟩)
  have hagrees := agrees_of_parent hm ((hctx.parent? c.name).symm.trans hp) hown'
    (hfilled.name ▸ hinherited')
  exact ⟨parent, m, owner, inherited, hp, hown, hmethod, hdiffers,
    hfilled.mayAgree hfilled' hagrees, hreport⟩

end ClassTable

end Classes

end CoolTyping
