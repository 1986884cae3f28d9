import CoolTyping.Analysis
import CoolTyping.Proofs.Fillings
import CoolTyping.Proofs.Invariants
import CoolTyping.Proofs.Nesting
import CoolTyping.Proofs.StrictCheck
import Mathlib

/-!
# Placeholders are eliminated

Every declared type has an entry in the bag of the scope that declares it. So inference fills in all
placeholders, each with the join of the candidates that its entry ended with, and changes nothing else.
-/

namespace CoolTyping

/-! ## Declarations -/

/-- A declared type: the scope that declares it, the slot in the bag of that scope, and the type. -/
structure Declaration where
  owner : NodeId
  slot : Slot
  ty : TypeName

def Expr.declarations (e : Expr) : List Declaration :=
  e.binders.map fun b => ⟨b.id, .var b.name, b.ty⟩

/-- The declarations in a feature of the class numbered `owner`. -/
def Feature.declarations (owner : NodeId) : Feature → List Declaration
  | .attr a => ⟨owner, .var a.name, a.ty⟩ :: a.init.elim [] Expr.declarations
  | .method m => m.params.map (fun p => ⟨m.id, .var p.name, p.ty⟩) ++
      ⟨owner, .result m.name, m.ret⟩ :: m.body.declarations

def ClassDecl.declarations (c : ClassDecl) : List Declaration :=
  c.features.flatMap (Feature.declarations c.id)

/-- The declarations in a program, in the order of `Program.declaredTypes`. -/
def Program.declarations (p : Program) : List Declaration := p.classes.flatMap ClassDecl.declarations

theorem Feature.map_ty_declarations (owner : NodeId) (f : Feature) :
    (f.declarations owner).map (·.ty) = f.declaredTypes := by
  cases f with
  | attr a => cases hi : a.init <;> simp [declarations, declaredTypes, Expr.declarations, hi]
  | method m => simp [declarations, declaredTypes, Expr.declarations, Function.comp_def]

theorem Program.map_ty_declarations (p : Program) : p.declarations.map (·.ty) = p.declaredTypes := by
  simp [declarations, declaredTypes, ClassDecl.declarations, List.map_flatMap,
    Feature.map_ty_declarations]

/-! ## Changing the types of binders -/

namespace Expr

section MapBinders

variable (f : Binder → Binder)

mutual

theorem binders_mapBinders : (e : Expr) → (e.mapBinders f).binders = e.binders.map f
  | .assign _ _ value => by
      rw [mapBinders, binders_assign, binders_assign, binders_mapBinders value]
  | .dispatch _ receiver _ args => by
      rw [mapBinders, binders_dispatch, binders_dispatch, binders_mapBindersOpt receiver,
        binders_mapBindersAll args, List.map_append]
  | .staticDispatch _ receiver _ _ args => by
      rw [mapBinders, binders_staticDispatch, binders_staticDispatch, binders_mapBinders receiver,
        binders_mapBindersAll args, List.map_append]
  | .cond _ test thenBranch elseBranch => by
      rw [mapBinders, binders_cond, binders_cond, binders_mapBinders test, binders_mapBinders thenBranch,
        binders_mapBinders elseBranch, List.map_append, List.map_append]
  | .loop _ test body => by
      rw [mapBinders, binders_loop, binders_loop, binders_mapBinders test, binders_mapBinders body,
        List.map_append]
  | .letIn _ bindings body => by
      rw [mapBinders, binders_letIn, binders_letIn, (binders_mapBindersInits bindings).1,
        (binders_mapBindersInits bindings).2, binders_mapBinders body, List.map_append, List.map_append]
  | .caseOf _ scrutinee arms => by
      rw [mapBinders, binders_caseOf, binders_caseOf, (binders_mapBindersArms arms).1,
        (binders_mapBindersArms arms).2, binders_mapBinders scrutinee, List.map_append, List.map_append]
  | .block _ body => by rw [mapBinders, binders_block, binders_block, binders_mapBindersAll body]
  | .binary _ _ left right => by
      rw [mapBinders, binders_binary, binders_binary, binders_mapBinders left, binders_mapBinders right,
        List.map_append]
  | .unary _ _ operand => by rw [mapBinders, binders_unary, binders_unary, binders_mapBinders operand]
  | .paren _ inner => by rw [mapBinders, binders_paren, binders_paren, binders_mapBinders inner]
  | .new .. | .ident .. | .int .. | .str .. | .bool .. => rfl

theorem binders_mapBindersOpt : (e : Option Expr) →
    (mapBindersOpt f e).elim [] binders = (e.elim [] binders).map f
  | some e => binders_mapBinders e
  | none => rfl

theorem binders_mapBindersAll : (es : List Expr) →
    (mapBindersAll f es).flatMap binders = (es.flatMap binders).map f
  | [] => rfl
  | e :: es => by
      rw [mapBindersAll, List.flatMap_cons, List.flatMap_cons, binders_mapBinders e,
        binders_mapBindersAll es, List.map_append]

theorem binders_mapBindersInits : (bindings : List (Binder × Option Expr)) →
    (mapBindersInits f bindings).map (·.1) = (bindings.map (·.1)).map f ∧
      ((mapBindersInits f bindings).flatMap fun b => b.2.elim [] binders) =
        (bindings.flatMap fun b => b.2.elim [] binders).map f
  | [] => ⟨rfl, rfl⟩
  | (b, init) :: bindings => by
      obtain ⟨hnames, hinits⟩ := binders_mapBindersInits bindings
      rw [mapBindersInits, List.flatMap_cons, List.flatMap_cons, hinits, binders_mapBindersOpt init,
        List.map_append]
      exact ⟨congrArg (f b :: ·) hnames, rfl⟩

theorem binders_mapBindersArms : (arms : List (Binder × Expr)) →
    (mapBindersArms f arms).map (·.1) = (arms.map (·.1)).map f ∧
      ((mapBindersArms f arms).flatMap fun a => a.2.binders) =
        (arms.flatMap fun a => a.2.binders).map f
  | [] => ⟨rfl, rfl⟩
  | (b, body) :: arms => by
      obtain ⟨hnames, hbodies⟩ := binders_mapBindersArms arms
      rw [mapBindersArms, List.flatMap_cons, List.flatMap_cons, hbodies, binders_mapBinders body,
        List.map_append]
      exact ⟨congrArg (f b :: ·) hnames, rfl⟩

end

end MapBinders

section Filled

variable {U : List TypeName} (g : Binder → TypeName)

mutual

/-- An expression with other types in its binders is a filling of it, if the types fit. -/
theorem filled_mapBinders : (e : Expr) → (∀ b ∈ e.binders, TypeName.Filled U b.ty (g b)) →
    Filled U e (e.mapBinders fun b => { b with ty := g b })
  | .assign _ _ value, h => .assign (filled_mapBinders value (binders_assign ▸ h))
  | .dispatch _ receiver _ args, h => by
      rw [binders_dispatch, List.forall_mem_append] at h
      exact .dispatch (filled_mapBindersOpt receiver h.1) (filled_mapBindersAll args h.2)
  | .staticDispatch _ receiver _ _ args, h => by
      rw [binders_staticDispatch, List.forall_mem_append] at h
      exact .staticDispatch (filled_mapBinders receiver h.1) (filled_mapBindersAll args h.2)
  | .cond _ test thenBranch elseBranch, h => by
      rw [binders_cond, List.forall_mem_append, List.forall_mem_append] at h
      exact .cond (filled_mapBinders test h.1.1) (filled_mapBinders thenBranch h.1.2)
        (filled_mapBinders elseBranch h.2)
  | .loop _ test body, h => by
      rw [binders_loop, List.forall_mem_append] at h
      exact .loop (filled_mapBinders test h.1) (filled_mapBinders body h.2)
  | .letIn _ bindings body, h => by
      rw [binders_letIn, List.forall_mem_append, List.forall_mem_append] at h
      exact .letIn (filled_mapBindersInits bindings h.1.1 h.1.2) (filled_mapBinders body h.2)
  | .caseOf _ scrutinee arms, h => by
      rw [binders_caseOf, List.forall_mem_append, List.forall_mem_append] at h
      exact .caseOf (filled_mapBinders scrutinee h.1.2) (filled_mapBindersArms arms h.1.1 h.2)
  | .block _ body, h => .block (filled_mapBindersAll body (binders_block ▸ h))
  | .binary _ _ left right, h => by
      rw [binders_binary, List.forall_mem_append] at h
      exact .binary (filled_mapBinders left h.1) (filled_mapBinders right h.2)
  | .unary _ _ operand, h => .unary (filled_mapBinders operand (binders_unary ▸ h))
  | .paren _ inner, h => .paren (filled_mapBinders inner (binders_paren ▸ h))
  | .new .., _ => .new
  | .ident .., _ => .ident
  | .int .., _ => .int
  | .str .., _ => .str
  | .bool .., _ => .bool

theorem filled_mapBindersOpt : (e : Option Expr) →
    (∀ b ∈ e.elim [] binders, TypeName.Filled U b.ty (g b)) →
    FilledOpt U e (mapBindersOpt (fun b => { b with ty := g b }) e)
  | some e, h => .some (filled_mapBinders e h)
  | none, _ => .none

theorem filled_mapBindersAll : (es : List Expr) →
    (∀ b ∈ es.flatMap binders, TypeName.Filled U b.ty (g b)) →
    FilledAll U es (mapBindersAll (fun b => { b with ty := g b }) es)
  | [], _ => .nil
  | e :: es, h => by
      rw [List.flatMap_cons, List.forall_mem_append] at h
      exact .cons (filled_mapBinders e h.1) (filled_mapBindersAll es h.2)

theorem filled_mapBindersInits : (bindings : List (Binder × Option Expr)) →
    (∀ b ∈ bindings.map (·.1), TypeName.Filled U b.ty (g b)) →
    (∀ b ∈ bindings.flatMap fun b => b.2.elim [] binders, TypeName.Filled U b.ty (g b)) →
    FilledInits U bindings (mapBindersInits (fun b => { b with ty := g b }) bindings)
  | [], _, _ => .nil
  | (b, init) :: bindings, hnames, hinits => by
      rw [List.map_cons, List.forall_mem_cons] at hnames
      rw [List.flatMap_cons, List.forall_mem_append] at hinits
      exact .cons hnames.1 (filled_mapBindersOpt init hinits.1)
        (filled_mapBindersInits bindings hnames.2 hinits.2)

theorem filled_mapBindersArms : (arms : List (Binder × Expr)) →
    (∀ b ∈ arms.map (·.1), TypeName.Filled U b.ty (g b)) →
    (∀ b ∈ arms.flatMap fun a => a.2.binders, TypeName.Filled U b.ty (g b)) →
    FilledArms U arms (mapBindersArms (fun b => { b with ty := g b }) arms)
  | [], _, _ => .nil
  | (b, body) :: arms, hnames, hbodies => by
      rw [List.map_cons, List.forall_mem_cons] at hnames
      rw [List.flatMap_cons, List.forall_mem_append] at hbodies
      exact .cons hnames.1 (filled_mapBinders body hbodies.1)
        (filled_mapBindersArms arms hnames.2 hbodies.2)

end

end Filled

end Expr

/-! ## Filling in -/

theorem filterMap_cons_eq {α β : Type} (f : α → Option β) (a : α) (as : List α) :
    (a :: as).filterMap f = (f a).toList ++ as.filterMap f := by
  rw [List.filterMap_cons]
  cases f a <;> rfl

namespace BagTree

variable {T : BagTree} {ctx : Context} {U : List TypeName} {bag : BagId}

/-- The declaration has an entry, whose candidates have a join in `U`. -/
def Records (T : BagTree) (ctx : Context) (U : List TypeName) (d : Declaration) : Prop :=
  ∃ bag e, T.bagOf? d.owner = some bag ∧ T.entryAt? bag d.slot = some e ∧ e.joined ctx ∈ U

/-- What becomes of a declaration: a placeholder turns into the join of the candidates of its entry. -/
inductive Resolves (T : BagTree) (ctx : Context) (U : List TypeName) : Declaration → Declaration → Prop
  | kept {d} : d.ty ≠ TypeName.auto → Resolves T ctx U d d
  | filled {owner slot bag e} : T.bagOf? owner = some bag → T.entryAt? bag slot = some e →
      e.joined ctx ∈ U → Resolves T ctx U ⟨owner, slot, TypeName.auto⟩ ⟨owner, slot, e.joined ctx⟩

/-- The type for the placeholder of a declaration. -/
def filledAt? (T : BagTree) (ctx : Context) (d : Declaration) : Option TypeName :=
  T.filled? ctx (T.bagOf? d.owner) d.slot d.ty

def fillDeclaration (T : BagTree) (ctx : Context) (d : Declaration) : Declaration :=
  { d with ty := (T.filledAt? ctx d).getD d.ty }

theorem Records.isSome_filledAt? {d : Declaration} (h : T.Records ctx U d) :
    (T.filledAt? ctx d).isSome = (d.ty == TypeName.auto) := by
  obtain ⟨bag, e, hbag, he, _⟩ := h
  unfold filledAt? filled?
  cases d.ty == TypeName.auto with
  | true => simp [hbag, he]
  | false => rfl

theorem Records.resolves {d : Declaration} (h : T.Records ctx U d) :
    T.Resolves ctx U d (T.fillDeclaration ctx d) := by
  obtain ⟨bag, e, hbag, he, hU⟩ := h
  obtain ⟨owner, slot, ty⟩ := d
  unfold fillDeclaration filledAt? filled?
  by_cases hty : ty = TypeName.auto
  · subst hty
    simp only [BEq.rfl, ↓reduceIte, hbag, Option.bind_some, he, Option.map_some, Option.getD_some]
    exact .filled hbag he hU
  · have hne : (ty == TypeName.auto) = false := by simpa using hty
    simp only [hne, Bool.false_eq_true, ↓reduceIte, Option.getD_none]
    exact .kept hty

theorem Resolves.filled_ty {d d' : Declaration} (h : T.Resolves ctx U d d') :
    TypeName.Filled U d.ty d'.ty := by
  cases h with
  | kept hty => exact .kept hty
  | filled _ _ hU => exact .filled hU

theorem Resolves.ty_ne_auto {d d' : Declaration} (h : T.Resolves ctx U d d')
    (hU : ∀ ty ∈ U, ty ≠ TypeName.auto) : d'.ty ≠ TypeName.auto := by
  cases h with
  | kept hty => exact hty
  | filled _ _ hjoined => exact hU _ hjoined

/-- As many types are filled in as there are placeholders. -/
theorem length_filterMap_filledAt? {ds : List Declaration} (h : ∀ d ∈ ds, T.Records ctx U d) :
    (ds.filterMap (T.filledAt? ctx)).length = (ds.map (·.ty)).count TypeName.auto := by
  rw [List.length_filterMap_eq_countP, List.count, List.countP_map]
  exact List.countP_congr fun d hd => by
    rw [(h d hd).isSome_filledAt?]
    rfl

/-! What `fill` does to the parts of a program, in terms of their declarations. -/

theorem declarations_fillExpr (e : Expr) :
    (T.fillExpr ctx e).declarations = e.declarations.map (T.fillDeclaration ctx) := by
  simp only [Expr.declarations, fillExpr, Expr.binders_mapBinders, List.map_map]
  rfl

theorem filledTypes_eq (e : Expr) :
    T.filledTypes ctx e = e.declarations.filterMap (T.filledAt? ctx) := by
  rw [Expr.declarations, List.filterMap_map]
  rfl

section Features

variable {c : ClassDecl} (hbag : T.bagOf? c.id = some bag)
include hbag

theorem declarations_fillFeature (f : Feature) : (T.fillFeature ctx bag f).declarations c.id =
    (f.declarations c.id).map (T.fillDeclaration ctx) := by
  cases f with
  | attr a =>
      cases hi : a.init <;>
        simp [fillFeature, Feature.declarations, fillDeclaration, filledAt?, hbag, hi, declarations_fillExpr]
  | method m =>
      simp [fillFeature, Feature.declarations, fillDeclaration, filledAt?, hbag, declarations_fillExpr,
        fillParam]

theorem filledAt?_own (slot : Slot) (ty : TypeName) :
    T.filledAt? ctx ⟨c.id, slot, ty⟩ = T.filled? ctx (some bag) slot ty := by
  rw [filledAt?, hbag]

/-- The result of a method is filled in before its parameters. -/
theorem filledInFeature_perm (f : Feature) : (T.filledInFeature ctx bag f).Perm
    ((f.declarations c.id).filterMap (T.filledAt? ctx)) := by
  cases f with
  | attr a =>
      rw [filledInFeature, Feature.declarations, filterMap_cons_eq, filledAt?_own hbag]
      refine .of_eq (congrArg _ ?_)
      cases a.init with
      | none => rfl
      | some e => exact filledTypes_eq e
  | method m =>
      rw [filledInFeature, Feature.declarations, List.filterMap_append, filterMap_cons_eq,
        filledAt?_own hbag, List.filterMap_map, filledTypes_eq, List.append_assoc]
      exact List.perm_append_comm_assoc _ _ _

theorem filled_fillFeature {f : Feature} (h : ∀ d ∈ f.declarations c.id, T.Records ctx U d) :
    Feature.Filled U f (T.fillFeature ctx bag f) := by
  have hfilled : ∀ d ∈ f.declarations c.id, TypeName.Filled U d.ty ((T.filledAt? ctx d).getD d.ty) :=
    fun d hd => (h d hd).resolves.filled_ty
  have hexpr : ∀ e : Expr, (∀ d ∈ e.declarations, TypeName.Filled U d.ty ((T.filledAt? ctx d).getD d.ty)) →
      Expr.Filled U e (T.fillExpr ctx e) :=
    fun e he => Expr.filled_mapBinders _ e fun b hb => he _ (List.mem_map_of_mem hb)
  cases f with
  | attr a =>
      rw [Feature.declarations, List.forall_mem_cons, filledAt?_own hbag] at hfilled
      refine .attr ⟨rfl, hfilled.1, ?_, rfl⟩
      cases hi : a.init with
      | none => exact .none
      | some e =>
          rw [hi] at hfilled
          exact .some (hexpr e hfilled.2)
  | method m =>
      rw [Feature.declarations, List.forall_mem_append, List.forall_mem_cons, filledAt?_own hbag] at hfilled
      refine .method ⟨rfl, rfl, ?_, hfilled.2.1, hexpr m.body hfilled.2.2, rfl⟩
      refine List.forall₂_map_right_iff.mpr (List.forall₂_same.mpr fun p hp => ⟨rfl, ?_, rfl⟩)
      exact hfilled.1 _ (List.mem_map_of_mem hp)

end Features

section Programs

variable {p : Program} (hclasses : ∀ c ∈ p.classes, (T.bagOf? c.id).isSome = true)
include hclasses

theorem fillClass_eq (ctx : Context) {c : ClassDecl} (hc : c ∈ p.classes) : ∃ bag, T.bagOf? c.id = some bag ∧
    T.fillClass ctx c = { c with features := c.features.map (T.fillFeature ctx bag) } ∧
    T.filledInClass ctx c = c.features.flatMap (T.filledInFeature ctx bag) := by
  obtain ⟨bag, hbag⟩ := Option.isSome_iff_exists.mp (hclasses c hc)
  exact ⟨bag, hbag, by rw [fillClass, hbag], by rw [filledInClass, hbag]⟩

theorem declarations_fill :
    (T.fill ctx p).declarations = p.declarations.map (T.fillDeclaration ctx) := by
  simp only [fill, Program.declarations, List.flatMap_map, List.map_flatMap]
  refine List.flatMap_congr fun c hc => ?_
  obtain ⟨bag, hbag, heq, _⟩ := fillClass_eq hclasses ctx hc
  rw [heq]
  simp only [ClassDecl.declarations, List.flatMap_map, List.map_flatMap]
  exact List.flatMap_congr fun f _ => declarations_fillFeature hbag f

theorem filledIn_perm : (T.filledIn ctx p).Perm (p.declarations.filterMap (T.filledAt? ctx)) := by
  simp only [filledIn, Program.declarations, ClassDecl.declarations, List.filterMap_flatMap]
  refine List.Perm.flatMap_left _ fun c hc => ?_
  obtain ⟨bag, hbag, _, heq⟩ := fillClass_eq hclasses ctx hc
  rw [heq]
  exact List.Perm.flatMap_left _ fun f _ => filledInFeature_perm hbag f

theorem filled_fill (h : ∀ d ∈ p.declarations, T.Records ctx U d) : p.Filled U (T.fill ctx p) := by
  refine List.forall₂_map_right_iff.mpr (List.forall₂_same.mpr fun c hc => ?_)
  obtain ⟨bag, hbag, heq, _⟩ := fillClass_eq hclasses ctx hc
  rw [heq]
  refine ⟨rfl, rfl, rfl, List.forall₂_map_right_iff.mpr (List.forall₂_same.mpr fun f hf => ?_), rfl⟩
  refine filled_fillFeature hbag fun d hd => h d ?_
  exact List.mem_flatMap.mpr ⟨c, hc, List.mem_flatMap.mpr ⟨f, hf, hd⟩⟩

end Programs

end BagTree

/-! ## Programs without errors -/

namespace ClassTable

open Seed

/-- The class table of a program without errors holds all its classes as they were written. -/
theorem typecheck_value {p : Program} (h : (typecheck p).diagnostics = []) :
    (typecheck p).value = ⟨Context.ofClasses p.classes, p.classes.map some⟩ := by
  have hfit := (build_fitting (reports_of_typecheck h).1).1
  rw [show (typecheck p).value = (build p).value from rfl, hfit.build_eq]

theorem typecheck_classes {p : Program} (h : (typecheck p).diagnostics = []) :
    (typecheck p).value.classes = p.classes := by
  rw [typecheck_value h, classes_all]

theorem typecheck_regular {source : String} {p : Program} (hp : parse source = .ok p)
    (h : (typecheck p).diagnostics = []) : (typecheck p).value.context.Regular := by
  rw [typecheck_value h]
  refine (build_fitting (reports_of_typecheck h).1).1.regular fun c hc herror => ?_
  exact ((parse_capitalized hp c hc).parent _ herror).ne_error rfl

variable {t : ClassTable} {T : BagTree} {c : ClassDecl}

/-- Every name that a scope introduces has an entry in the bag of the scope. -/
theorem exists_entryAt? (hU : t.seed.DistinctOwners) (hT : t.seed.EvolvesTo T) (hc : c ∈ t.classes)
    {o : Opener} (ho : o ∈ classOpeners c) {slot : Slot}
    (hslot : slot ∈ (o.entries t.context c).map (·.1)) :
    ∃ bag e, T.bagOf? (o.id c) = some bag ∧ T.entryAt? bag slot = some e := by
  obtain ⟨b, hb, hopens⟩ := exists_mem_seed hc ho
  obtain ⟨bag, hbag⟩ := List.mem_iff_getElem?.mp hb
  have hhas : T.has bag slot = true := by
    rw [hT.has]
    exact has_seed hbag hopens hslot
  obtain ⟨e, he⟩ := Option.isSome_iff_exists.mp (BagTree.isSome_entryAt?_of_has hhas)
  exact ⟨bag, e, by rw [hT.bagOf?, ← hopens.owner, hU.bagOf?_eq hbag], he⟩

/-- Every declaration stands in the scope that its owner opens. -/
theorem exists_opener (ctx : Context) {d : Declaration} (hd : d ∈ c.declarations) :
    ∃ o ∈ classOpeners c, o.id c = d.owner ∧ d.slot ∈ (o.entries ctx c).map (·.1) := by
  obtain ⟨f, hf, hd⟩ := List.mem_flatMap.mp hd
  have hbinder : ∀ e : Expr, (∀ b ∈ e.binders, .ofBinder b ∈ featureOpeners f) → d ∈ e.declarations →
      ∃ o ∈ classOpeners c, o.id c = d.owner ∧ d.slot ∈ (o.entries ctx c).map (·.1) := by
    intro e he hd
    obtain ⟨b, hb, rfl⟩ := List.mem_map.mp hd
    exact ⟨.ofBinder b, List.mem_cons_of_mem _ (List.mem_flatMap.mpr ⟨f, hf, he b hb⟩), rfl,
      List.mem_cons_self⟩
  cases f with
  | attr a =>
      rcases List.mem_cons.mp hd with rfl | hd
      · refine ⟨.ofClass, List.mem_cons_self, rfl, ?_⟩
        have ha : a ∈ c.attributes := List.mem_filterMap.mpr ⟨_, hf, rfl⟩
        simp only [Opener.entries, List.map_cons, List.map_append, List.map_map, List.mem_cons,
          List.mem_append, List.cons_append]
        exact Or.inr (Or.inl (List.mem_map.mpr ⟨a, ha, rfl⟩))
      · cases hi : a.init with
        | none => rw [hi] at hd; cases hd
        | some e =>
            rw [hi] at hd
            refine hbinder e (fun b hb => ?_) hd
            simpa [featureOpeners, openers, hi] using hb
  | method m =>
      have hm : m ∈ c.methods := List.mem_filterMap.mpr ⟨_, hf, rfl⟩
      rcases List.mem_append.mp hd with hd | hd
      · obtain ⟨p, hp, rfl⟩ := List.mem_map.mp hd
        refine ⟨.ofMethod m, ofMethod_mem_classOpeners.mpr hm, rfl, ?_⟩
        exact List.mem_map.mpr ⟨_, List.mem_map_of_mem hp, rfl⟩
      · rcases List.mem_cons.mp hd with rfl | hd
        · refine ⟨.ofClass, List.mem_cons_self, rfl, ?_⟩
          exact List.mem_map.mpr ⟨_, List.mem_append_right _ (List.mem_map_of_mem hm), rfl⟩
        · refine hbinder m.body (fun b hb => ?_) hd
          simpa [featureOpeners, openers] using hb

/-- In a program without errors every declaration has an entry, and its candidates have a concrete join. -/
theorem records_swept {source : String} {p : Program} (hp : parse source = .ok p)
    (hc : (typecheck p).diagnostics = []) (n : Nat) :
    let t := (typecheck p).value
    ∀ d ∈ p.declarations, (t.swept n t.seed).Records t.context t.context.concreteTypes d := by
  intro t d hd
  have hadmits : t.Admits _ := admits_universe hp hc
  have hregular : t.context.Regular := typecheck_regular hp hc
  have hclasses : t.classes = p.classes := typecheck_classes hc
  obtain ⟨c, hmem, hd⟩ := List.mem_flatMap.mp hd
  obtain ⟨o, ho, howner, hslot⟩ := exists_opener t.context hd
  obtain ⟨bag, e, hbag, he⟩ := exists_entryAt? (seed_distinctOwners hp hclasses)
    (t.swept_evolvesTo n t.seed) (hclasses.symm ▸ hmem) ho hslot
  have hwithin := (swept_within hadmits.seed_covers hadmits.seed_within n).entryAt? he
  exact ⟨bag, e, howner ▸ hbag, he, ((hregular.joinsTo_joinAll hwithin).joinAll_eq hregular hwithin).2⟩

theorem isSome_bagOf?_swept {p : Program} (hc : (typecheck p).diagnostics = []) (n : Nat) :
    let t := (typecheck p).value
    ∀ c ∈ p.classes, ((t.swept n t.seed).bagOf? c.id).isSome = true := by
  intro t c hmem
  rw [(t.swept_evolvesTo n t.seed).bagOf?]
  exact isSome_bagOf?_seed ((typecheck_classes hc).symm ▸ hmem)
    (List.mem_cons_self : Opener.ofClass ∈ classOpeners c)

/-- What inference found out comes from the first tree that a sweep leaves as it is. -/
structure Infers (t : ClassTable) (p : Program) (i : Inference) : Prop where
  settled : ∃ n, t.SettlesAt n t.seed ∧ i.tree = t.swept n t.seed
  diagnostics : i.diagnostics =
    (t.finalDiagnostics i.tree).insertAll (i.tree.ambiguities.map Ambiguity.toReport)
  program : i.program = i.tree.fill t.context p
  replaced : i.replaced = (i.tree.filledIn t.context p).length

theorem infers_of_infer {t : ClassTable} {p : Program} {maxSweeps : Option Nat} {i : Inference}
    (h : t.infer p maxSweeps = .ok i) : t.Infers p i := by
  unfold infer at h
  split at h
  · cases h
  · rename_i reduction tree hreduce
    obtain ⟨n, hn, htree, hreduction⟩ := settlesAt_of_reduce hreduce
    cases h
    exact ⟨⟨n, hn, htree⟩, by rw [hreduction], rfl, rfl⟩

end ClassTable

/-- Inference runs on programs without errors, and its result is checked. -/
theorem analyze_inferred {p : Program} {options : Options} {a : Analysis} {i : Inference}
    (ha : analyze p options = .ok a) (hi : a.inferred = some i) :
    (typecheck p).diagnostics = [] ∧ (typecheck p).value.Infers p i ∧
      a = ⟨i.program, [], some i, (typecheck i.program).diagnostics⟩ := by
  unfold analyze at ha
  dsimp only at ha
  split at ha
  · cases ha
    cases hi
  · rename_i hruns
    simp only [Bool.or_eq_true, Bool.not_eq_true', List.isEmpty_eq_false_iff, not_or] at hruns
    have hclean : (typecheck p).diagnostics = [] := by simpa using hruns.1.2
    split at ha
    · cases ha
    · rename_i j hj
      cases ha
      cases hi
      exact ⟨hclean, ClassTable.infers_of_infer hj, by rw [hclean]⟩

theorem exists_analysis {p : Program} {o : Options} {P : Analysis → Bool}
    (h : (analyze p o).toOption.any P = true) : ∃ a, analyze p o = .ok a ∧ P a = true := by
  cases ha : analyze p o with
  | error e => rw [ha] at h; cases h
  | ok a => rw [ha] at h; exact ⟨a, rfl, h⟩

section Inferred

variable {source : String} {p : Program} {options : Options} {a : Analysis} {i : Inference}
  (hp : parse source = .ok p) (ha : analyze p options = .ok a) (hi : a.inferred = some i)
include ha hi

theorem isSome_bagOf?_inferred : ∀ c ∈ p.classes, (i.tree.bagOf? c.id).isSome = true := by
  obtain ⟨hclean, hinfers, -⟩ := analyze_inferred ha hi
  obtain ⟨n, -, htree⟩ := hinfers.settled
  rw [htree]
  exact ClassTable.isSome_bagOf?_swept hclean n

include hp

theorem records_inferred : ∀ d ∈ p.declarations,
    i.tree.Records (typecheck p).value.context (typecheck p).value.context.concreteTypes d := by
  obtain ⟨hclean, hinfers, -⟩ := analyze_inferred ha hi
  obtain ⟨n, -, htree⟩ := hinfers.settled
  rw [htree]
  exact ClassTable.records_swept hp hclean n

/-- Every declaration is filled in with the join of what its entry ended with. -/
theorem resolves_inferred :
    List.Forall₂ (i.tree.Resolves (typecheck p).value.context (typecheck p).value.context.concreteTypes)
      p.declarations a.program.declarations := by
  have hrecords := records_inferred hp ha hi
  have hclasses := isSome_bagOf?_inferred ha hi
  obtain ⟨-, hinfers, rfl⟩ := analyze_inferred ha hi
  dsimp only
  rw [hinfers.program, BagTree.declarations_fill hclasses]
  exact List.forall₂_map_right_iff.mpr (List.forall₂_same.mpr fun d hd => (hrecords d hd).resolves)

theorem hasPlaceholders_inferred : a.program.hasPlaceholders = false := by
  have hregular := ClassTable.typecheck_regular hp (analyze_inferred ha hi).1
  rw [Program.hasPlaceholders, List.any_eq_false, ← Program.map_ty_declarations]
  intro ty hty
  obtain ⟨d', hd', rfl⟩ := List.mem_map.mp hty
  obtain ⟨d, _, hdd'⟩ := forall₂_mem_right (resolves_inferred hp ha hi) hd'
  simpa using hdd'.ty_ne_auto fun ty hty => (hregular.proper hty).1

theorem filled_inferred : p.Filled (typecheck p).value.context.concreteTypes a.program := by
  have hrecords := records_inferred hp ha hi
  have hclasses := isSome_bagOf?_inferred ha hi
  obtain ⟨-, hinfers, rfl⟩ := analyze_inferred ha hi
  dsimp only
  rw [hinfers.program]
  exact BagTree.filled_fill hclasses hrecords

end Inferred

/-- Inference leaves no placeholder. It replaces as many types as there were placeholders, each by the join
of the candidates of its entry in the bag of the scope that declares it, which is a concrete type, and the
program is otherwise the one that was read. -/
theorem analyze_eliminates {source : String} {p : Program} {options : Options} {a : Analysis}
    {i : Inference} (hp : parse source = .ok p) (ha : analyze p options = .ok a)
    (hi : a.inferred = some i) :
    let ctx := (typecheck p).value.context
    a.program.hasPlaceholders = false ∧
    i.replaced = p.declaredTypes.count TypeName.auto ∧
    List.Forall₂ (i.tree.Resolves ctx ctx.concreteTypes) p.declarations a.program.declarations ∧
    p.Filled ctx.concreteTypes a.program := by
  intro ctx
  refine ⟨hasPlaceholders_inferred hp ha hi, ?_, resolves_inferred hp ha hi, filled_inferred hp ha hi⟩
  rw [(analyze_inferred ha hi).2.1.replaced,
    (BagTree.filledIn_perm (isSome_bagOf?_inferred ha hi)).length_eq, ← Program.map_ty_declarations]
  exact BagTree.length_filterMap_filledAt? (records_inferred hp ha hi)

/-- The text of a class with a placeholder in each place that takes one. -/
def matcherText : String :=
  "class A \x7b x : AUTO_TYPE <- let y : AUTO_TYPE <- 1 in y; " ++
  "f(a : AUTO_TYPE, b : Int) : AUTO_TYPE \x7b case a of z : AUTO_TYPE => z + x; esac \x7d; \x7d;"

def matcher : Program :=
  ⟨[⟨0, "A", none, [
    .attr ⟨"x", TypeName.auto, some (.letIn ⟨27, 54⟩
      [(⟨1, "y", TypeName.auto, ⟨31, 49⟩⟩, some (.int ⟨48, 49⟩ 1))] (.ident ⟨53, 54⟩ "y")), ⟨10, 54⟩⟩,
    .method ⟨2, "f", [⟨"a", TypeName.auto, ⟨58, 71⟩⟩, ⟨"b", TypeName.int, ⟨73, 80⟩⟩], TypeName.auto,
      .caseOf ⟨96, 134⟩ (.ident ⟨101, 102⟩ "a") [(⟨3, "z", TypeName.auto, ⟨106, 129⟩⟩,
        .binary ⟨123, 128⟩ .add (.ident ⟨123, 124⟩ "z") (.ident ⟨127, 128⟩ "x"))], ⟨56, 136⟩⟩],
    ⟨0, 140⟩⟩]⟩

theorem matcher_eliminated : ∃ a i, parse matcherText = .ok matcher ∧
    analyze matcher ⟨true, none⟩ = .ok a ∧ a.inferred = some i ∧ a.program.hasPlaceholders = false ∧
    i.replaced = 5 ∧ matcher.Filled (typecheck matcher).value.context.concreteTypes a.program := by
  have hp : parse matcherText = .ok matcher := by cbv
  obtain ⟨a, ha, hruns⟩ := exists_analysis (P := fun a => a.inferred.isSome)
    (p := matcher) (o := ⟨true, none⟩) (by decide +kernel)
  obtain ⟨i, hi⟩ := Option.isSome_iff_exists.mp hruns
  have hcount : matcher.declaredTypes.count TypeName.auto = 5 := by decide
  obtain ⟨hnone, hreplaced, -, hfilled⟩ := analyze_eliminates hp ha hi
  exact ⟨a, i, hp, ha, hi, hnone, hreplaced.trans hcount, hfilled⟩

end CoolTyping
