import CoolTyping.Bag.Seed
import CoolTyping.Proofs.ClassTables
import CoolTyping.Proofs.Sweeping

/-!
# The bags that inference starts from

Every construct that opens a scope in a registered class has a bag in the first tree, with an entry
for each of its declarations, and there are no other bags. Hence the tree has entries for the results
and the parameters of all methods.
-/

namespace CoolTyping

/-! ## Binders -/

namespace Expr

section Binders

variable {span : Span}

attribute [local simp] binders walk walkAll walkInits walkArms ownBinders

theorem flatMap_walkAll (es : List Expr) :
    (walkAll es).flatMap ownBinders = es.flatMap binders := by
  induction es with
  | nil => rfl
  | cons e es ih => rw [walkAll, List.flatMap_append, ih]; rfl

theorem flatMap_walkInits (bindings : List (Binder × Option Expr)) :
    (walkInits bindings).flatMap ownBinders =
      bindings.flatMap fun b => b.2.elim [] binders := by
  induction bindings with
  | nil => rfl
  | cons b bindings ih =>
      obtain ⟨b, init⟩ := b
      cases init with
      | none => rw [walkInits, ih]; rfl
      | some e => rw [walkInits, List.flatMap_append, ih]; rfl

theorem flatMap_walkArms (arms : List (Binder × Expr)) :
    (walkArms arms).flatMap ownBinders = arms.flatMap fun a => a.2.binders := by
  induction arms with
  | nil => rfl
  | cons a arms ih => rw [walkArms, List.flatMap_append, ih]; rfl

theorem binders_assign {name value} : binders (.assign span name value) = value.binders := by simp

theorem binders_dispatch {receiver method args} :
    binders (.dispatch span receiver method args) =
      receiver.elim [] binders ++ args.flatMap binders := by
  cases receiver <;> simp [flatMap_walkAll]

theorem binders_staticDispatch {receiver ancestor method args} :
    binders (.staticDispatch span receiver ancestor method args) =
      receiver.binders ++ args.flatMap binders := by
  simp [flatMap_walkAll]

theorem binders_cond {test thenBranch elseBranch} :
    binders (.cond span test thenBranch elseBranch) =
      test.binders ++ thenBranch.binders ++ elseBranch.binders := by
  simp

theorem binders_loop {test body} :
    binders (.loop span test body) = test.binders ++ body.binders := by
  simp

theorem binders_letIn {bindings body} :
    binders (.letIn span bindings body) =
      bindings.map (·.1) ++ (bindings.flatMap fun b => b.2.elim [] binders) ++ body.binders := by
  simp [flatMap_walkInits]

theorem binders_caseOf {scrutinee arms} :
    binders (.caseOf span scrutinee arms) =
      arms.map (·.1) ++ scrutinee.binders ++ arms.flatMap fun a => a.2.binders := by
  simp [flatMap_walkArms]

theorem binders_block {body} : binders (.block span body) = body.flatMap binders := by
  simp [flatMap_walkAll]

theorem binders_binary {op left right} :
    binders (.binary span op left right) = left.binders ++ right.binders := by
  simp

theorem binders_unary {op operand} : binders (.unary span op operand) = operand.binders := by simp

theorem binders_paren {inner} : binders (.paren span inner) = inner.binders := by simp

end Binders

end Expr

/-! ## Bags under construction -/

namespace Entries

/-- Adds entries one after another. -/
def defineAll (es : Entries) (xs : List (Slot × Entry)) : Entries :=
  xs.foldl (fun es x => es.define x.1 x.2) es

theorem define_sublist (es : Entries) (slot : Slot) (e : Entry) :
    (es.define slot e).toList.Sublist (es.toList ++ [(slot, e)]) := by
  unfold define
  split
  · exact List.sublist_append_left _ _
  · exact .refl _

theorem defineAll_sublist (es : Entries) (xs : List (Slot × Entry)) :
    (es.defineAll xs).toList.Sublist (es.toList ++ xs) := by
  induction xs generalizing es with
  | nil => exact List.sublist_append_left _ _
  | cons x xs ih =>
      rw [List.append_cons]
      exact (ih _).trans ((es.define_sublist x.1 x.2).append_right xs)

theorem contains_define {es : Entries} {slot s : Slot} {e : Entry} :
    (es.define slot e).contains s = true ↔ es.contains s = true ∨ s = slot := by
  unfold define
  split
  · rename_i h
    exact ⟨Or.inl, fun hs => hs.elim id fun heq => heq ▸ h⟩
  · simp [contains, slots]

theorem contains_defineAll {es : Entries} {xs : List (Slot × Entry)} {s : Slot} :
    (es.defineAll xs).contains s = true ↔ es.contains s = true ∨ s ∈ xs.map (·.1) := by
  induction xs generalizing es with
  | nil => simp [defineAll]
  | cons x xs ih =>
      rw [defineAll, List.foldl_cons, ← defineAll, ih, contains_define, List.map_cons, List.mem_cons,
        or_assoc]

end Entries

theorem lastIdx?_eq_some {α : Type} {p : α → Bool} {as : List α} {i : Nat}
    (h : lastIdx? p as = some i) : ∃ a, as[i]? = some a ∧ p a = true := by
  induction as generalizing i with
  | nil => cases h
  | cons a as ih =>
      unfold lastIdx? at h
      cases hrest : lastIdx? p as with
      | some j =>
          rw [hrest] at h
          cases h
          exact ih hrest
      | none =>
          rw [hrest] at h
          by_cases ha : p a = true
          · simp only [ha, ↓reduceIte, Option.some.injEq] at h
            subst h
            exact ⟨a, rfl, ha⟩
          · simp [ha] at h

theorem isSome_lastIdx? {α : Type} {p : α → Bool} {as : List α} {a : α} (ha : a ∈ as)
    (hp : p a = true) : (lastIdx? p as).isSome = true := by
  induction as with
  | nil => cases ha
  | cons a' as ih =>
      unfold lastIdx?
      cases hrest : lastIdx? p as with
      | some j => rfl
      | none =>
          rcases List.mem_cons.mp ha with rfl | ha
          · simp [hp]
          · have hsome := ih ha
            rw [hrest] at hsome
            cases hsome

namespace BagTree

/-- The entries of the last bag are added to it one after another. -/
theorem foldl_define {α : Type} (bags : List Bag) (b : Bag) (concrete : TypeSet) (as : List α)
    (slot : α → Slot) (e : α → Entry) :
    as.foldl (fun (t : BagTree) a => t.define bags.length (slot a) (e a))
        ⟨bags ++ [b], concrete⟩ =
      ⟨bags ++ [{ b with entries := b.entries.defineAll (as.map fun a => (slot a, e a)) }],
        concrete⟩ := by
  induction as generalizing b with
  | nil => rfl
  | cons a as ih =>
      have hdefine : (⟨bags ++ [b], concrete⟩ : BagTree).define bags.length (slot a) (e a) =
          ⟨bags ++ [{ b with entries := b.entries.define (slot a) (e a) }], concrete⟩ := by
        simp [define, modify, List.modify_eq_take_drop]
      rw [List.foldl_cons, hdefine, ih]
      rfl

end BagTree

namespace Seed

/-! ## Adding bags -/

variable {σ α : Type} {R : σ → Bag → Prop} {ss ss' : List σ} {t u v : BagTree}

/-- `u` is `t` with more bags: one for each of `ss`, to which it is related, in some order. -/
structure Adds (R : σ → Bag → Prop) (ss : List σ) (t u : BagTree) : Prop where
  concrete : u.concrete = t.concrete
  bags : ∃ added order, u.bags = t.bags ++ added ∧ order.Perm ss ∧ List.Forall₂ R order added

namespace Adds

theorem refl (R : σ → Bag → Prop) (t : BagTree) : Adds R [] t t :=
  ⟨rfl, [], [], (List.append_nil _).symm, .refl _, .nil⟩

theorem single {s : σ} {b : Bag} (hc : u.concrete = t.concrete) (hb : u.bags = t.bags ++ [b])
    (h : R s b) : Adds R [s] t u :=
  ⟨hc, [b], [s], hb, .refl _, .cons h .nil⟩

theorem trans (h : Adds R ss t u) (h' : Adds R ss' u v) : Adds R (ss ++ ss') t v := by
  obtain ⟨hc, added, order, hb, hperm, hR⟩ := h
  obtain ⟨hc', added', order', hb', hperm', hR'⟩ := h'
  exact ⟨hc'.trans hc, added ++ added', order ++ order', by rw [hb', hb, List.append_assoc],
    hperm.append hperm', List.rel_append hR hR'⟩

theorem congr (h : Adds R ss t u) (hs : ss.Perm ss') : Adds R ss' t u := by
  obtain ⟨hc, added, order, hb, hperm, hR⟩ := h
  exact ⟨hc, added, order, hb, hperm.trans hs, hR⟩

theorem map {τ : Type} {R' : τ → Bag → Prop} {g : σ → τ} (h : Adds R ss t u)
    (hg : ∀ s b, R s b → R' (g s) b) : Adds R' (ss.map g) t u := by
  obtain ⟨hc, added, order, hb, hperm, hR⟩ := h
  exact ⟨hc, added, order.map g, hb, hperm.map g, List.forall₂_map_left_iff.mpr (hR.imp fun s b => hg s b)⟩

theorem isPrefix (h : Adds R ss t u) : t.bags <+: u.bags := by
  obtain ⟨_, added, _, hb, _, _⟩ := h
  exact ⟨added, hb.symm⟩

theorem foldl {f : BagTree → α → BagTree} {g : α → List σ} {as : List α}
    (hf : ∀ a ∈ as, ∀ u : BagTree, t.bags <+: u.bags → Adds R (g a) u (f u a)) :
    Adds R (as.flatMap g) t (as.foldl f t) := by
  induction as generalizing t with
  | nil => exact refl R t
  | cons a as ih =>
      have hfirst := hf a List.mem_cons_self t (List.prefix_refl _)
      refine hfirst.trans (ih fun b hb u hu => ?_)
      exact hf b (List.mem_cons_of_mem _ hb) u (hfirst.isPrefix.trans hu)

end Adds

/-! ## Scopes -/

/-- A construct that opens a scope in a class. -/
inductive Opener where
  | ofClass
  | ofMethod (decl : MethodDecl)
  | ofBinder (b : Binder)

namespace Opener

def id (c : ClassDecl) : Opener → NodeId
  | ofClass => c.id
  | ofMethod m => m.id
  | ofBinder b => b.id

/-- The entries that the bag of the scope starts with. -/
def entries (ctx : Context) (c : ClassDecl) : Opener → List (Slot × Entry)
  | ofClass =>
    (.var selfName, Entry.ofType c.name c.span) ::
      c.attributes.map (fun a => (.var a.name, entry ctx c.name a.ty a.span)) ++
      c.methods.map fun m => (.result m.name, entry ctx c.name m.ret m.span)
  | ofMethod m => m.params.map fun p => (.var p.name, entry ctx c.name p.ty p.span)
  | ofBinder b => [(.var b.name, entry ctx c.name b.ty b.span)]

/-- What the bag of the scope says about its place. -/
def Places (c : ClassDecl) (kind : BagKind) (inClass : TypeName) : Opener → Prop
  | ofClass => kind = .ofClass ∧ inClass = c.name
  | ofMethod m => kind = .ofMethod m.name ∧ inClass = c.name
  | ofBinder _ => kind = .ofLet ∨ kind = .ofCase

end Opener

/-- The bag is that of the scope which the construct opens. -/
structure Opens (ctx : Context) (c : ClassDecl) (o : Opener) (b : Bag) : Prop where
  owner : b.owner = o.id c
  place : o.Places c b.kind b.inClass
  entries : b.entries = Entries.empty.defineAll (o.entries ctx c)

variable {ctx : Context} {c : ClassDecl}

theorem binder_adds (bag : BagId) {kind : BagKind} (hk : kind = .ofLet ∨ kind = .ofCase) (b : Binder)
    (t : BagTree) : Adds (Opens ctx c) [.ofBinder b] t (binder ctx c.name bag kind b t) := by
  have hdefine := BagTree.foldl_define t.bags ⟨b.id, kind, t.classOf bag, some bag, Entries.empty⟩
    t.concrete [b] (fun b => .var b.name) (fun b => entry ctx c.name b.ty b.span)
  have hbinder : binder ctx c.name bag kind b t = _ := hdefine
  rw [hbinder]
  exact .single rfl rfl ⟨rfl, hk, rfl⟩

def openers (bs : List Binder) : List Opener := bs.map .ofBinder

mutual

theorem expr_adds (bag : BagId) : (e : Expr) → (t : BagTree) →
    Adds (Opens ctx c) (openers e.binders) t (expr ctx c.name bag e t)
  | .assign _ _ value, t => by
      rw [Expr.binders_assign]
      exact expr_adds _ value t
  | .dispatch _ receiver _ args, t => by
      rw [Expr.binders_dispatch, openers, List.map_append]
      exact (optExpr_adds _ receiver t).trans (exprs_adds _ args _)
  | .staticDispatch _ receiver _ _ args, t => by
      rw [Expr.binders_staticDispatch, openers, List.map_append]
      exact (expr_adds _ receiver t).trans (exprs_adds _ args _)
  | .cond _ test thenBranch elseBranch, t => by
      rw [Expr.binders_cond, openers, List.map_append, List.map_append]
      exact ((expr_adds _ test t).trans (expr_adds _ thenBranch _)).trans (expr_adds _ elseBranch _)
  | .loop _ test body, t => by
      rw [Expr.binders_loop, openers, List.map_append]
      exact (expr_adds _ test t).trans (expr_adds _ body _)
  | .letIn _ bindings body, t => by
      rw [Expr.binders_letIn, openers, List.map_append]
      exact (lets_adds _ bindings t).trans (expr_adds _ body _)
  | .caseOf _ scrutinee arms, t => by
      -- The bags of the scrutinee come first, its binders after those of the arms.
      refine ((expr_adds _ scrutinee t).trans (cases_adds _ arms _)).congr ?_
      simpa only [openers, Expr.binders_caseOf, List.map_append, List.append_assoc] using
        List.perm_append_comm_assoc _ _ _
  | .block _ body, t => by
      rw [Expr.binders_block]
      exact exprs_adds _ body t
  | .binary _ _ left right, t => by
      rw [Expr.binders_binary, openers, List.map_append]
      exact (expr_adds _ left t).trans (expr_adds _ right _)
  | .unary _ _ operand, t => by
      rw [Expr.binders_unary]
      exact expr_adds _ operand t
  | .paren _ inner, t => by
      rw [Expr.binders_paren]
      exact expr_adds _ inner t
  | .new .., t | .ident .., t | .int .., t | .str .., t | .bool .., t => .refl _ t

theorem optExpr_adds (bag : BagId) : (e : Option Expr) → (t : BagTree) →
    Adds (Opens ctx c) (openers (e.elim [] Expr.binders)) t (optExpr ctx c.name bag e t)
  | some e, t => expr_adds _ e t
  | none, t => .refl _ t

theorem exprs_adds (bag : BagId) : (es : List Expr) → (t : BagTree) →
    Adds (Opens ctx c) (openers (es.flatMap Expr.binders)) t (exprs ctx c.name bag es t)
  | [], t => .refl _ t
  | e :: es, t => by
      rw [List.flatMap_cons, openers, List.map_append]
      exact (expr_adds _ e t).trans (exprs_adds _ es _)

theorem lets_adds (bag : BagId) : (bindings : List (Binder × Option Expr)) → (t : BagTree) →
    Adds (Opens ctx c)
      (openers (bindings.map (·.1) ++ bindings.flatMap fun b => b.2.elim [] Expr.binders)) t
      (lets ctx c.name bag bindings t).2
  | [], t => .refl _ t
  | (b, init) :: bindings, t => by
      have hfirst := (optExpr_adds bag init t).trans (binder_adds bag (Or.inl rfl) b _)
      refine (hfirst.trans (lets_adds _ bindings _)).congr ?_
      simpa [openers] using List.perm_append_comm_assoc _ (Opener.ofBinder b :: _) _

theorem cases_adds (bag : BagId) : (arms : List (Binder × Expr)) → (t : BagTree) →
    Adds (Opens ctx c) (openers (arms.map (·.1) ++ arms.flatMap fun a => a.2.binders)) t
      (cases ctx c.name bag arms t)
  | [], t => .refl _ t
  | (b, body) :: arms, t => by
      have hfirst := (binder_adds bag (Or.inr rfl) b t).trans (expr_adds t.nextId body _)
      refine (hfirst.trans (cases_adds _ arms _)).congr ?_
      simpa [openers] using List.perm_append_comm_assoc _ _ _

end

/-! ## Classes -/

/-- The constructs that open scopes in a feature. -/
def featureOpeners : Feature → List Opener
  | .attr a => openers (a.init.elim [] Expr.binders)
  | .method m => .ofMethod m :: openers m.body.binders

/-- The constructs that open scopes in a class, with the class itself. -/
def classOpeners (c : ClassDecl) : List Opener := .ofClass :: c.features.flatMap featureOpeners

theorem feature_adds {bag : BagId} (hbag : t.classOf bag = c.name) (f : Feature) :
    Adds (Opens ctx c) (featureOpeners f) t (feature ctx c.name bag t f) := by
  cases f with
  | attr a => exact optExpr_adds bag a.init t
  | method m =>
      have hparams := BagTree.foldl_define t.bags
        ⟨m.id, .ofMethod m.name, t.classOf bag, some bag, Entries.empty⟩ t.concrete m.params
        (fun p => .var p.name) (fun p => entry ctx c.name p.ty p.span)
      have hmethod : Adds (Opens ctx c) [.ofMethod m] t (m.params.foldl
          (fun u p => u.define t.nextId (.var p.name) (entry ctx c.name p.ty p.span))
          (t.addChild bag m.id (.ofMethod m.name))) :=
        .single (by rw [BagTree.addChild, BagTree.nextId, hparams])
          (by rw [BagTree.addChild, BagTree.nextId, hparams]) ⟨rfl, ⟨rfl, hbag⟩, rfl⟩
      exact hmethod.trans (expr_adds t.nextId m.body _)

/-- The bag of a class before its features are looked into. -/
def classBag (ctx : Context) (c : ClassDecl) : Bag :=
  ⟨c.id, .ofClass, c.name, none, Entries.empty.defineAll (Opener.ofClass.entries ctx c)⟩

theorem classDecl_eq (ctx : Context) (t : BagTree) (c : ClassDecl) :
    classDecl ctx t c =
      c.features.foldl (feature ctx c.name t.nextId) ⟨t.bags ++ [classBag ctx c], t.concrete⟩ := by
  have hself := fun b => BagTree.foldl_define t.bags b t.concrete [c] (fun _ => .var selfName)
    (fun c => Entry.ofType c.name c.span)
  have hattributes := fun b => BagTree.foldl_define t.bags b t.concrete c.attributes
    (fun a => .var a.name) (fun a => entry ctx c.name a.ty a.span)
  have hmethods := fun b => BagTree.foldl_define t.bags b t.concrete c.methods
    (fun m => .result m.name) (fun m => entry ctx c.name m.ret m.span)
  simp only [List.foldl_cons, List.foldl_nil] at hself
  simp only [classDecl, BagTree.addClass, BagTree.nextId, hself, hattributes, hmethods]
  simp only [classBag, Opener.entries, Entries.defineAll, List.map_cons, List.map_nil,
    List.cons_append, List.foldl_cons, List.foldl_append, List.foldl_nil]

theorem features_adds (ctx : Context) (t : BagTree) (c : ClassDecl) :
    Adds (Opens ctx c) (c.features.flatMap featureOpeners) ⟨t.bags ++ [classBag ctx c], t.concrete⟩
      (classDecl ctx t c) := by
  rw [classDecl_eq]
  refine .foldl fun f _ u hu => feature_adds ?_ f
  obtain ⟨rest, hrest⟩ := hu
  simp [BagTree.classOf, BagTree.nextId, ← hrest, classBag]

theorem classDecl_adds (ctx : Context) (t : BagTree) (c : ClassDecl) :
    Adds (Opens ctx c) (classOpeners c) t (classDecl ctx t c) := by
  have hclass : Adds (Opens ctx c) [.ofClass] t ⟨t.bags ++ [classBag ctx c], t.concrete⟩ :=
    .single rfl rfl ⟨rfl, ⟨rfl, rfl⟩, rfl⟩
  exact hclass.trans (features_adds ctx t c)

theorem ofMethod_mem_classOpeners {m : MethodDecl} :
    .ofMethod m ∈ classOpeners c ↔ m ∈ c.methods := by
  simp only [classOpeners, List.mem_cons, reduceCtorEq, false_or, List.mem_flatMap,
    ClassDecl.methods, List.mem_filterMap]
  refine exists_congr fun f => and_congr_right fun _ => ?_
  cases f with
  | attr a => simp [featureOpeners, openers, Feature.method?]
  | method d => simp [featureOpeners, openers, Feature.method?, eq_comm]

theorem ofBinder_mem_classOpeners {b : Binder} (h : .ofBinder b ∈ classOpeners c) :
    ∃ f ∈ c.features, b.ty ∈ f.declaredTypes := by
  simp only [classOpeners, List.mem_cons, reduceCtorEq, false_or, List.mem_flatMap] at h
  obtain ⟨f, hf, hb⟩ := h
  refine ⟨f, hf, ?_⟩
  cases f with
  | attr a =>
      have hb : b ∈ a.init.elim [] Expr.binders := by simpa [featureOpeners, openers] using hb
      exact List.mem_cons_of_mem _ (List.mem_map_of_mem hb)
  | method m =>
      have hb : b ∈ m.body.binders := by simpa [featureOpeners, openers] using hb
      exact List.mem_append_right _ (List.mem_cons_of_mem _ (List.mem_map_of_mem hb))

/-- A bag starts with an entry for `self` and entries for declarations. -/
theorem mem_entries {o : Opener} (ho : o ∈ classOpeners c) {x : Slot × Entry}
    (hx : x ∈ o.entries ctx c) : x.2 = Entry.ofType c.name c.span ∨
      ∃ f ∈ c.features, ∃ ty ∈ f.declaredTypes, ∃ span, x.2 = entry ctx c.name ty span := by
  cases o with
  | ofClass =>
      simp only [Opener.entries, List.cons_append, List.mem_cons, List.mem_append, List.mem_map] at hx
      rcases hx with rfl | ⟨a, ha, rfl⟩ | ⟨m, hm, rfl⟩
      · exact Or.inl rfl
      · obtain ⟨f, hf, ha⟩ := List.mem_filterMap.mp ha
        cases f with
        | attr a' => cases ha; exact Or.inr ⟨_, hf, a.ty, List.mem_cons_self, a.span, rfl⟩
        | method m => cases ha
      · obtain ⟨f, hf, hm⟩ := List.mem_filterMap.mp hm
        cases f with
        | attr a => cases hm
        | method m' =>
            cases hm
            exact Or.inr ⟨_, hf, m.ret, List.mem_append_right _ List.mem_cons_self, m.span, rfl⟩
  | ofMethod m =>
      obtain ⟨p, hp, rfl⟩ := List.mem_map.mp hx
      obtain ⟨f, hf, hm⟩ := List.mem_filterMap.mp (ofMethod_mem_classOpeners.mp ho)
      cases f with
      | attr a => cases hm
      | method m' =>
          cases hm
          exact Or.inr ⟨_, hf, p.ty, List.mem_append_left _ (List.mem_map_of_mem hp), p.span, rfl⟩
  | ofBinder b =>
      obtain rfl := List.mem_singleton.mp hx
      obtain ⟨f, hf, hb⟩ := ofBinder_mem_classOpeners ho
      exact Or.inr ⟨f, hf, b.ty, hb, b.span, rfl⟩

end Seed

/-! ## The first tree -/

namespace ClassTable

open Seed

theorem seed_adds (t : ClassTable) :
    Adds (fun x : ClassDecl × Opener => Opens t.context x.1 x.2)
      (t.classes.flatMap fun c => (classOpeners c).map (c, ·))
      (BagTree.empty (TypeSet.ofList t.context.concreteTypes)) t.seed :=
  .foldl fun c _ u _ => (classDecl_adds t.context u c).map fun _ _ h => h

theorem seed_concrete (t : ClassTable) :
    t.seed.concrete = TypeSet.ofList t.context.concreteTypes := t.seed_adds.concrete

/-- Every bag is that of a scope. -/
theorem opens_of_mem_seed {t : ClassTable} {b : Bag} (hb : b ∈ t.seed.bags) :
    ∃ c ∈ t.classes, ∃ o ∈ classOpeners c, Opens t.context c o b := by
  obtain ⟨_, added, order, hbags, hperm, hopened⟩ := t.seed_adds
  rw [hbags] at hb
  obtain ⟨⟨c, o⟩, hs, hopens⟩ := forall₂_mem_right hopened hb
  obtain ⟨c', hc, ho⟩ := List.mem_flatMap.mp (hperm.subset hs)
  obtain ⟨o', ho, heq⟩ := List.mem_map.mp ho
  cases heq
  exact ⟨c, hc, o, ho, hopens⟩

/-- Every scope has a bag. -/
theorem exists_mem_seed {t : ClassTable} {c : ClassDecl} {o : Opener} (hc : c ∈ t.classes)
    (ho : o ∈ classOpeners c) : ∃ b ∈ t.seed.bags, Opens t.context c o b := by
  obtain ⟨_, added, order, hbags, hperm, hopened⟩ := t.seed_adds
  have hs : (c, o) ∈ order := hperm.symm.subset (List.mem_flatMap.mpr ⟨c, hc, List.mem_map_of_mem ho⟩)
  obtain ⟨b, hb, hopens⟩ := forall₂_mem_left hopened hs
  exact ⟨b, hbags ▸ hb, hopens⟩

/-- Every entry is for a class or for a declaration. -/
theorem mem_seed_entries {t : ClassTable} {b : Bag} (hb : b ∈ t.seed.bags) {x : Slot × Entry}
    (hx : x ∈ b.entries.toList) : ∃ c ∈ t.classes, x.2 = Entry.ofType c.name c.span ∨
      ∃ f ∈ c.features, ∃ ty ∈ f.declaredTypes, ∃ span, x.2 = entry t.context c.name ty span := by
  obtain ⟨c, hc, o, ho, hopens⟩ := opens_of_mem_seed hb
  rw [hopens.entries] at hx
  exact ⟨c, hc, mem_entries ho ((Entries.defineAll_sublist _ _).subset hx)⟩

/-- A construct that opens a scope has a bag. -/
theorem isSome_bagOf?_seed {t : ClassTable} {c : ClassDecl} {o : Opener} (hc : c ∈ t.classes)
    (ho : o ∈ classOpeners c) : (t.seed.bagOf? (o.id c)).isSome = true := by
  obtain ⟨b, hb, hopens⟩ := exists_mem_seed hc ho
  exact isSome_lastIdx? hb (by simp [hopens.owner])

/-- Where there is a bag with some property, the one that is found is that of a scope. -/
theorem opens_of_lastIdx? {t : ClassTable} (p : Bag → Bool) {b : Bag} (hb : b ∈ t.seed.bags)
    (hp : p b = true) : ∃ bag a, lastIdx? p t.seed.bags = some bag ∧ t.seed.bags[bag]? = some a ∧
      p a = true ∧ ∃ c ∈ t.classes, ∃ o ∈ classOpeners c, Opens t.context c o a := by
  obtain ⟨bag, hbag⟩ := Option.isSome_iff_exists.mp (isSome_lastIdx? hb hp)
  obtain ⟨a, hget, hpa⟩ := lastIdx?_eq_some hbag
  exact ⟨bag, a, hbag, hget, hpa, opens_of_mem_seed (List.mem_of_getElem? hget)⟩

theorem has_seed {t : ClassTable} {bag : BagId} {b : Bag} {c : ClassDecl} {o : Opener} {slot : Slot}
    (hget : t.seed.bags[bag]? = some b) (hopens : Opens t.context c o b)
    (hslot : slot ∈ (o.entries t.context c).map (·.1)) : t.seed.has bag slot = true := by
  have hcontains : b.entries.contains slot = true := by
    rw [hopens.entries, Entries.contains_defineAll]
    exact Or.inr hslot
  simp [BagTree.has, hget, hcontains]

/-- The bag that is found for a class is the one that the class opens. -/
theorem WellFormed.classBag?_opens {t : ClassTable} (h : t.WellFormed) {c : ClassDecl}
    (hc : c ∈ t.classes) : ∃ bag b, t.seed.classBag? c.name = some bag ∧ t.seed.bags[bag]? = some b ∧
      Opens t.context c .ofClass b := by
  obtain ⟨b, hb, hopens⟩ := exists_mem_seed hc (List.mem_cons_self : .ofClass ∈ classOpeners c)
  obtain ⟨bag, a, hbag, hget, ha, c', hc', o, _, hopens'⟩ :=
    opens_of_lastIdx? (fun b => b.kind == .ofClass && b.inClass == c.name) hb
      (by simp [hopens.place.1, hopens.place.2])
  simp only [Bool.and_eq_true, beq_iff_eq] at ha
  have hplace := hopens'.place
  cases o with
  | ofClass =>
      obtain rfl := h.class_eq_of_name hc hc' (ha.2.symm.trans hplace.2)
      exact ⟨bag, a, hbag, hget, hopens'⟩
  | ofMethod m => exact absurd (ha.1.symm.trans hplace.1) (by simp)
  | ofBinder x => rcases hplace with hk | hk <;> exact absurd (ha.1.symm.trans hk) (by simp)

/-- The bag of a class has entries for the results of its methods. -/
theorem WellFormed.classBag?_seed {t : ClassTable} (h : t.WellFormed) {c : ClassDecl}
    (hc : c ∈ t.classes) : ∃ bag, t.seed.classBag? c.name = some bag ∧
      ∀ m ∈ c.methods, t.seed.has bag (.result m.name) = true := by
  obtain ⟨bag, b, hbag, hget, hopens⟩ := h.classBag?_opens hc
  refine ⟨bag, hbag, fun m hm => has_seed hget hopens ?_⟩
  exact List.mem_map.mpr ⟨_, List.mem_append_right _ (List.mem_map_of_mem hm), rfl⟩

/-- The bag that is found for a method is the one that the method opens. -/
theorem WellFormed.methodBag?_opens {t : ClassTable} (h : t.WellFormed) {c : ClassDecl}
    (hc : c ∈ t.classes) (hnames : (c.methods.map (·.name)).Nodup) {m : MethodDecl}
    (hm : m ∈ c.methods) : ∃ bag b, t.seed.methodBag? c.name m.name = some bag ∧
      t.seed.bags[bag]? = some b ∧ Opens t.context c (.ofMethod m) b := by
  obtain ⟨b, hb, hopens⟩ := exists_mem_seed hc (ofMethod_mem_classOpeners.mpr hm)
  obtain ⟨bag, a, hbag, hget, ha, c', hc', o, ho, hopens'⟩ :=
    opens_of_lastIdx? (fun b => b.kind == .ofMethod m.name && b.inClass == c.name) hb
      (by simp [hopens.place.1, hopens.place.2])
  simp only [Bool.and_eq_true, beq_iff_eq] at ha
  have hplace := hopens'.place
  cases o with
  | ofClass => exact absurd (ha.1.symm.trans hplace.1) (by simp)
  | ofMethod m' =>
      -- The last method of that name is the only one.
      obtain rfl := h.class_eq_of_name hc hc' (ha.2.symm.trans hplace.2)
      have hname : m.name = m'.name := by simpa using ha.1.symm.trans hplace.1
      obtain rfl := List.inj_on_of_nodup_map hnames hm (ofMethod_mem_classOpeners.mp ho) hname
      exact ⟨bag, a, hbag, hget, hopens'⟩
  | ofBinder x => rcases hplace with hk | hk <;> exact absurd (ha.1.symm.trans hk) (by simp)

/-- The bag of a method has entries for its parameters. -/
theorem WellFormed.methodBag?_seed {t : ClassTable} (h : t.WellFormed) {c : ClassDecl}
    (hc : c ∈ t.classes) (hnames : (c.methods.map (·.name)).Nodup) {m : MethodDecl}
    (hm : m ∈ c.methods) : ∃ bag, t.seed.methodBag? c.name m.name = some bag ∧
      ∀ p ∈ m.params, t.seed.has bag (.var p.name) = true := by
  obtain ⟨bag, b, hbag, hget, hopens⟩ := h.methodBag?_opens hc hnames hm
  refine ⟨bag, hbag, fun p hp => has_seed hget hopens ?_⟩
  exact List.mem_map.mpr ⟨_, List.mem_map_of_mem hp, rfl⟩

/-! ## Types in the first tree -/

variable {t : ClassTable} {P : TypeName → Prop}

/-- `P` holds of the concrete types and, where an unknown type is named, of `<error>`. -/
structure Admits (t : ClassTable) (P : TypeName → Prop) : Prop where
  wellFormed : t.WellFormed
  methodNames : ∀ c ∈ t.classes, (c.methods.map (·.name)).Nodup
  concrete : ∀ ty ∈ t.context.concreteTypes, P ty
  writes : ∀ c ∈ t.classes, ∀ f ∈ c.features, f.Writes fun ty =>
    P TypeName.error ∨ t.context.contains ty = true ∧ ty ≠ TypeName.error

theorem Admits.of_contains (h : t.Admits P) {ty : TypeName}
    (hty : P TypeName.error ∨ t.context.contains ty = true ∧ ty ≠ TypeName.error)
    (hc : t.context.contains ty = true) (hself : ty ≠ TypeName.selfType) (hauto : ty ≠ TypeName.auto) :
    P ty := by
  rcases h.wellFormed.concrete_of_contains hc with hty' | rfl | rfl | rfl
  · exact h.concrete ty hty'
  · exact absurd rfl hauto
  · exact absurd rfl hself
  · exact hty.elim id fun hne => absurd rfl hne.2

theorem Admits.entry (h : t.Admits P) {c : ClassDecl} (hc : c ∈ t.classes) {ty : TypeName}
    (hty : P TypeName.error ∨ t.context.contains ty = true ∧ ty ≠ TypeName.error) (span : Span) :
    ∀ y ∈ (entry t.context c.name ty span).candidates, P y := by
  intro y hy
  unfold Seed.entry at hy
  split at hy
  · exact h.concrete y (TypeSet.mem_ofList.mp hy)
  rename_i hauto
  split at hy
  · rename_i hcontains
    obtain rfl := TypeSet.mem_single.mp hy
    unfold TypeName.resolveSelf
    split
    · exact h.concrete _ (h.wellFormed.class_concrete hc)
    · rename_i hself
      exact h.of_contains hty hcontains (by simpa using hself) (by simpa using hauto)
  · rename_i hcontains
    obtain rfl := TypeSet.mem_single.mp hy
    exact hty.elim id fun hne => absurd hne.1 hcontains

theorem Admits.seed_within (h : t.Admits P) : t.seed.Within P := by
  refine ⟨fun y hy => ?_, fun b hb x hx y hy => ?_⟩
  · rw [seed_concrete] at hy
    exact h.concrete y (TypeSet.mem_ofList.mp hy)
  · obtain ⟨c, hc, heq | ⟨f, hf, ty, hty, span, heq⟩⟩ := mem_seed_entries hb hx
    · rw [heq] at hy
      obtain rfl := TypeSet.mem_single.mp hy
      exact h.concrete _ (h.wellFormed.class_concrete hc)
    · rw [heq] at hy
      exact h.entry hc ((h.writes c hc f hf).declaredTypes ty hty) span y hy

theorem Admits.seed_covers (h : t.Admits P) : t.Covers P t.seed := by
  have hbasic : ∀ ty ∈ Context.basic.concreteTypes, P ty :=
    fun ty hty => h.concrete ty (h.wellFormed.basic_concrete hty)
  intro c hc
  refine ⟨⟨hbasic _ (by decide), hbasic _ (by decide), hbasic _ (by decide),
    hbasic _ (by decide), h.concrete _ (h.wellFormed.class_concrete hc), ?_, ?_⟩,
    fun f hf => (h.writes c hc f hf).mono fun ty hty => h.of_contains hty⟩
  · intro ty name owner m hm
    rcases (h.wellFormed.methods.of_method? hm).1 with hb | ⟨d, hd, rfl, md, hmd, hname, _⟩
    · rcases hb.1 with hself | hret
      · exact Or.inl hself
      · exact Or.inr (Or.inl (hbasic _ hret))
    · obtain ⟨bag, hbag, hhas⟩ := h.wellFormed.classBag?_seed hd
      exact Or.inr (Or.inr ⟨bag, hbag, hname ▸ hhas md hmd⟩)
  · intro ty name owner m hm p hp
    rcases (h.wellFormed.methods.of_method? hm).1 with hb | ⟨d, hd, rfl, md, hmd, hname, hparams⟩
    · exact Or.inl (hbasic _ (hb.2 p hp))
    · obtain ⟨bag, hbag, hhas⟩ := h.wellFormed.methodBag?_seed hd (h.methodNames d hd) hmd
      have hp : p.1 ∈ md.params.map (·.name) := hparams ▸ List.mem_map_of_mem hp
      obtain ⟨q, hq, heq⟩ := List.mem_map.mp hp
      exact Or.inr ⟨bag, hname ▸ hbag, heq ▸ hhas q hq⟩

/-- A placeholder starts with all concrete types. -/
theorem unlocked_of_mem_seed {b : Bag} (hb : b ∈ t.seed.bags) {x : Slot × Entry}
    (hx : x ∈ b.entries.toList) (hl : x.2.locked = false) :
    x.2.candidates = t.seed.concrete ∧ x.2.ambiguous = false := by
  obtain ⟨c, _, heq | ⟨f, _, ty, _, span, heq⟩⟩ := mem_seed_entries hb hx
  · rw [heq] at hl
    cases hl
  · rw [seed_concrete, heq]
    rw [heq] at hl
    unfold Seed.entry at hl ⊢
    split
    · exact ⟨rfl, rfl⟩
    · rename_i hauto
      rw [if_neg hauto] at hl
      split at hl
      · cases hl
      · cases hl

/-- A placeholder never runs out of candidates. -/
theorem WellFormed.swept_nonempty (h : t.WellFormed) (n : Nat) {b : Bag}
    (hb : b ∈ (t.swept n t.seed).bags) {x : Slot × Entry} (hx : x ∈ b.entries.toList)
    (hl : x.2.locked = false) : x.2.candidates.toList ≠ [] := by
  obtain ⟨a, ha, hab⟩ := forall₂_mem_right (t.swept_evolvesTo n t.seed).bags hb
  obtain ⟨y, hy, _, hyx⟩ := forall₂_mem_right hab.entries hx
  have hseed := (unlocked_of_mem_seed ha hy (hyx.locked.symm.trans hl)).1
  have hobject : TypeName.object ∈ t.seed.concrete := by
    rw [seed_concrete]
    exact TypeSet.mem_ofList.mpr (h.basic_concrete (by decide))
  exact hyx.nonempty (hseed ▸ List.ne_nil_of_mem hobject)

end ClassTable

end CoolTyping
