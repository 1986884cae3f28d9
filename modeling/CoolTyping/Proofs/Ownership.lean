import CoolTyping.Proofs.Binding

/-!
# Scopes and their bags

Numbers tell scopes apart. In a program that was read from a text every class, method, `let` binding and
`case` arm has a number of its own, and the bag that is found by this number in the first tree was made for
that very construct: it holds its declarations and lies in the bag of the scope around it.
-/

namespace CoolTyping

namespace Seed

/-! ## Scopes in a class -/

/-- A scope in a class: the construct that opens it, the kind of its bag and the number of the scope around
it. -/
structure Site where
  opener : Opener
  kind : BagKind
  around : Option NodeId

/-- The number of the scope in which the body of a `let` stands. -/
def innermost (around : NodeId) (bindings : List (Binder × Option Expr)) : NodeId :=
  bindings.foldl (fun _ b => b.1.id) around

mutual

/-- The scopes inside an expression that stands in the scope with the number `around`. -/
def sites (around : NodeId) : Expr → List Site
  | .assign _ _ value => sites around value
  | .dispatch _ receiver _ args => sitesOpt around receiver ++ sitesAll around args
  | .staticDispatch _ receiver _ _ args => sites around receiver ++ sitesAll around args
  | .cond _ test thenBranch elseBranch =>
    sites around test ++ (sites around thenBranch ++ sites around elseBranch)
  | .loop _ test body => sites around test ++ sites around body
  | .letIn _ bindings body => sitesLets around bindings ++ sites (innermost around bindings) body
  | .caseOf _ scrutinee arms => sites around scrutinee ++ sitesArms around arms
  | .block _ body => sitesAll around body
  | .binary _ _ left right => sites around left ++ sites around right
  | .unary _ _ operand => sites around operand
  | .paren _ inner => sites around inner
  | .new .. | .ident .. | .int .. | .str .. | .bool .. => []
termination_by structural e => e

def sitesOpt (around : NodeId) : Option Expr → List Site
  | some e => sites around e
  | none => []
termination_by structural e => e

def sitesAll (around : NodeId) : List Expr → List Site
  | [] => []
  | e :: es => sites around e ++ sitesAll around es
termination_by structural es => es

/-- Each binding lies in the scope of the one before it. -/
def sitesLets (around : NodeId) : List (Binder × Option Expr) → List Site
  | [] => []
  | (b, init) :: bindings =>
    sitesOpt around init ++ ⟨.ofBinder b, .ofLet, some around⟩ :: sitesLets b.id bindings
termination_by structural bindings => bindings

def sitesArms (around : NodeId) : List (Binder × Expr) → List Site
  | [] => []
  | (b, body) :: arms =>
    ⟨.ofBinder b, .ofCase, some around⟩ :: (sites b.id body ++ sitesArms around arms)
termination_by structural arms => arms

end

def featureSites (around : NodeId) : Feature → List Site
  | .attr a => sitesOpt around a.init
  | .method m => ⟨.ofMethod m, .ofMethod m.name, some around⟩ :: sites m.id m.body

/-- The scopes in a class, with the class itself. -/
def classSites (c : ClassDecl) : List Site :=
  ⟨.ofClass, .ofClass, none⟩ :: c.features.flatMap (featureSites c.id)

/-! ## No scope is left out -/

mutual

theorem openers_sites (around : NodeId) :
    (e : Expr) → ((sites around e).map (·.opener)).Perm (openers e.binders)
  | .assign _ _ value => by
      rw [Expr.binders_assign]
      exact openers_sites around value
  | .dispatch _ receiver _ args => by
      rw [Expr.binders_dispatch, openers, List.map_append, sites, List.map_append]
      exact (openers_sitesOpt around receiver).append (openers_sitesAll around args)
  | .staticDispatch _ receiver _ _ args => by
      rw [Expr.binders_staticDispatch, openers, List.map_append, sites, List.map_append]
      exact (openers_sites around receiver).append (openers_sitesAll around args)
  | .cond _ test thenBranch elseBranch => by
      rw [Expr.binders_cond, List.append_assoc, openers, List.map_append, List.map_append, sites,
        List.map_append, List.map_append]
      exact (openers_sites around test).append
        ((openers_sites around thenBranch).append (openers_sites around elseBranch))
  | .loop _ test body => by
      rw [Expr.binders_loop, openers, List.map_append, sites, List.map_append]
      exact (openers_sites around test).append (openers_sites around body)
  | .letIn _ bindings body => by
      rw [Expr.binders_letIn, openers, List.map_append, sites, List.map_append]
      exact (openers_sitesLets around bindings).append (openers_sites _ body)
  | .caseOf _ scrutinee arms => by
      rw [Expr.binders_caseOf, List.append_assoc, sites, List.map_append]
      refine ((openers_sites around scrutinee).append (openers_sitesArms around arms)).trans ?_
      simpa only [openers, List.map_append] using List.perm_append_comm_assoc _ _ _
  | .block _ body => by
      rw [Expr.binders_block]
      exact openers_sitesAll around body
  | .binary _ _ left right => by
      rw [Expr.binders_binary, openers, List.map_append, sites, List.map_append]
      exact (openers_sites around left).append (openers_sites around right)
  | .unary _ _ operand => by
      rw [Expr.binders_unary]
      exact openers_sites around operand
  | .paren _ inner => by
      rw [Expr.binders_paren]
      exact openers_sites around inner
  | .new .. | .ident .. | .int .. | .str .. | .bool .. => .refl _

theorem openers_sitesOpt (around : NodeId) :
    (e : Option Expr) → ((sitesOpt around e).map (·.opener)).Perm (openers (e.elim [] Expr.binders))
  | some e => openers_sites around e
  | none => .refl _

theorem openers_sitesAll (around : NodeId) :
    (es : List Expr) → ((sitesAll around es).map (·.opener)).Perm (openers (es.flatMap Expr.binders))
  | [] => .refl _
  | e :: es => by
      rw [List.flatMap_cons, openers, List.map_append, sitesAll, List.map_append]
      exact (openers_sites around e).append (openers_sitesAll around es)

theorem openers_sitesLets (around : NodeId) : (bindings : List (Binder × Option Expr)) →
    ((sitesLets around bindings).map (·.opener)).Perm
      (openers (bindings.map (·.1) ++ bindings.flatMap fun b => b.2.elim [] Expr.binders))
  | [] => .refl _
  | (b, init) :: bindings => by
      rw [sitesLets, List.map_append, List.map_cons]
      refine ((openers_sitesOpt around init).append ((openers_sitesLets b.id bindings).cons _)).trans ?_
      simpa [openers] using List.perm_append_comm_assoc _ (Opener.ofBinder b :: _) _

theorem openers_sitesArms (around : NodeId) : (arms : List (Binder × Expr)) →
    ((sitesArms around arms).map (·.opener)).Perm
      (openers (arms.map (·.1) ++ arms.flatMap fun a => a.2.binders))
  | [] => .refl _
  | (b, body) :: arms => by
      rw [sitesArms, List.map_cons, List.map_append]
      refine (((openers_sites b.id body).append (openers_sitesArms around arms)).cons _).trans ?_
      simpa [openers] using List.perm_append_comm_assoc _ _ _

end

theorem openers_classSites (c : ClassDecl) : ((classSites c).map (·.opener)).Perm (classOpeners c) := by
  rw [classSites, List.map_cons, List.map_flatMap]
  refine .cons _ (List.Perm.flatMap_left _ fun f _ => ?_)
  cases f with
  | attr a => exact openers_sitesOpt c.id a.init
  | method m => exact (openers_sites m.id m.body).cons _

/-! ## Bags made for scopes -/

/-- The bag that is found for the scope was made for it. -/
structure Owns (ctx : Context) (T : BagTree) (c : ClassDecl) (x : Site) (i : BagId) : Prop where
  found : T.bagOf? (x.opener.id c) = some i
  bag : T.bags[i]? = some ⟨x.opener.id c, x.kind, c.name, x.around.bind T.bagOf?,
    Entries.empty.defineAll (x.opener.entries ctx c)⟩
  around : ∀ id ∈ x.around, (T.bagOf? id).isSome = true

/-- If `bag` is found for the scope with the number `around`, then all of the scopes own bags. -/
def OwnIn (ctx : Context) (T : BagTree) (c : ClassDecl) (bag : BagId) (around : NodeId) (xs : List Site) :
    Prop :=
  T.bagOf? around = some bag → ∀ x ∈ xs, ∃ i, Owns ctx T c x i

variable {ctx : Context} {c : ClassDecl} {t U : BagTree} {bag : BagId} {around : NodeId}

theorem OwnIn.nil : OwnIn ctx U c bag around [] := fun _ _ hx => absurd hx List.not_mem_nil

theorem OwnIn.append {xs ys : List Site} (h : OwnIn ctx U c bag around xs ∧ OwnIn ctx U c bag around ys) :
    OwnIn ctx U c bag around (xs ++ ys) := fun hbag x hx =>
  (List.mem_append.mp hx).elim (h.1 hbag x) (h.2 hbag x)

theorem owns_of_getElem? (hU : U.DistinctOwners) {o : Opener} {kind : BagKind} {i : BagId}
    (hb : U.bags[i]? = some ⟨o.id c, kind, c.name, some bag, Entries.empty.defineAll (o.entries ctx c)⟩)
    (haround : U.bagOf? around = some bag) : Owns ctx U c ⟨o, kind, some around⟩ i where
  found := hU.bagOf?_eq hb
  bag := by rw [hb, Option.bind_some, haround]
  around id hid := by
    cases hid
    rw [haround]
    rfl

theorem binder_owns (hU : U.DistinctOwners) {kind : BagKind} (b : Binder) (around : NodeId)
    (hbag : InClass t bag c.name) :
    Extends U t (binder ctx c.name bag kind b t) (U.bagOf? b.id = some t.nextId ∧
      (U.bagOf? around = some bag → ∃ i, Owns ctx U c ⟨.ofBinder b, kind, some around⟩ i)) := by
  rw [binder_eq]
  refine .append (fun j hj => Option.some.inj hj ▸ ⟨hbag.lt, rfl⟩) (by simp) fun hb => ?_
  rw [hbag.classOf_eq] at hb
  exact ⟨hU.bagOf?_eq hb, fun haround => ⟨_, owns_of_getElem? (o := .ofBinder b) hU hb haround⟩⟩

mutual

theorem expr_owns (hU : U.DistinctOwners) : (e : Expr) → (around : NodeId) → {bag : BagId} → {t : BagTree} →
    InClass t bag c.name →
      Extends U t (expr ctx c.name bag e t) (OwnIn ctx U c bag around (sites around e))
  | .assign _ _ value, around, _, _, hbag => expr_owns hU value around hbag
  | .dispatch _ receiver _ args, around, _, _, hbag =>
      have hreceiver := optExpr_owns hU receiver around hbag
      (hreceiver.trans (exprs_owns hU args around (hbag.mono hreceiver.isPrefix))).imp .append
  | .staticDispatch _ receiver _ _ args, around, _, _, hbag =>
      have hreceiver := expr_owns hU receiver around hbag
      (hreceiver.trans (exprs_owns hU args around (hbag.mono hreceiver.isPrefix))).imp .append
  | .cond _ test thenBranch elseBranch, around, _, _, hbag =>
      have htest := expr_owns hU test around hbag
      have hthen := expr_owns hU thenBranch around (hbag.mono htest.isPrefix)
      have helse := expr_owns hU elseBranch around (hbag.mono (htest.isPrefix.trans hthen.isPrefix))
      (htest.trans ((hthen.trans helse).imp .append)).imp .append
  | .loop _ test body, around, _, _, hbag =>
      have htest := expr_owns hU test around hbag
      (htest.trans (expr_owns hU body around (hbag.mono htest.isPrefix))).imp .append
  | .letIn _ bindings body, around, _, _, hbag =>
      have hlets := lets_owns hU bindings around hbag
      (hlets.1.trans (expr_owns hU body (innermost around bindings) hlets.2)).imp fun h haround x hx =>
        (List.mem_append.mp hx).elim ((h.1 haround).1 x) (h.2 (h.1 haround).2 x)
  | .caseOf _ scrutinee arms, around, _, _, hbag =>
      have hscrutinee := expr_owns hU scrutinee around hbag
      (hscrutinee.trans (cases_owns hU arms around (hbag.mono hscrutinee.isPrefix))).imp .append
  | .block _ body, around, _, _, hbag => exprs_owns hU body around hbag
  | .binary _ _ left right, around, _, _, hbag =>
      have hleft := expr_owns hU left around hbag
      (hleft.trans (expr_owns hU right around (hbag.mono hleft.isPrefix))).imp .append
  | .unary _ _ operand, around, _, _, hbag => expr_owns hU operand around hbag
  | .paren _ inner, around, _, _, hbag => expr_owns hU inner around hbag
  | .new .., _, _, t, _ | .ident .., _, _, t, _ | .int .., _, _, t, _ | .str .., _, _, t, _
  | .bool .., _, _, t, _ => (Extends.refl U t).imp fun _ => .nil

theorem optExpr_owns (hU : U.DistinctOwners) : (e : Option Expr) → (around : NodeId) → {bag : BagId} →
    {t : BagTree} → InClass t bag c.name →
      Extends U t (optExpr ctx c.name bag e t) (OwnIn ctx U c bag around (sitesOpt around e))
  | some e, around, _, _, hbag => expr_owns hU e around hbag
  | none, _, _, t, _ => (Extends.refl U t).imp fun _ => .nil

theorem exprs_owns (hU : U.DistinctOwners) : (es : List Expr) → (around : NodeId) → {bag : BagId} →
    {t : BagTree} → InClass t bag c.name →
      Extends U t (exprs ctx c.name bag es t) (OwnIn ctx U c bag around (sitesAll around es))
  | [], _, _, t, _ => (Extends.refl U t).imp fun _ => .nil
  | e :: es, around, _, _, hbag =>
      have he := expr_owns hU e around hbag
      (he.trans (exprs_owns hU es around (hbag.mono he.isPrefix))).imp .append

/-- The last bag is found for the scope in which the body of the `let` stands. -/
theorem lets_owns (hU : U.DistinctOwners) : (bindings : List (Binder × Option Expr)) →
    (around : NodeId) → {bag : BagId} → {t : BagTree} → InClass t bag c.name →
      Extends U t (lets ctx c.name bag bindings t).2 (U.bagOf? around = some bag →
        (∀ x ∈ sitesLets around bindings, ∃ i, Owns ctx U c x i) ∧
        U.bagOf? (innermost around bindings) = some (lets ctx c.name bag bindings t).1) ∧
      InClass (lets ctx c.name bag bindings t).2 (lets ctx c.name bag bindings t).1 c.name
  | [], _, _, t, hbag =>
      ⟨(Extends.refl U t).imp fun _ haround => ⟨fun _ hx => absurd hx List.not_mem_nil, haround⟩, hbag⟩
  | (b, init) :: bindings, around, _, _, hbag =>
      have hinit := optExpr_owns hU init around hbag
      have hinner := hbag.mono hinit.isPrefix
      have hb := binder_owns hU b around hinner
      have hrest := lets_owns hU bindings b.id (binder_inClass b hinner)
      ⟨(hinit.trans (hb.trans hrest.1)).imp fun h haround =>
          have hlast := h.2.2 h.2.1.1
          ⟨fun x hx => (List.mem_append.mp hx).elim (h.1 haround x) fun hx =>
            (List.mem_cons.mp hx).elim (fun heq => heq ▸ h.2.1.2 haround) (hlast.1 x), hlast.2⟩,
        hrest.2⟩

theorem cases_owns (hU : U.DistinctOwners) : (arms : List (Binder × Expr)) → (around : NodeId) →
    {bag : BagId} → {t : BagTree} → InClass t bag c.name →
      Extends U t (cases ctx c.name bag arms t) (OwnIn ctx U c bag around (sitesArms around arms))
  | [], _, _, t, _ => (Extends.refl U t).imp fun _ => .nil
  | (b, body) :: arms, around, _, _, hbag =>
      have hb := binder_owns hU b around hbag
      have hbody := expr_owns hU body b.id (binder_inClass b hbag)
      have hrest := cases_owns hU arms around (hbag.mono (hb.isPrefix.trans hbody.isPrefix))
      (hb.trans (hbody.trans hrest)).imp fun h haround x hx =>
        (List.mem_cons.mp hx).elim (fun heq => heq ▸ h.1.2 haround) fun hx =>
          (List.mem_append.mp hx).elim (h.2.1 h.1.1 x) (h.2.2 haround x)

end

theorem feature_owns (hU : U.DistinctOwners) (around : NodeId) (hbag : InClass t bag c.name) (f : Feature) :
    Extends U t (feature ctx c.name bag t f) (OwnIn ctx U c bag around (featureSites around f)) := by
  cases f with
  | attr a => exact optExpr_owns hU a.init around hbag
  | method m =>
      have hparams := BagTree.foldl_define t.bags
        ⟨m.id, .ofMethod m.name, t.classOf bag, some bag, Entries.empty⟩ t.concrete m.params
        (fun p => .var p.name) (fun p => entry ctx c.name p.ty p.span)
      simp only [feature, BagTree.addChild, BagTree.nextId, hparams]
      rw [hbag.classOf_eq]
      have hmethod : Extends U t ⟨t.bags ++ [⟨m.id, .ofMethod m.name, c.name, some bag,
            Entries.empty.defineAll ((Opener.ofMethod m).entries ctx c)⟩], t.concrete⟩
          (U.bagOf? m.id = some t.nextId ∧ (U.bagOf? around = some bag →
            ∃ i, Owns ctx U c ⟨.ofMethod m, .ofMethod m.name, some around⟩ i)) :=
        .append (fun j hj => Option.some.inj hj ▸ ⟨hbag.lt, hbag.classOf_eq.symm⟩) (by simp)
          fun hb => ⟨hU.bagOf?_eq hb, fun haround => ⟨_, owns_of_getElem? (o := .ofMethod m) hU hb haround⟩⟩
      refine (hmethod.trans (expr_owns hU m.body m.id
        ⟨_, List.getElem?_concat_length, rfl⟩)).imp fun h haround x hx => ?_
      rcases List.mem_cons.mp hx with rfl | hx
      · exact h.1.2 haround
      · exact h.2 h.1.1 x hx

theorem classDecl_owns (hU : U.DistinctOwners) (t : BagTree) (c : ClassDecl) :
    Extends U t (classDecl ctx t c) (∀ x ∈ classSites c, ∃ i, Owns ctx U c x i) := by
  rw [classDecl_eq]
  have hclass : Extends U t ⟨t.bags ++ [classBag ctx c], t.concrete⟩
      (U.bags[t.nextId]? = some (classBag ctx c)) :=
    .append (by simp [classBag]) (fun _ => rfl) id
  refine (hclass.trans (.foldl fun f _ u hu => feature_owns hU c.id ?_ f)).imp fun h x hx => ?_
  · exact InClass.mono ⟨classBag ctx c, List.getElem?_concat_length, rfl⟩ hu
  have hfound : U.bagOf? c.id = some t.nextId := hU.bagOf?_eq h.1
  rcases List.mem_cons.mp hx with rfl | hx
  · exact ⟨t.nextId, hfound, h.1, fun id hid => by cases hid⟩
  · obtain ⟨f, hf, hx⟩ := List.mem_flatMap.mp hx
    exact h.2 f hf hfound x hx

end Seed

namespace ClassTable

open Seed

/-- The scopes of the registered classes. -/
def sites (t : ClassTable) : List (ClassDecl × Site) := t.classes.flatMap fun c => (classSites c).map (c, ·)

/-- Every registered class, with all scopes inside it, owns bags in the first tree. -/
theorem seed_owns {t : ClassTable} (hU : t.seed.DistinctOwners) {s : ClassDecl × Site} (hs : s ∈ t.sites) :
    ∃ i, Owns t.context t.seed s.1 s.2 i := by
  have hseed : Extends t.seed (BagTree.empty (TypeSet.ofList t.context.concreteTypes)) t.seed
      (∀ c ∈ t.classes, ∀ x ∈ classSites c, ∃ i, Owns t.context t.seed c x i) :=
    .foldl fun c _ u _ => classDecl_owns hU u c
  obtain ⟨c, hc, hs⟩ := List.mem_flatMap.mp hs
  obtain ⟨x, hx, rfl⟩ := List.mem_map.mp hs
  exact hseed.placed (List.prefix_refl _) c hc x hx

theorem ids_sites (t : ClassTable) :
    (t.sites.map fun s => s.2.opener.id s.1).Perm (t.classes.flatMap ClassDecl.scopeIds) := by
  rw [sites, List.map_flatMap]
  refine List.Perm.flatMap_left _ fun c _ => ?_
  rw [List.map_map, ← map_id_classOpeners]
  have hperm := (openers_classSites c).map (Opener.id c)
  rwa [List.map_map] at hperm

/-- The numbers of scopes with bags of their own lead to different bags. -/
theorem nodup_bagOf?_sites {t : ClassTable} (hU : t.seed.DistinctOwners) :
    (t.sites.map fun s => t.seed.bagOf? (s.2.opener.id s.1)).Nodup := by
  have hids : (t.sites.map fun s => s.2.opener.id s.1).Nodup :=
    t.ids_sites.nodup_iff.mpr (t.seed_owners.nodup_iff.mp hU)
  have hinjective : ∀ x ∈ t.sites.map (fun s => s.2.opener.id s.1), ∀ y ∈ t.sites.map
      (fun s => s.2.opener.id s.1), t.seed.bagOf? x = t.seed.bagOf? y → x = y := by
    intro x hx y hy hxy
    obtain ⟨s, hs, rfl⟩ := List.mem_map.mp hx
    obtain ⟨s', hs', rfl⟩ := List.mem_map.mp hy
    obtain ⟨i, howns⟩ := seed_owns hU hs
    obtain ⟨j, howns'⟩ := seed_owns hU hs'
    obtain rfl : i = j := Option.some.inj (howns.found.symm.trans (hxy.trans howns'.found))
    exact congrArg Bag.owner (Option.some.inj (howns.bag.symm.trans howns'.bag))
  have hnodup := List.Nodup.map_on hinjective hids
  rwa [List.map_map] at hnodup

/-- The scopes of a program that was read from a text are numbered from zero on, each with a number of its
own. Each scope of a registered class has a bag of its own, and this is what its number leads to. -/
theorem parse_scopes_owned {source : String} {p : Program} (hp : parse source = .ok p) :
    p.scopeIds.Nodup ∧ (∀ id, id ∈ p.scopeIds ↔ id < p.scopeIds.length) ∧
    let t := (build p).value
    (t.sites.map fun s => s.2.opener.id s.1).Perm (t.classes.flatMap ClassDecl.scopeIds) ∧
    (∀ s ∈ t.sites, ∃ i, Owns t.context t.seed s.1 s.2 i) ∧
    (t.sites.map fun s => t.seed.bagOf? (s.2.opener.id s.1)).Nodup := by
  have hids := parse_scopeIds hp
  have hU := build_distinctOwners hp
  exact ⟨hids.nodup_iff.mpr List.nodup_range, fun id => hids.mem_iff.trans List.mem_range, ids_sites _,
    fun s hs => seed_owns hU hs, nodup_bagOf?_sites hU⟩

/-- A `let` in the initial value of another one, `case` arms, and a class that is turned down. -/
def nestingText : String :=
  "class A\x7bf(x:Int):Object\x7blet y:Int<-let w:Int in w,z:AUTO_TYPE in case y of i:Int=>i;o:Object=>o;esac" ++
    "\x7d;\x7d;class A\x7b\x7d;class B\x7b\x7d;"

def nesting : Program :=
  ⟨[⟨0, "A", none, [
      .method ⟨1, "f", [⟨"x", TypeName.int, ⟨10, 15⟩⟩], TypeName.object,
        .letIn ⟨24, 100⟩ [
          (⟨3, "y", TypeName.int, ⟨28, 49⟩⟩,
            some (.letIn ⟨35, 49⟩ [(⟨2, "w", TypeName.int, ⟨39, 44⟩⟩, none)] (.ident ⟨48, 49⟩ "w"))),
          (⟨4, "z", TypeName.auto, ⟨50, 61⟩⟩, none)]
          (.caseOf ⟨65, 100⟩ (.ident ⟨70, 71⟩ "y") [
            (⟨5, "i", TypeName.int, ⟨75, 84⟩⟩, .ident ⟨82, 83⟩ "i"),
            (⟨6, "o", TypeName.object, ⟨84, 96⟩⟩, .ident ⟨94, 95⟩ "o")]),
        ⟨8, 101⟩⟩], ⟨0, 104⟩⟩,
    ⟨7, "A", none, [], ⟨104, 114⟩⟩, ⟨8, "B", none, [], ⟨114, 124⟩⟩]⟩

theorem nesting_owned : ∃ p, parse nestingText = .ok p ∧ p.scopeIds = [0, 1, 3, 4, 2, 5, 6, 7, 8] ∧
    ((build p).value.sites.map fun s => (build p).value.seed.bagOf? (s.2.opener.id s.1)) =
      [some 0, some 1, some 2, some 3, some 4, some 5, some 6, some 7] ∧
    p.scopeIds.Nodup ∧ (∀ id, id ∈ p.scopeIds ↔ id < p.scopeIds.length) ∧
    (∀ s ∈ (build p).value.sites, ∃ i, Owns (build p).value.context (build p).value.seed s.1 s.2 i) := by
  have hp : parse nestingText = .ok nesting := by cbv
  obtain ⟨hnodup, hids, -, howns, -⟩ := parse_scopes_owned hp
  exact ⟨nesting, hp, by decide +kernel, by decide +kernel, hnodup, hids, howns⟩

end ClassTable

end CoolTyping
