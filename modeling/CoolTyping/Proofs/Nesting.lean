import CoolTyping.Proofs.Constraints
import CoolTyping.Proofs.Numbering

/-!
# How bags nest

In a program whose scopes have numbers of their own, the bag that is found for a scope is the one that was
made for it. It lies directly inside the bag of the scope around it, and its entries are those of the names
that the scope introduces, as the sweeps have left them.
-/

namespace CoolTyping

/-! ## Entries -/

theorem Entries.get?_define (es : Entries) (s slot : Slot) (e : Entry) :
    (es.define s e).get? slot = (es.get? slot).or ([(s, e)].lookup slot) := by
  unfold define
  split
  · rename_i hcontains
    by_cases hs : slot = s
    · subst hs
      have hmem : slot ∈ es.toList.map (·.1) := by simpa [contains, slots] using hcontains
      cases hget : es.get? slot with
      | some f => rfl
      | none =>
          obtain ⟨x, hx, rfl⟩ := List.mem_map.mp hmem
          exact absurd (List.lookup_eq_none_iff.mp hget x hx) (by simp)
    · have hne : (slot == s) = false := by simpa using hs
      simp [List.lookup_cons, hne]
  · exact List.lookup_append ..

/-- Of several entries for a slot the first one counts. -/
theorem Entries.get?_defineAll (es : Entries) (xs : List (Slot × Entry)) (slot : Slot) :
    (es.defineAll xs).get? slot = (es.get? slot).or (xs.lookup slot) := by
  induction xs generalizing es with
  | nil => simp [defineAll]
  | cons x xs ih =>
      rw [defineAll, List.foldl_cons, ← defineAll, ih, get?_define, Option.or_assoc,
        ← List.lookup_append, List.singleton_append]

namespace BagTree

variable {t u : BagTree}

theorem EvolvesTo.parent? (h : t.EvolvesTo u) (i : BagId) : u.parent? i = t.parent? i := by
  unfold BagTree.parent?
  rcases pointwise_getElem? h.bags i with ⟨ht, hu⟩ | ⟨a, b, ht, hu, hab⟩
  · rw [ht, hu]
  · simp only [ht, hu, Option.bind_some, hab.parent]

theorem EvolvesTo.classOf (h : t.EvolvesTo u) (i : BagId) : u.classOf i = t.classOf i := by
  unfold BagTree.classOf
  rcases pointwise_getElem? h.bags i with ⟨ht, hu⟩ | ⟨a, b, ht, hu, hab⟩
  · rw [ht, hu]
  · simp only [ht, hu, Option.elim_some, hab.inClass]

/-- The bag `i` was made with the entries `xs`. -/
structure Holds (t : BagTree) (i : BagId) (xs : List (Slot × Entry)) : Prop where
  has : ∀ slot, t.has i slot = true ↔ slot ∈ xs.map (·.1)
  entry : ∀ {slot e}, xs.lookup slot = some e → ∃ f, t.entryAt? i slot = some f ∧ e.EvolvesTo f

theorem Holds.evolvesTo {i : BagId} {xs : List (Slot × Entry)} (h : t.Holds i xs) (hu : t.EvolvesTo u) :
    u.Holds i xs where
  has slot := by rw [hu.has, h.has]
  entry hx := by
    obtain ⟨f, hf, hef⟩ := h.entry hx
    obtain ⟨g, hg, hfg⟩ := hu.entryAt?_eq_some hf
    exact ⟨g, hg, hef.trans hfg⟩

theorem holds_defineAll {i : BagId} {b : Bag} {xs : List (Slot × Entry)} (hb : t.bags[i]? = some b)
    (hxs : b.entries = Entries.empty.defineAll xs) : t.Holds i xs where
  has slot := by
    simp only [BagTree.has, hb, Option.any_some, hxs, Entries.contains_defineAll]
    simp [Entries.contains, Entries.slots, Entries.empty]
  entry {slot e} hx := by
    refine ⟨e, ?_, .refl e⟩
    simp only [entryAt?, hb, Option.bind_some, hxs, Entries.get?_defineAll, hx]
    rfl

/-! ## Bags around a bag -/

/-- Every bag has a larger number than the one around it. -/
def Ordered (t : BagTree) : Prop := ∀ i j, t.parent? i = some j → j < i

/-- Every bag comes behind the one around it and lies in the same class. Those that lie in no other are of
classes. -/
structure Coherent (t : BagTree) : Prop where
  ordered : t.Ordered
  inClass : ∀ {i j}, t.parent? i = some j → t.classOf i = t.classOf j
  ofClass : ∀ {b}, b ∈ t.bags → b.parent = none → b.kind = .ofClass

theorem coherent_empty (concrete : TypeSet) : (empty concrete).Coherent where
  ordered i j hij := by simp [BagTree.parent?, BagTree.empty] at hij
  inClass hij := by simp [BagTree.parent?, BagTree.empty] at hij
  ofClass hb := absurd hb List.not_mem_nil

/-- One bag more. -/
theorem Coherent.append (h : t.Coherent) {b : Bag} (hb : ∀ j ∈ b.parent, j < t.nextId ∧ b.inClass = t.classOf j)
    (hk : b.parent = none → b.kind = .ofClass) : Coherent ⟨t.bags ++ [b], t.concrete⟩ := by
  have hclass : ∀ {i}, i < t.nextId → classOf ⟨t.bags ++ [b], t.concrete⟩ i = t.classOf i := fun hi => by
    rw [classOf, classOf, List.getElem?_append_left hi]
  have hparent : ∀ {i j}, parent? ⟨t.bags ++ [b], t.concrete⟩ i = some j →
      j < i ∧ classOf ⟨t.bags ++ [b], t.concrete⟩ i = classOf ⟨t.bags ++ [b], t.concrete⟩ j := by
    intro i j hij
    obtain ⟨a, ha, hp⟩ := Option.bind_eq_some_iff.mp hij
    by_cases hi : i < t.nextId
    · rw [List.getElem?_append_left hi] at ha
      have hij : t.parent? i = some j := Option.bind_eq_some_iff.mpr ⟨a, ha, hp⟩
      have hji := h.ordered i j hij
      exact ⟨hji, by rw [hclass hi, hclass (Nat.lt_trans hji hi), h.inClass hij]⟩
    · have hlast : t.bags.length ≤ i := Nat.le_of_not_lt hi
      have hget := ha
      rw [List.getElem?_append_right hlast, List.getElem?_singleton] at ha
      split at ha
      · cases ha
        obtain ⟨hj, hin⟩ := hb j hp
        exact ⟨Nat.lt_of_lt_of_le hj hlast, by rw [hclass hj, ← hin, classOf, hget, Option.elim_some]⟩
      · cases ha
  exact {
    ordered := fun i j hij => (hparent hij).1
    inClass := fun hij => (hparent hij).2
    ofClass := fun {a} ha hp => by
      rcases List.mem_append.mp ha with ha | ha
      · exact h.ofClass ha hp
      · obtain rfl := List.mem_singleton.mp ha
        exact hk hp }

theorem Ordered.evolvesTo (h : t.Ordered) (hu : t.EvolvesTo u) : u.Ordered :=
  fun i j hij => h i j (hu.parent? i ▸ hij)

theorem Ordered.enclosingN_eq (h : t.Ordered) {i m n : Nat} (hm : i < m) (hn : i < n) :
    t.enclosingN m i = t.enclosingN n i := by
  induction m generalizing i n with
  | zero => exact absurd hm (Nat.not_lt_zero i)
  | succ m ih =>
      obtain ⟨n, rfl⟩ := Nat.exists_eq_add_one_of_ne_zero (Nat.ne_zero_of_lt hn)
      simp only [enclosingN]
      cases hp : t.parent? i with
      | none => rfl
      | some j =>
          have hj := h i j hp
          exact congrArg (i :: ·) (ih (Nat.lt_of_lt_of_le hj (Nat.le_of_lt_succ hm))
            (Nat.lt_of_lt_of_le hj (Nat.le_of_lt_succ hn)))

theorem Ordered.enclosing_eq (h : t.Ordered) (i : BagId) :
    t.enclosing i = i :: (t.parent? i).elim [] t.enclosing := by
  rw [enclosing, enclosingN]
  cases hp : t.parent? i with
  | none => rfl
  | some j => exact congrArg (i :: ·) (h.enclosingN_eq (h i j hp) (Nat.lt_succ_self j))

/-- A bag that lies in another sees what this one sees, but for what it hides. -/
theorem Ordered.resolve?_eq (h : t.Ordered) (ctx : Context) {outer inner : BagId} (slot : Slot)
    (hp : t.parent? inner = some outer) (hc : t.classOf inner = t.classOf outer) :
    t.resolve? ctx inner slot = if t.has inner slot then some inner else t.resolve? ctx outer slot := by
  unfold resolve?
  rw [h.enclosing_eq inner, hp, Option.elim_some, List.find?_cons, hc]
  cases t.has inner slot <;> rfl

/-- A bag that lies in no other sees what it holds, and what the ancestors of its class hold. -/
theorem Ordered.resolve?_root (h : t.Ordered) (ctx : Context) {bag : BagId} (slot : Slot)
    (hp : t.parent? bag = none) : t.resolve? ctx bag slot = if t.has bag slot then some bag else
      ((ctx.ancestors (t.classOf bag)).tail.filterMap t.classBag?).find? (t.has · slot) := by
  unfold resolve?
  rw [h.enclosing_eq bag, hp, Option.elim_none, List.find?_cons]
  cases t.has bag slot <;> rfl

/-! ## Finding a bag by its scope -/

/-- No two bags are of the same scope. -/
def DistinctOwners (t : BagTree) : Prop := (t.bags.map (·.owner)).Nodup

theorem DistinctOwners.eq_of_owner (h : t.DistinctOwners) {i j : BagId} {a b : Bag}
    (hi : t.bags[i]? = some a) (hj : t.bags[j]? = some b) (heq : a.owner = b.owner) : i = j := by
  obtain ⟨hilt, hi⟩ := List.getElem?_eq_some_iff.mp hi
  obtain ⟨hjlt, hj⟩ := List.getElem?_eq_some_iff.mp hj
  have hilt' : i < (t.bags.map (·.owner)).length := by simpa using hilt
  have hjlt' : j < (t.bags.map (·.owner)).length := by simpa using hjlt
  have howner : (t.bags.map (·.owner))[i] = (t.bags.map (·.owner))[j] := by
    rw [List.getElem_map, List.getElem_map, hi, hj, heq]
  exact (List.Nodup.getElem_inj_iff h).mp howner

theorem DistinctOwners.bagOf?_eq (h : t.DistinctOwners) {i : BagId} {b : Bag} (hi : t.bags[i]? = some b) :
    t.bagOf? b.owner = some i := by
  obtain ⟨j, hj⟩ := Option.isSome_iff_exists.mp
    (isSome_lastIdx? (p := (·.owner == b.owner)) (List.mem_of_getElem? hi) (by simp))
  obtain ⟨a, ha, howner⟩ := lastIdx?_eq_some hj
  rw [bagOf?, hj, h.eq_of_owner ha hi (by simpa using howner)]

end BagTree

/-! ## Places of bags -/

namespace Seed

open Constraint BagTree

/-- The scope that `o` opens has the bag `inner`, which lies in `outer`. -/
structure Placed (ctx : Context) (T : BagTree) (c : ClassDecl) (o : Opener) (outer : Option BagId)
    (inner : BagId) : Prop where
  found : T.bagOf? (o.id c) = some inner
  parent : T.parent? inner = outer
  inClass : T.classOf inner = c.name
  holds : T.Holds inner (o.entries ctx c)

mutual

/-- Every scope inside the expression, which stands in `bag`, has its bag in that of the scope around it. -/
def Nested (ctx : Context) (T : BagTree) (c : ClassDecl) (bag : BagId) : Expr → Prop
  | .assign _ _ value => Nested ctx T c bag value
  | .dispatch _ receiver _ args => NestedOpt ctx T c bag receiver ∧ NestedAll ctx T c bag args
  | .staticDispatch _ receiver _ _ args => Nested ctx T c bag receiver ∧ NestedAll ctx T c bag args
  | .cond _ test thenBranch elseBranch =>
    Nested ctx T c bag test ∧ Nested ctx T c bag thenBranch ∧ Nested ctx T c bag elseBranch
  | .loop _ test body => Nested ctx T c bag test ∧ Nested ctx T c bag body
  | .letIn _ bindings body =>
    NestedLets ctx T c bag bindings ∧ Nested ctx T c (letScope T bag bindings) body
  | .caseOf _ scrutinee arms => Nested ctx T c bag scrutinee ∧ NestedArms ctx T c bag arms
  | .block _ body => NestedAll ctx T c bag body
  | .binary _ _ left right => Nested ctx T c bag left ∧ Nested ctx T c bag right
  | .unary _ _ operand => Nested ctx T c bag operand
  | .paren _ inner => Nested ctx T c bag inner
  | .new .. | .ident .. | .int .. | .str .. | .bool .. => True
termination_by structural e => e

def NestedOpt (ctx : Context) (T : BagTree) (c : ClassDecl) (bag : BagId) : Option Expr → Prop
  | some e => Nested ctx T c bag e
  | none => True
termination_by structural e => e

def NestedAll (ctx : Context) (T : BagTree) (c : ClassDecl) (bag : BagId) : List Expr → Prop
  | [] => True
  | e :: es => Nested ctx T c bag e ∧ NestedAll ctx T c bag es
termination_by structural es => es

def NestedLets (ctx : Context) (T : BagTree) (c : ClassDecl) (bag : BagId) :
    List (Binder × Option Expr) → Prop
  | [] => True
  | (b, init) :: bindings =>
    NestedOpt ctx T c bag init ∧ Placed ctx T c (.ofBinder b) (some bag) (scopeOf T bag b) ∧
      NestedLets ctx T c (scopeOf T bag b) bindings
termination_by structural bindings => bindings

def NestedArms (ctx : Context) (T : BagTree) (c : ClassDecl) (bag : BagId) :
    List (Binder × Expr) → Prop
  | [] => True
  | (b, body) :: arms =>
    Placed ctx T c (.ofBinder b) (some bag) (scopeOf T bag b) ∧
      Nested ctx T c (scopeOf T bag b) body ∧ NestedArms ctx T c bag arms
termination_by structural arms => arms

end

/-- The same for a feature of the class with the bag `bag`. -/
def NestedFeature (ctx : Context) (T : BagTree) (c : ClassDecl) (bag : BagId) : Feature → Prop
  | .attr a => NestedOpt ctx T c bag a.init
  | .method m => ∃ inner, Placed ctx T c (.ofMethod m) (some bag) inner ∧ Nested ctx T c inner m.body

/-- The same for a class. -/
structure NestedClass (ctx : Context) (T : BagTree) (c : ClassDecl) (bag : BagId) : Prop where
  placed : Placed ctx T c .ofClass none bag
  features : ∀ f ∈ c.features, NestedFeature ctx T c bag f

/-- The bag is there, and lies in the class. -/
def InClass (t : BagTree) (bag : BagId) (name : TypeName) : Prop :=
  ∃ b, t.bags[bag]? = some b ∧ b.inClass = name

variable {ctx : Context} {c : ClassDecl} {t U T : BagTree} {bag : BagId}

theorem InClass.classOf_eq {name : TypeName} (h : InClass t bag name) : t.classOf bag = name := by
  obtain ⟨b, hb, rfl⟩ := h
  simp [classOf, hb]

theorem InClass.lt {name : TypeName} (h : InClass t bag name) : bag < t.nextId := by
  obtain ⟨b, hb, _⟩ := h
  exact (List.getElem?_eq_some_iff.mp hb).1

theorem getElem?_of_isPrefix {α : Type} {as bs : List α} (h : as <+: bs) {i : Nat} {a : α}
    (ha : as[i]? = some a) : bs[i]? = some a := by
  obtain ⟨rest, rfl⟩ := h
  rw [List.getElem?_append_left (List.getElem?_eq_some_iff.mp ha).1, ha]

theorem InClass.mono {name : TypeName} (h : InClass t bag name) (hu : t.bags <+: U.bags) :
    InClass U bag name := by
  obtain ⟨b, hb, hname⟩ := h
  exact ⟨b, getElem?_of_isPrefix hu hb, hname⟩

/-! ## Building the first tree -/

/-- `u` is `t` with more bags, each in an earlier one of its class, and `P` holds where `u` becomes the tree
`U`. -/
structure Extends (U t u : BagTree) (P : Prop) : Prop where
  isPrefix : t.bags <+: u.bags
  coherent : t.Coherent → u.Coherent
  placed : u.bags <+: U.bags → P

namespace Extends

variable {u v : BagTree} {P Q : Prop}

theorem refl (U t : BagTree) : Extends U t t True := ⟨List.prefix_refl _, id, fun _ => trivial⟩

theorem trans (h : Extends U t u P) (h' : Extends U u v Q) : Extends U t v (P ∧ Q) where
  isPrefix := h.isPrefix.trans h'.isPrefix
  coherent ht := h'.coherent (h.coherent ht)
  placed hv := ⟨h.placed (h'.isPrefix.trans hv), h'.placed hv⟩

theorem imp (h : Extends U t u P) (hPQ : P → Q) : Extends U t u Q :=
  ⟨h.isPrefix, h.coherent, fun hu => hPQ (h.placed hu)⟩

/-- One bag more. -/
theorem append {b : Bag} (hb : ∀ j ∈ b.parent, j < t.nextId ∧ b.inClass = t.classOf j)
    (hk : b.parent = none → b.kind = .ofClass) (hP : U.bags[t.nextId]? = some b → P) :
    Extends U t ⟨t.bags ++ [b], t.concrete⟩ P where
  isPrefix := List.prefix_append _ _
  coherent ht := ht.append hb hk
  placed hu := hP (getElem?_of_isPrefix hu (by simp [nextId]))

theorem foldl {α : Type} {f : BagTree → α → BagTree} {P : α → Prop} {as : List α}
    (hf : ∀ a ∈ as, ∀ u : BagTree, t.bags <+: u.bags → Extends U u (f u a) (P a)) :
    Extends U t (as.foldl f t) (∀ a ∈ as, P a) := by
  induction as generalizing t with
  | nil => exact (refl U t).imp fun _ _ h => absurd h List.not_mem_nil
  | cons a as ih =>
      have hfirst := hf a List.mem_cons_self t (List.prefix_refl _)
      refine (hfirst.trans (ih fun b hb u hu => ?_)).imp fun h => List.forall_mem_cons.mpr h
      exact hf b (List.mem_cons_of_mem _ hb) u (hfirst.isPrefix.trans hu)

end Extends

theorem binder_eq (ctx : Context) (c : ClassDecl) (bag : BagId) (kind : BagKind) (b : Binder)
    (t : BagTree) : binder ctx c.name bag kind b t = ⟨t.bags ++ [⟨b.id, kind, t.classOf bag, some bag,
      Entries.empty.defineAll ((Opener.ofBinder b).entries ctx c)⟩], t.concrete⟩ :=
  BagTree.foldl_define t.bags ⟨b.id, kind, t.classOf bag, some bag, Entries.empty⟩ t.concrete [b]
    (fun b => .var b.name) (fun b => entry ctx c.name b.ty b.span)

/-- The bag that a binder opens lies in the class of the one around it. -/
theorem binder_inClass {kind : BagKind} (b : Binder) (hbag : InClass t bag c.name) :
    InClass (binder ctx c.name bag kind b t) t.nextId c.name := by
  rw [binder_eq]
  exact ⟨_, List.getElem?_concat_length, hbag.classOf_eq⟩

theorem placed_of_getElem? (hU : U.DistinctOwners) (hT : U.EvolvesTo T) {o : Opener}
    {outer : Option BagId} {inner : BagId} {b : Bag}
    (hb : U.bags[inner]? = some b) (howner : b.owner = o.id c) (hparent : b.parent = outer)
    (hclass : b.inClass = c.name) (hentries : b.entries = Entries.empty.defineAll (o.entries ctx c)) :
    Placed ctx T c o outer inner where
  found := by rw [hT.bagOf?, ← howner, hU.bagOf?_eq hb]
  parent := by rw [hT.parent?, BagTree.parent?, hb, Option.bind_some, hparent]
  inClass := by rw [hT.classOf, BagTree.classOf, hb, Option.elim_some, hclass]
  holds := (holds_defineAll hb hentries).evolvesTo hT

theorem binder_extends (hU : U.DistinctOwners) (hT : U.EvolvesTo T) {kind : BagKind} (b : Binder)
    (hbag : InClass t bag c.name) : Extends U t (binder ctx c.name bag kind b t)
      (Placed ctx T c (.ofBinder b) (some bag) (scopeOf T bag b) ∧ scopeOf T bag b = t.nextId) := by
  rw [binder_eq]
  refine .append (fun j hj => Option.some.inj hj ▸ ⟨hbag.lt, rfl⟩) (by simp) fun hb => ?_
  have hplaced : Placed ctx T c (.ofBinder b) (some bag) t.nextId :=
    placed_of_getElem? hU hT hb rfl rfl hbag.classOf_eq rfl
  have hscope : scopeOf T bag b = t.nextId := by
    rw [scopeOf, show T.bagOf? b.id = some t.nextId from hplaced.found, Option.getD_some]
  exact ⟨hscope.symm ▸ hplaced, hscope⟩

mutual

theorem expr_extends (hU : U.DistinctOwners) (hT : U.EvolvesTo T) : (e : Expr) → {bag : BagId} →
    {t : BagTree} → InClass t bag c.name → Extends U t (expr ctx c.name bag e t) (Nested ctx T c bag e)
  | .assign _ _ value, _, _, hbag => expr_extends hU hT value hbag
  | .dispatch _ receiver _ args, _, _, hbag =>
      have hreceiver := optExpr_extends hU hT receiver hbag
      hreceiver.trans (exprs_extends hU hT args (hbag.mono hreceiver.isPrefix))
  | .staticDispatch _ receiver _ _ args, _, _, hbag =>
      have hreceiver := expr_extends hU hT receiver hbag
      hreceiver.trans (exprs_extends hU hT args (hbag.mono hreceiver.isPrefix))
  | .cond _ test thenBranch elseBranch, _, _, hbag =>
      have htest := expr_extends hU hT test hbag
      have hthen := expr_extends hU hT thenBranch (hbag.mono htest.isPrefix)
      htest.trans (hthen.trans (expr_extends hU hT elseBranch
        (hbag.mono (htest.isPrefix.trans hthen.isPrefix))))
  | .loop _ test body, _, _, hbag =>
      have htest := expr_extends hU hT test hbag
      htest.trans (expr_extends hU hT body (hbag.mono htest.isPrefix))
  | .letIn _ bindings body, _, _, hbag =>
      have hlets := lets_extends hU hT bindings hbag
      (hlets.1.trans (expr_extends hU hT body hlets.2)).imp fun h => ⟨h.1.1, h.1.2 ▸ h.2⟩
  | .caseOf _ scrutinee arms, _, _, hbag =>
      have hscrutinee := expr_extends hU hT scrutinee hbag
      hscrutinee.trans (cases_extends hU hT arms (hbag.mono hscrutinee.isPrefix))
  | .block _ body, _, _, hbag => exprs_extends hU hT body hbag
  | .binary _ _ left right, _, _, hbag =>
      have hleft := expr_extends hU hT left hbag
      hleft.trans (expr_extends hU hT right (hbag.mono hleft.isPrefix))
  | .unary _ _ operand, _, _, hbag => expr_extends hU hT operand hbag
  | .paren _ inner, _, _, hbag => expr_extends hU hT inner hbag
  | .new .., _, t, _ | .ident .., _, t, _ | .int .., _, t, _ | .str .., _, t, _ | .bool .., _, t, _ =>
      .refl U t

theorem optExpr_extends (hU : U.DistinctOwners) (hT : U.EvolvesTo T) : (e : Option Expr) → {bag : BagId} →
    {t : BagTree} → InClass t bag c.name → Extends U t (optExpr ctx c.name bag e t) (NestedOpt ctx T c bag e)
  | some e, _, _, hbag => expr_extends hU hT e hbag
  | none, _, t, _ => .refl U t

theorem exprs_extends (hU : U.DistinctOwners) (hT : U.EvolvesTo T) : (es : List Expr) → {bag : BagId} →
    {t : BagTree} → InClass t bag c.name → Extends U t (exprs ctx c.name bag es t) (NestedAll ctx T c bag es)
  | [], _, t, _ => .refl U t
  | e :: es, _, _, hbag =>
      have he := expr_extends hU hT e hbag
      he.trans (exprs_extends hU hT es (hbag.mono he.isPrefix))

/-- The last bag is the one that the body of the `let` stands in. -/
theorem lets_extends (hU : U.DistinctOwners) (hT : U.EvolvesTo T) :
    (bindings : List (Binder × Option Expr)) → {bag : BagId} → {t : BagTree} → InClass t bag c.name →
      Extends U t (lets ctx c.name bag bindings t).2
        (NestedLets ctx T c bag bindings ∧ (lets ctx c.name bag bindings t).1 = letScope T bag bindings) ∧
      InClass (lets ctx c.name bag bindings t).2 (lets ctx c.name bag bindings t).1 c.name
  | [], _, t, hbag => ⟨(Extends.refl U t).imp fun h => ⟨h, rfl⟩, hbag⟩
  | (b, init) :: bindings, _, _, hbag =>
      have hinit := optExpr_extends hU hT init hbag
      have hinner := hbag.mono hinit.isPrefix
      have hrest := lets_extends hU hT bindings (binder_inClass b hinner)
      ⟨(hinit.trans ((binder_extends hU hT b hinner).trans hrest.1)).imp fun ⟨h, ⟨hb, hs⟩, hl, hr⟩ =>
          ⟨⟨h, hb, hs.symm ▸ hl⟩, by rw [letScope, List.foldl_cons, hs]; exact hr⟩,
        hrest.2⟩

theorem cases_extends (hU : U.DistinctOwners) (hT : U.EvolvesTo T) : (arms : List (Binder × Expr)) →
    {bag : BagId} → {t : BagTree} → InClass t bag c.name →
      Extends U t (cases ctx c.name bag arms t) (NestedArms ctx T c bag arms)
  | [], _, t, _ => .refl U t
  | (b, body) :: arms, _, _, hbag =>
      have hb := binder_extends hU hT b hbag
      have hbody := expr_extends hU hT body (binder_inClass b hbag)
      have hrest := cases_extends hU hT arms (hbag.mono (hb.isPrefix.trans hbody.isPrefix))
      (hb.trans (hbody.trans hrest)).imp fun h => ⟨h.1.1, h.1.2.symm ▸ h.2.1, h.2.2⟩

end

theorem feature_extends (hU : U.DistinctOwners) (hT : U.EvolvesTo T) (hbag : InClass t bag c.name)
    (f : Feature) : Extends U t (feature ctx c.name bag t f) (NestedFeature ctx T c bag f) := by
  cases f with
  | attr a => exact optExpr_extends hU hT a.init hbag
  | method m =>
      have hparams := BagTree.foldl_define t.bags
        ⟨m.id, .ofMethod m.name, t.classOf bag, some bag, Entries.empty⟩ t.concrete m.params
        (fun p => .var p.name) (fun p => entry ctx c.name p.ty p.span)
      simp only [feature, addChild, nextId, hparams]
      have hmethod : Extends U t ⟨t.bags ++ [⟨m.id, .ofMethod m.name, t.classOf bag, some bag,
            Entries.empty.defineAll ((Opener.ofMethod m).entries ctx c)⟩], t.concrete⟩
          (Placed ctx T c (.ofMethod m) (some bag) t.nextId) :=
        .append (fun j hj => Option.some.inj hj ▸ ⟨hbag.lt, rfl⟩) (by simp) fun hb =>
          placed_of_getElem? hU hT hb rfl rfl hbag.classOf_eq rfl
      exact (hmethod.trans (expr_extends hU hT m.body
        ⟨_, List.getElem?_concat_length, hbag.classOf_eq⟩)).imp fun h => ⟨_, h⟩

theorem classDecl_extends (hU : U.DistinctOwners) (hT : U.EvolvesTo T) (t : BagTree) (c : ClassDecl) :
    Extends U t (classDecl ctx t c) (∃ bag, NestedClass ctx T c bag) := by
  rw [classDecl_eq]
  have hclass : Extends U t ⟨t.bags ++ [classBag ctx c], t.concrete⟩
      (Placed ctx T c .ofClass none t.nextId) :=
    .append (by simp [classBag]) (fun _ => rfl) fun hb => placed_of_getElem? hU hT hb rfl rfl rfl rfl
  refine (hclass.trans (.foldl fun f _ u hu => feature_extends hU hT ?_ f)).imp fun h => ⟨_, h.1, h.2⟩
  exact InClass.mono ⟨classBag ctx c, List.getElem?_concat_length, rfl⟩ hu

end Seed

namespace ClassTable

open Seed

variable {t : ClassTable} {T : BagTree} {c : ClassDecl} {bag : BagId}

theorem seed_extends (hU : t.seed.DistinctOwners) (hT : t.seed.EvolvesTo T) :
    Extends t.seed (BagTree.empty (TypeSet.ofList t.context.concreteTypes)) t.seed
      (∀ c ∈ t.classes, ∃ bag, NestedClass t.context T c bag) :=
  .foldl fun c _ u _ => classDecl_extends hU hT u c

theorem seed_coherent (hU : t.seed.DistinctOwners) : t.seed.Coherent :=
  (seed_extends hU (.refl _)).coherent (BagTree.coherent_empty _)

/-- In the first tree every bag has a larger number than the one around it. -/
theorem seed_ordered (hU : t.seed.DistinctOwners) : t.seed.Ordered := (seed_coherent hU).ordered

/-- However far the sweeps have come, the bags of a class nest as its scopes do. -/
theorem nestedClass_seed (hU : t.seed.DistinctOwners) (hT : t.seed.EvolvesTo T) (hc : c ∈ t.classes) :
    ∃ bag, NestedClass t.context T c bag :=
  (seed_extends hU hT).placed (List.prefix_refl _) c hc

theorem map_id_classOpeners (c : ClassDecl) : (classOpeners c).map (Opener.id c) = c.scopeIds := by
  have hfeature : ∀ f, (featureOpeners f).map (Opener.id c) = f.scopeIds := by
    intro f
    cases f with
    | attr a =>
        cases hi : a.init <;> simp [featureOpeners, openers, Feature.scopeIds, Expr.scopeIds, Opener.id, hi]
    | method m => simp [featureOpeners, openers, Feature.scopeIds, Expr.scopeIds, Opener.id]
  simp [classOpeners, ClassDecl.scopeIds, List.map_flatMap, hfeature, Opener.id]

/-- The first tree has one bag for every scope. -/
theorem seed_owners (t : ClassTable) :
    (t.seed.bags.map (·.owner)).Perm (t.classes.flatMap ClassDecl.scopeIds) := by
  obtain ⟨_, added, order, hbags, hperm, hopens⟩ := t.seed_adds
  have howners : order.map (fun x => x.2.id x.1) = added.map (·.owner) :=
    forall₂_map_eq hopens fun _ _ h => h.owner.symm
  have hids : (t.classes.flatMap fun c => (classOpeners c).map (c, ·)).map (fun x => x.2.id x.1) =
      t.classes.flatMap ClassDecl.scopeIds := by
    simp only [List.map_flatMap, List.map_map]
    exact congrArg (t.classes.flatMap ·) (funext map_id_classOpeners)
  rw [hbags, show (BagTree.empty _).bags = [] from rfl, List.nil_append, ← howners, ← hids]
  exact hperm.map _

/-- The scopes of a program that was read from a text have bags of their own. -/
theorem seed_distinctOwners {source : String} {p : Program} (hp : parse source = .ok p)
    (hc : t.classes = p.classes) : t.seed.DistinctOwners := by
  refine t.seed_owners.nodup_iff.mpr ?_
  rw [hc]
  exact (parse_scopeIds hp).nodup_iff.mpr List.nodup_range

theorem WellFormed.classBag?_eq (h : t.WellFormed) (hU : t.seed.DistinctOwners)
    (hT : t.seed.EvolvesTo T) (hc : c ∈ t.classes) (hn : NestedClass t.context T c bag) :
    T.classBag? c.name = some bag := by
  obtain ⟨bag', b, hbag', hget, hopens⟩ := h.classBag?_opens hc
  have hfound : T.bagOf? c.id = some bag := hn.placed.found
  rw [hT.bagOf?, ← show b.owner = c.id from hopens.owner, hU.bagOf?_eq hget] at hfound
  rw [hT.classBag?, hbag', hfound]

end ClassTable

end CoolTyping
