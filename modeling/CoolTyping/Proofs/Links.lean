import CoolTyping.Proofs.Preorder

/-!
# How bags are linked

A tree of bags can be kept with links in both directions: every bag knows the one around it and those
directly inside it. Whatever operations build the tree, both directions agree and lead from larger to smaller
numbers. So every walk outwards ends, and a loop with a stack lists all bags in the order of
`BagTree.preorder`.
-/

namespace CoolTyping.BagTree

variable {t u : BagTree} {i j n : Nat}

/-! ## Building a tree -/

/-- A step in building a tree. -/
inductive Operation where
  | addClass (owner : NodeId) (name : TypeName)
  | addChild (parent : BagId) (owner : NodeId) (kind : BagKind)
  | define (bag : BagId) (slot : Slot) (e : Entry)

/-- A tree with the bags directly inside each bag, and those that lie in no other. -/
structure Linked where
  tree : BagTree
  roots : List BagId
  inside : List (List BagId)

namespace Linked

def empty (concrete : TypeSet) : Linked := ⟨.empty concrete, [], []⟩

/-- The bags directly inside a bag. -/
def children (a : Linked) (i : BagId) : List BagId := (a.inside[i]?).getD []

/-- The tree after an operation, which fails if it needs a bag that is not there. -/
def perform (a : Linked) : Operation → Option Linked
  | .addClass owner name =>
    some ⟨a.tree.addClass owner name, a.roots ++ [a.tree.nextId], a.inside ++ [[]]⟩
  | .addChild parent owner kind =>
    if parent < a.tree.nextId then
      some ⟨a.tree.addChild parent owner kind, a.roots,
        a.inside.modify parent (· ++ [a.tree.nextId]) ++ [[]]⟩
    else none
  | .define bag slot e =>
    if bag < a.tree.nextId then some { a with tree := a.tree.define bag slot e } else none

def run (a : Linked) (ops : List Operation) : Option Linked := ops.foldlM perform a

end Linked

/-- The numbers of the bags that operations add for classes, where `next` is the number of the next bag. -/
def classBags (next : BagId) : List Operation → List BagId
  | [] => []
  | .addClass .. :: ops => next :: classBags (next + 1) ops
  | .addChild .. :: ops => classBags (next + 1) ops
  | .define .. :: ops => classBags next ops

/-! ## What every operation keeps -/

theorem indices_append (t : BagTree) (b : Bag) (p : Bag → Bool) :
    indices ⟨t.bags ++ [b], t.concrete⟩ p = t.indices p ++ if p b then [t.nextId] else [] := by
  simp only [indices, nextId, List.zipIdx_append, List.filterMap_append]
  cases hb : p b <;> simp [hb]

/-- Bags are found by where they lie, whatever their entries are. -/
theorem indices_of_parents (h : t.bags.map (·.parent) = u.bags.map (·.parent)) (q : Option BagId → Bool) :
    t.indices (fun b => q b.parent) = u.indices (fun b => q b.parent) := by
  have hindices : ∀ v : BagTree, v.indices (fun b => q b.parent) =
      (v.bags.map (·.parent)).zipIdx.filterMap fun x => if q x.1 then some x.2 else none := by
    intro v
    rw [List.zipIdx_map, List.filterMap_map]
    rfl
  rw [hindices, hindices, h]

/-- A new entry changes nothing else about a bag. -/
theorem map_define {β : Type} {f : Bag → β} (hf : ∀ b es, f { b with entries := es } = f b) (t : BagTree)
    (bag : BagId) (slot : Slot) (e : Entry) : (t.define bag slot e).bags.map f = t.bags.map f := by
  refine List.ext_getElem? fun i => ?_
  simp only [define, modify, List.getElem?_map, List.getElem?_modify]
  cases t.bags[i]? with
  | none => rfl
  | some b => by_cases hbag : bag = i <;> simp [hbag, hf]

theorem parent?_eq (t : BagTree) (i : BagId) : t.parent? i = ((t.bags.map (·.parent))[i]?).join := by
  rw [parent?, List.getElem?_map]
  cases t.bags[i]? <;> rfl

theorem classOf_eq (t : BagTree) (i : BagId) :
    t.classOf i = ((t.bags.map (·.inClass))[i]?).getD TypeName.object := by
  rw [classOf, List.getElem?_map]
  cases t.bags[i]? <;> rfl

theorem Coherent.define (h : t.Coherent) (bag : BagId) (slot : Slot) (e : Entry) :
    (t.define bag slot e).Coherent := by
  have hparent : ∀ i, (t.define bag slot e).parent? i = t.parent? i := fun i => by
    rw [parent?_eq, parent?_eq, map_define fun _ _ => rfl]
  have hclass : ∀ i, (t.define bag slot e).classOf i = t.classOf i := fun i => by
    rw [classOf_eq, classOf_eq, map_define fun _ _ => rfl]
  refine ⟨fun i j hij => h.ordered i j (hparent i ▸ hij), fun {i j} hij => ?_, fun {b} hb hp => ?_⟩
  · rw [hclass, hclass, h.inClass (hparent i ▸ hij)]
  · have hmem := List.mem_map_of_mem (f := fun b => (b.parent, b.kind)) hb
    rw [map_define fun _ _ => rfl] at hmem
    obtain ⟨a, ha, hab⟩ := List.mem_map.mp hmem
    obtain ⟨hparent, hkind⟩ := Prod.mk.inj hab
    exact hkind ▸ h.ofClass ha (hparent.trans hp)

namespace Linked

variable {a a' : Linked} {ops : List Operation}

/-- The links inwards are those outwards, turned round. -/
structure Sound (a : Linked) : Prop where
  coherent : a.tree.Coherent
  length_inside : a.inside.length = a.tree.bags.length
  roots : a.roots = a.tree.roots
  children : ∀ i, a.children i = a.tree.children i

theorem sound_empty (concrete : TypeSet) : (empty concrete).Sound where
  coherent := coherent_empty concrete
  length_inside := rfl
  roots := rfl
  children _ := rfl

/-- The list of a new bag is empty. -/
theorem getD_append_nil (inside : List (List BagId)) (i : BagId) :
    ((inside ++ [[]])[i]?).getD [] = (inside[i]?).getD [] := by
  by_cases hi : i < inside.length
  · rw [List.getElem?_append_left hi]
  · rw [List.getElem?_append_right (Nat.le_of_not_lt hi), List.getElem?_eq_none (Nat.le_of_not_lt hi),
      List.getElem?_singleton]
    split <;> rfl

theorem Sound.addClass (h : a.Sound) (owner : NodeId) (name : TypeName) :
    Sound ⟨a.tree.addClass owner name, a.roots ++ [a.tree.nextId], a.inside ++ [[]]⟩ where
  coherent := h.coherent.append (by simp) fun _ => rfl
  length_inside := by simp [BagTree.addClass, h.length_inside]
  roots := by
    refine (congrArg (· ++ [a.tree.nextId]) h.roots).trans ?_
    exact (indices_append a.tree ⟨owner, .ofClass, name, none, Entries.empty⟩ (·.parent.isNone)).symm
  children i := by
    refine (getD_append_nil a.inside i).trans ((h.children i).trans ?_)
    have happend := indices_append a.tree ⟨owner, .ofClass, name, none, Entries.empty⟩ (·.parent == some i)
    exact (List.append_nil _).symm.trans happend.symm

theorem Sound.addChild (h : a.Sound) {parent : BagId} (hparent : parent < a.tree.nextId) (owner : NodeId)
    (kind : BagKind) :
    Sound ⟨a.tree.addChild parent owner kind, a.roots,
      a.inside.modify parent (· ++ [a.tree.nextId]) ++ [[]]⟩ where
  coherent := h.coherent.append (by simpa using hparent) (by simp)
  length_inside := by simp [BagTree.addChild, h.length_inside]
  roots := by
    refine h.roots.trans (.trans ?_ (indices_append a.tree _ _).symm)
    exact (List.append_nil _).symm
  children i := by
    have hi := h.children i
    refine (getD_append_nil _ i).trans (.trans ?_ (indices_append a.tree _ _).symm)
    change _ = a.tree.children i ++ _
    rw [← hi, Linked.children, List.getElem?_modify]
    by_cases hip : parent = i
    · subst hip
      have hlength : parent < a.inside.length := h.length_inside ▸ hparent
      simp [hlength]
    · cases hget : a.inside[i]? <;> simp [hip]

theorem Sound.define (h : a.Sound) (bag : BagId) (slot : Slot) (e : Entry) :
    Sound { a with tree := a.tree.define bag slot e } := by
  have hparents := map_define (f := (·.parent)) (fun _ _ => rfl) a.tree bag slot e
  exact {
    coherent := h.coherent.define bag slot e
    length_inside := by
      have hlength := congrArg List.length hparents
      rw [List.length_map, List.length_map] at hlength
      exact h.length_inside.trans hlength.symm
    roots := h.roots.trans (indices_of_parents hparents (·.isNone)).symm
    children := fun i => (h.children i).trans (indices_of_parents hparents (· == some i)).symm }

theorem Sound.perform {op : Operation} (h : a.Sound) (hop : a.perform op = some a') : a'.Sound := by
  cases op with
  | addClass owner name =>
      cases hop
      exact h.addClass owner name
  | addChild parent owner kind =>
      simp only [Linked.perform] at hop
      split at hop
      · cases hop
        exact h.addChild ‹_› owner kind
      · cases hop
  | define bag slot e =>
      simp only [Linked.perform] at hop
      split at hop
      · cases hop
        exact h.define bag slot e
      · cases hop

theorem Sound.run (h : a.Sound) (hrun : a.run ops = some a') : a'.Sound := by
  induction ops generalizing a with
  | nil => cases hrun; exact h
  | cons op ops ih =>
      rw [Linked.run, List.foldlM_cons] at hrun
      obtain ⟨b, hb, hrun⟩ := Option.bind_eq_some_iff.mp hrun
      exact ih (h.perform hb) hrun

/-- The roots are the bags of the classes, in the order in which they were added. -/
theorem roots_run (hrun : a.run ops = some a') : a'.roots = a.roots ++ classBags a.tree.nextId ops := by
  induction ops generalizing a with
  | nil => cases hrun; exact (List.append_nil _).symm
  | cons op ops ih =>
      rw [Linked.run, List.foldlM_cons] at hrun
      obtain ⟨b, hb, hrun⟩ := Option.bind_eq_some_iff.mp hrun
      rw [ih hrun]
      cases op with
      | addClass owner name =>
          cases hb
          simp [BagTree.addClass, nextId, classBags]
      | addChild parent owner kind =>
          simp only [Linked.perform] at hb
          split at hb
          · cases hb
            simp [BagTree.addChild, nextId, classBags]
          · cases hb
      | define bag slot e =>
          simp only [Linked.perform] at hb
          split at hb
          · cases hb
            simp [BagTree.define, modify, nextId, classBags]
          · cases hb

end Linked

/-! ## Walks outwards -/

theorem Ordered.depth_root (h : t.Ordered) (hp : t.parent? i = none) : t.depth i = 0 := by
  rw [depth, h.enclosing_eq, hp]
  rfl

theorem Ordered.depth_inner (h : t.Ordered) (hp : t.parent? i = some j) : t.depth i = t.depth j + 1 := by
  rw [depth, h.enclosing_eq i, hp, Option.elim_some, List.length_cons, depth, h.enclosing_eq j]
  rfl

theorem Ordered.depth_le (h : t.Ordered) (i : BagId) : t.depth i ≤ i := by
  induction i using Nat.strongRecOn with
  | _ i ih =>
      cases hp : t.parent? i with
      | none => exact h.depth_root hp ▸ Nat.zero_le i
      | some j => exact h.depth_inner hp ▸ Nat.lt_of_le_of_lt (ih j (h i j hp)) (h i j hp)

/-! ## Bags below a bag -/

/-- The bag `i` and all those inside it. -/
def subtree (t : BagTree) (i : BagId) : List BagId := t.subtreeN t.bags.length i

theorem lt_of_mem_children (h : i ∈ t.children j) : i < t.bags.length := by
  obtain ⟨b, hb, _⟩ := mem_indices.mp h
  exact (List.getElem?_eq_some_iff.mp hb).1

/-- Numbers grow on the way inwards, which bounds the depth. -/
theorem Ordered.subtreeN_eq (h : t.Ordered) {m : Nat} (hi : i < t.bags.length)
    (hm : t.bags.length ≤ m + i) (hn : t.bags.length ≤ n + i) : t.subtreeN m i = t.subtreeN n i := by
  induction m generalizing i n with
  | zero => omega
  | succ m ih =>
      obtain ⟨n, rfl⟩ : ∃ k, n = k + 1 := ⟨n - 1, by omega⟩
      refine congrArg (i :: ·) (List.flatMap_congr fun k hk => ?_)
      have hik : i < k := h k i (mem_children.mp hk)
      exact ih (lt_of_mem_children hk) (by omega) (by omega)

theorem Ordered.subtree_eq (h : t.Ordered) (hi : i < t.bags.length) :
    t.subtree i = i :: (t.children i).flatMap t.subtree := by
  obtain ⟨n, hn⟩ : ∃ n, t.bags.length = n + 1 := ⟨t.bags.length - 1, by omega⟩
  rw [subtree, hn, subtreeN]
  refine congrArg (i :: ·) (List.flatMap_congr fun k hk => ?_)
  have hik : i < k := h k i (mem_children.mp hk)
  exact h.subtreeN_eq (lt_of_mem_children hk) (by omega) (by omega)

theorem Ordered.mem_subtree (h : t.Ordered) (hi : i < t.bags.length) :
    j ∈ t.subtree i ↔ j < t.bags.length ∧ i ∈ t.enclosing j := by
  constructor
  · intro hj
    refine ⟨?_, h.mem_enclosing_of_mem_subtreeN hj⟩
    obtain ⟨n, hn⟩ : ∃ n, t.bags.length = n + 1 := ⟨t.bags.length - 1, by omega⟩
    rw [subtree, hn] at hj
    clear hn
    induction n generalizing i with
    | zero =>
        rcases List.mem_cons.mp hj with rfl | hj
        · exact hi
        · obtain ⟨k, _, hj⟩ := List.mem_flatMap.mp hj
          cases hj
    | succ n ih =>
        rcases List.mem_cons.mp hj with rfl | hj
        · exact hi
        · obtain ⟨k, hk, hj⟩ := List.mem_flatMap.mp hj
          exact ih (lt_of_mem_children hk) hj
  · rintro ⟨hj, hij⟩
    induction j using Nat.strongRecOn with
    | _ j ih =>
        rcases h.mem_enclosing.mp hij with rfl | ⟨k, hk, hik⟩
        · rw [h.subtree_eq hi]
          exact List.mem_cons_self
        · have hkj := h j k hk
          have hlt := Nat.lt_of_le_of_lt (h.le_of_mem_enclosing hik) hkj
          have hmem := mem_subtreeN_child (ih k hkj (Nat.lt_trans hkj hj) hik) hk
          rwa [h.subtreeN_eq hi (n := t.bags.length) (by omega) (by omega)] at hmem

/-- A bag and those inside it are listed without a gap. -/
theorem Ordered.subtree_isInfix (h : t.Ordered) (hi : i < t.bags.length) : t.subtree i <:+: t.preorder := by
  have hmem : ∀ {k : BagId} {ks : List BagId}, k ∈ ks → t.subtree k <:+: ks.flatMap t.subtree := by
    intro k ks hk
    obtain ⟨xs, ys, rfl⟩ := List.append_of_mem hk
    rw [List.flatMap_append, List.flatMap_cons, ← List.append_assoc]
    exact List.infix_append _ _ _
  induction i using Nat.strongRecOn with
  | _ i ih =>
      cases hp : t.parent? i with
      | none => exact hmem (mem_roots.mpr ⟨hi, hp⟩)
      | some j =>
          have hji := h i j hp
          refine .trans ?_ (ih j hji (Nat.lt_trans hji hi))
          rw [h.subtree_eq (Nat.lt_trans hji hi)]
          exact (hmem (mem_children.mpr hp)).trans (List.suffix_cons _ _).isInfix

/-! ## Bags side by side -/

/-- Bags that lie side by side come in the order of their numbers. -/
theorem Ordered.siblings_preorder (h : t.Ordered) :
    t.preorder.Pairwise fun x y => t.parent? x = t.parent? y → x < y := by
  refine h.pairwise_preorder_of (fun {r k y} hk hy _ => ?_) fun {r r' x y} hrr' hroots hrx hr'y hsame => ?_
  · exact Nat.lt_of_lt_of_le (h k r hk) (h.le_of_mem_enclosing hy)
  · rcases h.mem_enclosing.mp hrx with rfl | ⟨p, hp, hrp⟩
    · -- The first is one of the roots, so the second is one as well.
      rcases h.mem_enclosing.mp hr'y with rfl | ⟨q, hq, hr'q⟩
      · exact hrr'
      · have hq' : t.parent? r' = some q := hroots.symm.trans (hsame.trans hq)
        exact absurd (h.le_of_mem_enclosing hr'q) (Nat.not_le_of_lt (h r' q hq'))
    · -- The second lies in the same bag, which is below the first root.
      have hry : r ∈ t.enclosing y := h.mem_enclosing.mpr (.inr ⟨p, hsame ▸ hp, hrp⟩)
      exact absurd hr'y (h.enclosing_apart hroots (Nat.ne_of_lt hrr') hry)

theorem Ordered.preorder_perm (h : t.Ordered) : t.preorder.Perm (List.range t.bags.length) := by
  have hnodup : t.preorder.Nodup := by
    refine h.pairwise_preorder.imp fun {x y} hxy => ?_
    rintro rfl
    exact hxy (h.self_mem_enclosing x)
  refine (List.perm_ext_iff_of_nodup hnodup List.nodup_range).mpr fun i => ?_
  rw [List.mem_range]
  refine ⟨fun hi => ?_, h.mem_preorder⟩
  obtain ⟨r, hr, hi⟩ := List.mem_flatMap.mp hi
  exact ((h.mem_subtree (mem_roots.mp hr).1).mp hi).1

/-! ## Listing with a stack -/

/-- A loop with a stack lists bags: it takes one off the stack, lists it, and puts those inside it on the
stack, the first one on top. With `stack` on the stack it lists `order` and then ends. -/
inductive Unstacks (children : BagId → List BagId) : (stack order : List BagId) → Prop
  | done : Unstacks children [] []
  | pop {i stack order} : Unstacks children ((children i).foldr List.cons stack) order →
      Unstacks children (i :: stack) (i :: order)

/-- The bags on the stack stand for the part of the forest that is still to be listed. -/
theorem Ordered.unstacks (h : t.Ordered) (stack : List BagId) (hstack : ∀ i ∈ stack, i < t.bags.length) :
    Unstacks t.children stack (stack.flatMap t.subtree) := by
  induction hn : (stack.flatMap t.subtree).length using Nat.strongRecOn generalizing stack with
  | _ n ih =>
      cases stack with
      | nil => exact .done
      | cons i stack =>
          obtain ⟨hi, hstack⟩ := List.forall_mem_cons.mp hstack
          have hlist : (i :: stack).flatMap t.subtree = i :: (t.children i ++ stack).flatMap t.subtree := by
            rw [List.flatMap_cons, h.subtree_eq hi, List.flatMap_append, List.cons_append]
          rw [hlist] at hn ⊢
          refine .pop ?_
          rw [List.foldr_cons_eq_append']
          rw [List.length_cons] at hn
          refine ih _ (Nat.lt_of_succ_le (Nat.le_of_eq hn)) _ (fun k hk => ?_) rfl
          rcases List.mem_append.mp hk with hk | hk
          · exact lt_of_mem_children hk
          · exact hstack k hk

/-! ## Trees that were built -/

/-- What can be relied on in a tree that was built by the operations `ops`. -/
structure Represented (a : Linked) (ops : List Operation) : Prop where
  parent_lt : ∀ {i j}, a.tree.parent? i = some j → j < i
  /-- A bag is linked once from the one around it, and from no other. -/
  count_children : ∀ i j, (a.children j).count i = if a.tree.parent? i = some j then 1 else 0
  children : ∀ i, a.children i = a.tree.children i
  roots : a.roots = a.tree.roots
  roots_classes : a.roots = classBags 0 ops
  roots_iff : ∀ i, i ∈ a.roots ↔ i < a.tree.bags.length ∧ a.tree.parent? i = none
  depth_inner : ∀ {i j}, a.tree.parent? i = some j → a.tree.depth i = a.tree.depth j + 1
  depth_root : ∀ {i}, a.tree.parent? i = none → a.tree.depth i = 0
  depth_le : ∀ i, a.tree.depth i ≤ i
  resolve_inner : ∀ {i j}, a.tree.parent? i = some j → ∀ ctx slot, a.tree.resolve? ctx i slot =
    if a.tree.has i slot then some i else a.tree.resolve? ctx j slot
  resolve_root : ∀ {i}, a.tree.parent? i = none → ∀ ctx slot, a.tree.resolve? ctx i slot =
    if a.tree.has i slot then some i else
      ((ctx.ancestors (a.tree.classOf i)).tail.filterMap a.tree.classBag?).find? (a.tree.has · slot)
  /-- The loop with a stack ends and lists the bags in the order of `preorder`. -/
  unstacks : Unstacks a.children (a.roots.foldr List.cons []) a.tree.preorder
  preorder_perm : a.tree.preorder.Perm (List.range a.tree.bags.length)
  before_inner : a.tree.preorder.Pairwise fun x y => y ∉ a.tree.enclosing x
  contiguous : ∀ i < a.tree.bags.length, ∃ below, below <:+: a.tree.preorder ∧
    ∀ j, j ∈ below ↔ j < a.tree.bags.length ∧ i ∈ a.tree.enclosing j
  siblings : a.tree.preorder.Pairwise fun x y => a.tree.parent? x = a.tree.parent? y → x < y

theorem run_represented {concrete : TypeSet} {ops : List Operation} {a : Linked}
    (h : (Linked.empty concrete).run ops = some a) : Represented a ops := by
  have hsound := (Linked.sound_empty concrete).run h
  have hordered := hsound.coherent.ordered
  have hroots : ∀ i, i ∈ a.roots ↔ i < a.tree.bags.length ∧ a.tree.parent? i = none :=
    fun i => hsound.roots ▸ mem_roots
  exact {
    parent_lt := fun hij => hordered _ _ hij
    count_children := fun i j => by
      rw [hsound.children]
      split
      · exact List.count_eq_one_of_mem (a.tree.nodup_indices _) (mem_children.mpr ‹_›)
      · exact List.count_eq_zero_of_not_mem (mt mem_children.mp ‹_›)
    children := hsound.children
    roots := hsound.roots
    roots_classes := Linked.roots_run h
    roots_iff := hroots
    depth_inner := hordered.depth_inner
    depth_root := hordered.depth_root
    depth_le := hordered.depth_le
    resolve_inner := fun hij ctx slot => hordered.resolve?_eq ctx slot hij (hsound.coherent.inClass hij)
    resolve_root := fun hi ctx slot => hordered.resolve?_root ctx slot hi
    unstacks := by
      rw [funext hsound.children, List.foldr_cons_eq_append', List.append_nil, hsound.roots]
      exact hordered.unstacks _ fun i hi => (mem_roots.mp hi).1
    preorder_perm := hordered.preorder_perm
    before_inner := hordered.pairwise_preorder
    contiguous := fun i hi => ⟨a.tree.subtree i, hordered.subtree_isInfix hi, fun _ => hordered.mem_subtree hi⟩
    siblings := hordered.siblings_preorder }

/-- Two classes, the bags inside them added in turns. -/
def forest : List Operation :=
  [.addClass 0 "A", .addClass 1 "B", .addChild 0 2 (.ofMethod "f"), .addChild 1 3 (.ofMethod "g"),
    .define 3 (.var "x") (Entry.ofType TypeName.int default), .addChild 0 4 .ofLet, .addChild 2 5 .ofCase]

theorem forest_represented : ∃ a, (Linked.empty (TypeSet.ofList [])).run forest = some a ∧
    a.roots = [0, 1] ∧ a.inside = [[2, 4], [3], [5], [], [], []] ∧ a.tree.preorder = [0, 2, 5, 4, 1, 3] ∧
    Represented a forest :=
  ⟨_, rfl, by decide, by decide, by decide, run_represented rfl⟩

end CoolTyping.BagTree
