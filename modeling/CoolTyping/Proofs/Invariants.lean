import CoolTyping.Proofs.Convergence
import CoolTyping.Proofs.KnownTypes
import Mathlib

/-!
# What sweeps keep

Sweeps change the candidates of entries that are not locked, and whether these conflict, and nothing
else. In a program that was read from a text and has no errors, the candidates are concrete types at
all times, and an entry never runs out of them.
-/

namespace CoolTyping

/-! ## The shape of a tree -/

/-- A bag without the candidates of its entries. -/
def Bag.outline (b : Bag) : NodeId × BagKind × TypeName × Option BagId × List (Slot × Bool × Span) :=
  (b.owner, b.kind, b.inClass, b.parent, b.entries.toList.map fun x => (x.1, x.2.locked, x.2.span))

namespace BagTree

variable {t u : BagTree}

/-- The trees have the same bags, the same links between them, and entries for the same declarations
in them, and bags are found in both in the same way. -/
structure SameShape (t u : BagTree) : Prop where
  outlines : u.bags.map Bag.outline = t.bags.map Bag.outline
  concrete : u.concrete = t.concrete
  roots : u.roots = t.roots
  children : u.children = t.children
  bagOf? : u.bagOf? = t.bagOf?
  classBag? : u.classBag? = t.classBag?
  methodBag? : u.methodBag? = t.methodBag?

theorem indices_eq (t : BagTree) (p : Bag → Bool) :
    t.indices p = (t.bags.map p).zipIdx.filterMap fun x => if x.1 then some x.2 else none := by
  rw [indices, List.zipIdx_map, List.filterMap_map]
  rfl

theorem EvolvesTo.sameShape (h : t.EvolvesTo u) : t.SameShape u where
  outlines := by
    refine pointwise_map (fun a b hab => ?_) h.bags
    unfold Bag.outline
    rw [hab.owner, hab.kind, hab.inClass, hab.parent]
    rw [pointwise_map (fun x y hxy => by rw [hxy.1, hxy.2.locked, hxy.2.span]) hab.entries]
  concrete := h.concrete
  roots := by
    unfold BagTree.roots
    rw [indices_eq, indices_eq, pointwise_map (fun a b hab => by rw [hab.parent]) h.bags]
  children := by
    funext i
    unfold BagTree.children
    rw [indices_eq, indices_eq, pointwise_map (fun a b hab => by rw [hab.parent]) h.bags]
  bagOf? := funext h.bagOf?
  classBag? := funext h.classBag?
  methodBag? := funext fun owner => funext (h.methodBag? owner)

end BagTree

namespace ClassTable

variable {t : ClassTable}

/-! ## Candidates -/

/-- A program that was read from a text and has no errors names only types that exist, and `<error>`
is none of them. -/
theorem admits_universe {source : String} {p : Program} (hp : parse source = .ok p)
    (hc : (typecheck p).diagnostics = []) :
    (typecheck p).value.Admits (· ∈ (typecheck p).value.context.concreteTypes) := by
  obtain ⟨hbuild, hcheck⟩ := reports_of_typecheck hc
  refine ⟨build_wellFormed p, fun c hc => (build_clean hbuild c hc).methodNames, fun _ h => h, ?_⟩
  intro c hc f hf
  have hwritten := (parse_capitalized hp c (classes_register_subset _ _ c hc)).features f hf
  have hknown := writes_of_check hbuild hcheck c hc f hf
  exact (hwritten.and hknown).mono fun ty hty => Or.inr ⟨hty.2, hty.1.ne_error⟩

/-- However many sweeps went through the program, the tree has the shape it started with, declared
types stay, and what is not declared has candidates, all of them concrete. The next sweep clears no
conflict; where there is none it only drops candidates, and where there was one it only adds some. -/
theorem swept_invariant {source : String} {p : Program} (hp : parse source = .ok p)
    (hc : (typecheck p).diagnostics = []) (n : Nat) :
    let t := (typecheck p).value
    let T := t.swept n t.seed
    t.seed.SameShape T ∧
    (∀ i slot e, t.seed.entryAt? i slot = some e → e.locked = true →
      T.entryAt? i slot = some e) ∧
    (∀ i slot e, T.entryAt? i slot = some e → e.locked = false →
      e.candidates.toList ≠ [] ∧ ∀ ty ∈ e.candidates, ty ∈ t.context.concreteTypes ∧
        ty ≠ TypeName.auto ∧ ty ≠ TypeName.selfType ∧ ty ≠ TypeName.error) ∧
    ∀ i slot e, T.entryAt? i slot = some e → ∃ f, (t.sweep T).1.entryAt? i slot = some f ∧
      (e.ambiguous = true → f.ambiguous = true) ∧
      (f.ambiguous = false → f.candidates.toList.Sublist e.candidates.toList) ∧
      (e.ambiguous = true → e.candidates.toList <+: f.candidates.toList) := by
  intro t T
  have hadmits : t.Admits _ := admits_universe hp hc
  have hT : t.seed.EvolvesTo T := t.swept_evolvesTo n t.seed
  refine ⟨hT.sameShape, fun i slot e he hl => ?_, fun i slot e he hl => ?_, fun i slot e he => ?_⟩
  · obtain ⟨f, hf, hef⟩ := hT.entryAt?_eq_some he
    rw [hf, hef.fixed hl]
  · have hwithin := (swept_within hadmits.seed_covers hadmits.seed_within n).entryAt? he
    obtain ⟨b, hb, hx⟩ := BagTree.mem_of_entryAt? he
    exact ⟨hadmits.wellFormed.swept_nonempty n hb hx hl,
      fun ty hty => ⟨hwithin ty hty, hadmits.wellFormed.concrete_ne (hwithin ty hty)⟩⟩
  · obtain ⟨f, hf, hef⟩ := (t.sweep_evolvesTo T).entryAt?_eq_some he
    exact ⟨f, hf, fun ha => (hef.grows ha).1, fun ha => (hef.shrinks ha).2,
      fun ha => (hef.grows ha).2⟩

end ClassTable

/-- The text of a class with an attribute and a method that adds its argument to it, both of types
that are to be inferred. -/
def adderText : String := "class A { x : AUTO_TYPE <- 1; get(y : AUTO_TYPE) : Int { x + y }; };"

def adder : Program :=
  ⟨[⟨0, "A", none, [
    .attr ⟨"x", TypeName.auto, some (.int ⟨27, 28⟩ 1), ⟨10, 28⟩⟩,
    .method ⟨1, "get", [⟨"y", TypeName.auto, ⟨34, 47⟩⟩], TypeName.int,
      .binary ⟨57, 62⟩ .add (.ident ⟨57, 58⟩ "x") (.ident ⟨61, 62⟩ "y"), ⟨30, 64⟩⟩], ⟨0, 68⟩⟩]⟩

theorem adder_invariant :
    let t := (typecheck adder).value
    parse adderText = .ok adder ∧ (typecheck adder).diagnostics = [] ∧
      t.seed.unlockedCount = 2 ∧ t.seed.SameShape (t.swept 2 t.seed) := by
  have hp : parse adderText = .ok adder := by cbv
  have hc : (typecheck adder).diagnostics = [] := by decide +kernel
  exact ⟨hp, hc, by decide +kernel, (ClassTable.swept_invariant hp hc 2).1⟩

end CoolTyping
