import CoolTyping.Proofs.Ancestry

/-!
# Walks along any links

The links of a context may be set to anything, even so that they run in a circle. A walk still ends, and it
meets every type that the links lead to, so what is looked for on a walk is found if it is there at all, in the
first type that has it.
-/

namespace CoolTyping.Context

variable {ctx : Context}

theorem length_ancestorsN_le (n : Nat) (t : TypeName) : (ctx.ancestorsN n t).length ≤ n := by
  have hend : (ctx.ancestorsN n t)[n]? = none := by rw [getElem?_ancestorsN, if_neg (Nat.lt_irrefl n)]
  exact List.getElem?_eq_none_iff.mp hend

/-- On the way up from `t`, `owner` is the first type that `P` holds of. -/
def FirstAbove (ctx : Context) (P : TypeName → Prop) (t owner : TypeName) : Prop :=
  ∃ k, ctx.above k t = some owner ∧ P owner ∧ ∀ j < k, ∀ u, ctx.above j t = some u → ¬ P u

/-- What the types own is found on a walk just if a type on the way has it, and then in the first one. -/
theorem findSome?_owner {α : Type} {own : TypeName → Option α} {P : TypeName → Prop}
    (hown : ∀ u, (own u).isSome = true ↔ P u) (t : TypeName) :
    (((ctx.ancestors t).findSome? fun u => (own u).map (u, ·)).isSome = true ↔
      ∃ u, ctx.Descends t u ∧ P u) ∧
    ∀ owner x, (ctx.ancestors t).findSome? (fun u => (own u).map (u, ·)) = some (owner, x) ↔
      ctx.FirstAbove P t owner ∧ own owner = some x := by
  refine ⟨by simp [List.findSome?_isSome_iff, mem_ancestors, hown], fun owner x => ?_⟩
  have hnone : ∀ u, own u = none ↔ ¬ P u := fun u => by rw [← hown, Option.not_isSome_iff_eq_none]
  simp only [findSome?_ancestors, Option.map_eq_some_iff, Option.map_eq_none_iff, Prod.mk.injEq, hnone]
  constructor
  · rintro ⟨k, u, hu, ⟨y, hy, rfl, rfl⟩, hfirst⟩
    exact ⟨⟨k, hu, (hown u).mp (Option.isSome_of_eq_some hy), hfirst⟩, hy⟩
  · rintro ⟨⟨k, hu, _, hfirst⟩, hx⟩
    exact ⟨k, owner, hu, ⟨x, hx, rfl, rfl⟩, hfirst⟩

def DeclaresMethod (ctx : Context) (name : String) (t : TypeName) : Prop :=
  ∃ m ∈ ctx.ownMethods t, m.name = name

def DeclaresAttribute (ctx : Context) (name : String) (t : TypeName) : Prop :=
  ∃ a ∈ ctx.ownAttributes t, a.name = name

/-- Whatever the links of a context are, a walk follows them and ends, and it meets all types that they lead to
and no others. So conformance says whether a type is met, and a feature is found in the first type on the way
that declares it. -/
theorem walk_exact (ctx : Context) (t : TypeName) :
    (ctx.ancestors t).length ≤ ctx.types.length + 1 ∧
    (∀ k ≤ ctx.types.length, (ctx.ancestors t)[k]? = ctx.above k t) ∧
    (∀ u, u ∈ ctx.ancestors t ↔ ctx.Descends t u) ∧
    (∀ u, t.isWildcard = false → u.isWildcard = false →
      (ctx.conforms t u = true ↔ ctx.Descends t u)) ∧
    (∀ name, ((ctx.method? t name).isSome = true ↔ ∃ u, ctx.Descends t u ∧ ctx.DeclaresMethod name u) ∧
      ∀ owner m, ctx.method? t name = some (owner, m) ↔
        ctx.FirstAbove (ctx.DeclaresMethod name) t owner ∧ ctx.ownMethod? owner name = some m) ∧
    ∀ name, ((ctx.attribute? t name).isSome = true ↔
        ∃ u, ctx.Descends t u ∧ ctx.DeclaresAttribute name u) ∧
      ∀ owner a, ctx.attribute? t name = some (owner, a) ↔
        ctx.FirstAbove (ctx.DeclaresAttribute name) t owner ∧ ctx.ownAttribute? owner name = some a := by
  refine ⟨length_ancestorsN_le _ t, fun k hk => ?_, fun u => mem_ancestors, fun u => conforms_iff,
    fun name => findSome?_owner (fun u => ?_) t, fun name => findSome?_owner (fun u => ?_) t⟩
  · rw [ancestors, getElem?_ancestorsN, if_pos (Nat.lt_succ_of_le hk)]
  · simp [ownMethod?, DeclaresMethod]
  · simp [ownAttribute?, DeclaresAttribute]

/-- `A` is below `B` and `C`, which are each below the other. -/
def looped : Context where
  types := basic.types ++ [
    ⟨"A", .declared, some "B", [], []⟩,
    ⟨"B", .declared, some "C", [⟨"x", "A"⟩], []⟩,
    ⟨"C", .declared, some "B", [], [⟨"f", [], TypeName.int⟩]⟩]

theorem looped_walk :
    TypeName.isWildcard "A" = false ∧ TypeName.isWildcard "C" = false ∧ looped.Descends "A" "C" ∧
      looped.FirstAbove (looped.DeclaresMethod "f") "A" "C" ∧
      looped.FirstAbove (looped.DeclaresAttribute "x") "A" "B" := by
  obtain ⟨_, _, _, hconforms, hmethods, hattributes⟩ := walk_exact looped "A"
  have hmethod : looped.method? "A" "f" = some ("C", ⟨"f", [], TypeName.int⟩) := by decide
  have hattribute : looped.attribute? "A" "x" = some ("B", ⟨"x", "A"⟩) := by decide
  exact ⟨rfl, rfl, (hconforms "C" rfl rfl).mp (by decide), (((hmethods "f").2 _ _).mp hmethod).1,
    (((hattributes "x").2 _ _).mp hattribute).1⟩

end CoolTyping.Context
