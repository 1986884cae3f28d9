import CoolTyping.Proofs.Declarations

/-!
# Operations on contexts

Types are registered, linked to parents and given features in any order, and an operation that is not
possible fails. In every context that is reached in this way the names of types are different, all links lead
to `Object` without a circle, and conformance is an order on the types that are no wildcards.

An operation is carried out in place, and nothing takes back what it has written when it fails. It fails before
it writes.
-/

namespace CoolTyping.Context

/-! ## Operations -/

/-- A change of a context. -/
inductive Operation where
  | create (name : TypeName)
  | setParent (t parent : TypeName)
  | addAttribute (t : TypeName) (a : Attribute)
  | addMethod (t : TypeName) (m : Signature)

/-- The context after an operation, or why it fails. The types that it changes or links have to exist. -/
def perform (ctx : Context) : Operation → Except SemanticError Context
  | .create name => ctx.create name
  | .setParent t parent => do
    let t ← ctx.resolve t
    let parent ← ctx.resolve parent
    ctx.setParent t parent
  | .addAttribute t a => do
    let t ← ctx.resolve t
    return ctx.addAttribute t a
  | .addMethod t m => do
    let t ← ctx.resolve t
    return ctx.addMethod t m

/-- Steps that read and write a context. What was written before a failure stays written. -/
abbrev Edit : Type → Type := ExceptT SemanticError (StateM Context)

/-- Adds a class that has no parent yet. -/
def insert (ctx : Context) (name : TypeName) : Context :=
  ⟨ctx.types ++ [⟨name, .declared, none, [], []⟩]⟩

/-- An operation, step by step. -/
def Operation.exec : Operation → Edit Unit
  | .create name => do
    if (← get).contains name then
      throw (.duplicateClass name)
    else
      modifyThe Context (·.insert name)
      modifyThe Context (·.withParent name (some TypeName.object))
  | .setParent t parent => do
    let t ← (← get).resolve t
    let parent ← (← get).resolve parent
    if !((← get).info? parent).all (·.kind.inheritable) then
      throw (.illegalParent t parent)
    else if ((← get).ancestors parent).contains t then
      throw (.cyclicInheritance t)
    else
      modifyThe Context (·.withParent t (some parent))
  | .addAttribute t a => do
    let t ← (← get).resolve t
    modifyThe Context (·.addAttribute t a)
  | .addMethod t m => do
    let t ← (← get).resolve t
    modifyThe Context (·.addMethod t m)

/-- The context that an operation leaves behind, whether it fails or not. -/
def after (ctx : Context) (op : Operation) : Context := (op.exec.run.run ctx).2

def run (ctx : Context) (ops : List Operation) : Context := ops.foldl after ctx

variable {ctx ctx' : Context} {a b c t : TypeName}

theorem resolve_bind {f : TypeName → Except SemanticError Context}
    (h : (do f (← ctx.resolve t)) = .ok ctx') : ctx.contains t = true ∧ f t = .ok ctx' := by
  unfold resolve at h
  split at h
  · exact ⟨‹_›, h⟩
  · cases h

theorem withParent_insert {name : TypeName} (h : ctx.contains name = false) (parent : Option TypeName) :
    (ctx.insert name).withParent name parent = ⟨ctx.types ++ [⟨name, .declared, parent, [], []⟩]⟩ := by
  have hothers : ∀ i ∈ ctx.types, ¬ i.name = name := by simpa [contains] using h
  simp only [withParent, modify, insert, List.map_append]
  congr 2
  · exact List.map_congr_left (fun i hi => by simp [hothers i hi]) |>.trans (List.map_id _)
  · simp

section Steps

variable {α : Type} (ctx : Context)

theorem get_run (f : Context → Edit α) : (get >>= f).run.run ctx = (f ctx).run.run ctx := rfl

theorem resolve_run (f : TypeName → Edit α) (t : TypeName) : (do f (← ctx.resolve t) : Edit α).run.run ctx =
    match ctx.resolve t with
    | .ok t => (f t).run.run ctx
    | .error e => (.error e, ctx) := by
  cases ctx.resolve t <;> rfl

end Steps

/-- What is left of `ctx` by an operation that gives a new context or none. -/
def outcome (ctx : Context) : Except SemanticError Context → Except SemanticError Unit × Context
  | .ok ctx' => (.ok (), ctx')
  | .error e => (.error e, ctx)

/-- Nothing is written before the last check. -/
theorem exec_run (op : Operation) (ctx : Context) : op.exec.run.run ctx = ctx.outcome (ctx.perform op) := by
  cases op with
  | create name =>
      simp only [Operation.exec, get_run, perform, create]
      split
      · rfl
      · rename_i h
        rw [← withParent_insert (by simpa using h)]
        rfl
  | setParent t parent =>
      simp only [Operation.exec, get_run, resolve_run, perform]
      cases ctx.resolve t with
      | error e => rfl
      | ok t =>
          dsimp only
          cases ctx.resolve parent with
          | error e => rfl
          | ok parent =>
              change _ = ctx.outcome (ctx.setParent t parent)
              unfold setParent
              dsimp only
              split
              · rfl
              · rw [get_run]
                split <;> rfl
  | addAttribute t a =>
      simp only [Operation.exec, get_run, resolve_run, perform]
      cases ctx.resolve t <;> rfl
  | addMethod t m =>
      simp only [Operation.exec, get_run, resolve_run, perform]
      cases ctx.resolve t <;> rfl

theorem after_eq (ctx : Context) (op : Operation) : ctx.after op = (ctx.perform op).toOption.getD ctx := by
  rw [after, exec_run]
  cases ctx.perform op <;> rfl

/-- What an operation does, unless it fails: it registers a type, links a type to a parent that may have
children and does not descend from it, or touches neither names nor links. -/
theorem perform_cases {op : Operation} (h : ctx.perform op = .ok ctx') :
    (∃ name, ctx.create name = .ok ctx') ∨
    (∃ t parent, op = .setParent t parent ∧ ctx.contains t = true ∧ ctx.contains parent = true ∧
      ¬ ctx.Descends parent t ∧ (ctx.info? parent).all (·.kind.inheritable) = true ∧
      ctx' = ctx.withParent t (some parent)) ∨
    ∃ t f, (∀ i : TypeInfo, (f i).name = i.name ∧ (f i).kind = i.kind ∧ (f i).parent = i.parent) ∧
      ctx' = ctx.modify t f := by
  cases op with
  | create name => exact .inl ⟨name, h⟩
  | setParent t parent =>
      obtain ⟨ht, h⟩ := resolve_bind h
      obtain ⟨hp, h⟩ := resolve_bind h
      obtain ⟨rfl, hnot, hkind⟩ := ClassTable.setParent_eq_ok h
      exact .inr (.inl ⟨t, parent, rfl, ht, hp, hnot, hkind, rfl⟩)
  | addAttribute t a =>
      obtain ⟨_, h⟩ := resolve_bind h
      cases h
      exact .inr (.inr ⟨t, fun i => { i with attributes := i.attributes ++ [a] },
        fun _ => ⟨rfl, rfl, rfl⟩, rfl⟩)
  | addMethod t m =>
      obtain ⟨_, h⟩ := resolve_bind h
      cases h
      exact .inr (.inr ⟨t, fun i => { i with methods := i.methods ++ [m] },
        fun _ => ⟨rfl, rfl, rfl⟩, rfl⟩)

/-! ## What every operation keeps -/

/-- The names are different, and all links lead to `Object`. -/
structure Orderly (ctx : Context) : Prop where
  distinct : ctx.names.Nodup
  rooted : ctx.Rooted

theorem basic_orderly : basic.Orderly := ⟨basic_names_nodup, basic_rooted⟩

theorem Orderly.perform {op : Operation} (h : ctx.Orderly) (hop : ctx.perform op = .ok ctx') :
    ctx'.Orderly := by
  rcases perform_cases hop with ⟨name, hcreate⟩ | ⟨t, parent, _, ht, hp, hnot, _, rfl⟩ | ⟨t, f, hf, rfl⟩
  · exact ⟨create_distinct h.distinct hcreate, create_rooted h.rooted hcreate⟩
  · -- `Object` is above every parent, so it is not linked itself
    have hroot : t ≠ TypeName.object := by
      rintro rfl
      exact hnot (h.rooted.descends hp)
    refine ⟨?_, withParent_rooted h.rooted ht hroot hp hnot⟩
    rw [names_eq, labels_withParent, ← names_eq]
    exact h.distinct
  · have hlabels : (ctx.modify t f).labels = ctx.labels := labels_modify fun i => ⟨(hf i).1, (hf i).2.1⟩
    refine ⟨?_, h.rooted.congr hlabels (parent?_modify fun i => ⟨(hf i).1, (hf i).2.2⟩)⟩
    rw [names_eq, hlabels, ← names_eq]
    exact h.distinct

theorem Orderly.after (h : ctx.Orderly) (op : Operation) : (ctx.after op).Orderly := by
  rw [after_eq]
  cases hop : ctx.perform op with
  | error e => exact h
  | ok ctx' => exact h.perform hop

theorem Orderly.run (h : ctx.Orderly) (ops : List Operation) : (ctx.run ops).Orderly := by
  unfold Context.run
  induction ops generalizing ctx with
  | nil => exact h
  | cons op ops ih => exact ih (h.after op)

/-! ## Walks in a rooted context -/

namespace Rooted

theorem acyclic (h : ctx.Rooted) : ¬ Relation.TransGen ctx.Parent t t := by
  intro hcircle
  obtain ⟨p, hp, hback⟩ := Relation.TransGen.head'_iff.mp hcircle
  have ht : ctx.contains t = true := contains_iff.mpr (mem_names_of_parent? hp)
  obtain rfl := h.antisymm (.single hp) hback ht
  -- a type that is its own parent leads nowhere else
  have hloop : ∀ {x}, ctx.Descends t x → x = t := by
    intro x hx
    induction hx with
    | refl => rfl
    | tail _ hxy ih =>
        subst ih
        exact Option.some.inj (hxy.symm.trans hp)
  have hobject := hloop (h.descends ht)
  rw [← hobject, Parent, h.root] at hp
  cases hp

theorem nodup_ancestorsN (h : ctx.Rooted) (n : Nat) (t : TypeName) : (ctx.ancestorsN n t).Nodup := by
  induction n generalizing t with
  | zero => exact List.nodup_nil
  | succ n ih =>
      rw [ancestorsN]
      cases hp : ctx.parent? t with
      | none => exact List.nodup_singleton t
      | some p =>
          refine List.nodup_cons.mpr ⟨fun ht => ?_, ih p⟩
          obtain ⟨k, _, hk⟩ := mem_ancestorsN.mp ht
          exact h.acyclic (Relation.TransGen.head' hp (descends_iff.mpr ⟨k, hk⟩))

end Rooted

/-- A walk that is long enough to reach a type without a parent ends there, whatever its limit. -/
theorem ancestorsN_of_above {root : TypeName} {k n : Nat} (hroot : ctx.parent? root = none)
    (h : ctx.above k t = some root) (hn : k < n) :
    ctx.ancestorsN n t = ctx.ancestorsN (k + 1) t ∧ (ctx.ancestorsN n t).getLast? = some root := by
  obtain ⟨n, rfl⟩ := Nat.exists_eq_succ_of_ne_zero (Nat.ne_zero_of_lt hn)
  induction k generalizing t n with
  | zero =>
      cases h
      simp [ancestorsN, hroot]
  | succ k ih =>
      obtain ⟨p, hp, h⟩ := Option.bind_eq_some_iff.mp h
      obtain ⟨n, rfl⟩ := Nat.exists_eq_succ_of_ne_zero (Nat.ne_zero_of_lt (Nat.lt_of_succ_lt_succ hn))
      obtain ⟨heq, hlast⟩ := ih h n (Nat.lt_of_succ_lt_succ hn)
      rw [ancestorsN, ancestorsN, hp]
      dsimp only [Option.elim]
      exact ⟨by rw [heq], by rw [List.getLast?_cons, hlast, Option.getD_some]⟩

/-! ## Conformance -/

/-- Conformance is transitive, unless it goes through a wildcard. -/
theorem conforms_trans (hb : b.isWildcard = false) (hab : ctx.conforms a b = true)
    (hbc : ctx.conforms b c = true) : ctx.conforms a c = true := by
  cases ha : a.isWildcard with
  | true => simp [conforms, ha]
  | false =>
      cases hc : c.isWildcard with
      | true => simp [conforms, hc]
      | false =>
          have hdescends := ((conforms_iff ha hb).mp hab).trans ((conforms_iff hb hc).mp hbc)
          exact (conforms_iff ha hc).mpr hdescends

/-- What can be relied on in a context: its names are different and lead to the types that have them, its
links make a tree with `Object` as the root, walks follow them to the end, and conformance is an order with
`Object` as the greatest type, apart from wildcards. -/
structure Hierarchy (ctx : Context) : Prop where
  distinct : ctx.names.Nodup
  resolves : ∀ i ∈ ctx.types, ctx.resolve i.name = .ok i.name ∧ ctx.info? i.name = some i
  root : ∀ t ∈ ctx.names, ctx.parent? t = none ↔ t = TypeName.object
  acyclic : ∀ t, ¬ Relation.TransGen ctx.Parent t t
  descends : ∀ t ∈ ctx.names, ctx.Descends t TypeName.object
  nodup_ancestors : ∀ t ∈ ctx.names, (ctx.ancestors t).Nodup
  ancestors_end : ∀ t ∈ ctx.names, (ctx.ancestors t).getLast? = some TypeName.object
  /-- No walk is cut off: another limit would not make it longer. -/
  ancestors_whole : ∀ t ∈ ctx.names, ∀ n > ctx.types.length, ctx.ancestorsN n t = ctx.ancestors t
  conforms_refl : ∀ t ∈ ctx.names, ctx.conforms t t = true
  conforms_antisymm : ∀ a ∈ ctx.names, ∀ b ∈ ctx.names, a.isWildcard = false → b.isWildcard = false →
    ctx.conforms a b = true → ctx.conforms b a = true → a = b
  conforms_trans : ∀ a ∈ ctx.names, ∀ b ∈ ctx.names, ∀ c ∈ ctx.names, b.isWildcard = false →
    ctx.conforms a b = true → ctx.conforms b c = true → ctx.conforms a c = true
  conforms_object : ∀ t ∈ ctx.names, ctx.conforms t TypeName.object = true

theorem info?_of_mem (h : ctx.names.Nodup) {i : TypeInfo} (hi : i ∈ ctx.types) :
    ctx.info? i.name = some i := by
  obtain ⟨xs, ys, hsplit⟩ := List.append_of_mem hi
  have hxs : Apart i.name xs := by
    rw [names, hsplit, List.map_append, List.map_cons] at h
    exact fun j hj => (List.nodup_append.mp h).2.2 _ (List.mem_map_of_mem hj) _ List.mem_cons_self
  rw [show ctx = ⟨xs ++ i :: ys⟩ from congrArg Context.mk hsplit]
  exact info?_split hxs

theorem Orderly.hierarchy (h : ctx.Orderly) : ctx.Hierarchy := by
  have hwalk : ∀ t ∈ ctx.names, ∃ k ≤ ctx.types.length, ctx.above k t = some TypeName.object := by
    intro t ht
    obtain ⟨k, hk⟩ := descends_iff.mp (h.rooted.descends (contains_iff.mpr ht))
    exact exists_above_le hk
  refine {
    distinct := h.distinct
    resolves := fun i hi => ?_
    root := fun t ht => ⟨fun hp => ?_, ?_⟩
    acyclic := fun t => h.rooted.acyclic
    descends := fun t ht => h.rooted.descends (contains_iff.mpr ht)
    nodup_ancestors := fun t _ => h.rooted.nodup_ancestorsN _ t
    ancestors_end := fun t ht => ?_
    ancestors_whole := fun t ht n hn => ?_
    conforms_refl := fun t _ => by simp [conforms]
    conforms_antisymm := fun a ha b _ hwa hwb hab hba => ?_
    conforms_trans := fun a _ b _ c _ hb => Context.conforms_trans hb
    conforms_object := fun t ht => ?_ }
  · rw [resolve, if_pos (contains_iff.mpr (List.mem_map_of_mem hi))]
    exact ⟨rfl, info?_of_mem h.distinct hi⟩
  · by_contra hne
    obtain ⟨p, hparent⟩ := parent_of_descends_ne (h.rooted.descends (contains_iff.mpr ht)) hne
    rw [Parent, hp] at hparent
    cases hparent
  · rintro rfl
    exact h.rooted.root
  · obtain ⟨k, hk, habove⟩ := hwalk t ht
    exact (ancestorsN_of_above h.rooted.root habove (Nat.lt_succ_of_le hk)).2
  · obtain ⟨k, hk, habove⟩ := hwalk t ht
    have hn := (ancestorsN_of_above h.rooted.root habove (Nat.lt_of_le_of_lt hk hn)).1
    exact hn.trans (ancestorsN_of_above h.rooted.root habove (Nat.lt_succ_of_le hk)).1.symm
  · exact h.rooted.antisymm ((conforms_iff hwa hwb).mp hab) ((conforms_iff hwb hwa).mp hba)
      (contains_iff.mpr ha)
  · cases hw : t.isWildcard with
    | true => simp [conforms, hw]
    | false => exact (conforms_iff hw (by decide)).mpr (h.rooted.descends (contains_iff.mpr ht))

/-- Whatever operations are tried, one after the other, they lead from the basic types to a context that
can be relied on, and one that fails changes nothing. -/
theorem run_hierarchy (ops : List Operation) :
    (basic.run ops).Hierarchy ∧
      ∀ op, (op.exec.run.run (basic.run ops)).1 = ((basic.run ops).perform op).map (fun _ => ()) ∧
        ∀ e, (op.exec.run.run (basic.run ops)).1 = .error e → basic.run (ops ++ [op]) = basic.run ops := by
  refine ⟨(basic_orderly.run ops).hierarchy, fun op => ?_⟩
  have hrun : basic.run (ops ++ [op]) = (basic.run ops).after op := List.foldl_append
  rw [hrun, after, exec_run]
  cases (basic.run ops).perform op with
  | error e => exact ⟨rfl, fun _ _ => rfl⟩
  | ok ctx => exact ⟨rfl, fun e he => nomatch he⟩

example : ((basic.run [.create "A", .create "B", .create "A", .setParent "B" "A", .setParent "A" "B",
    .setParent TypeName.object "A", .setParent TypeName.int "B"]).ancestors TypeName.int) =
      [TypeName.int, "B", "A", TypeName.object] := by decide

end CoolTyping.Context
