import CoolTyping.Context
import Mathlib.Data.List.Nodup
import Mathlib.Data.List.Perm.Subperm
import Mathlib.Data.List.TakeWhile
import Mathlib.Data.Nat.Find
import Mathlib.Logic.Relation

/-!
# Following the links to parents

`Descends a b`: following links to parents leads from `a` to `b`. A walk is long enough to meet every
type on its way, even where links run in a circle. Where all links lead to `Object`, types are ordered by
descent, and two types have a least common ancestor, which is their join.
-/

namespace CoolTyping.Context

variable {ctx : Context} {a b c t : TypeName}

/-- `b` is the parent of `a`. -/
def Parent (ctx : Context) (a b : TypeName) : Prop := ctx.parent? a = some b

/-- `a` is `b`, or a child of a type that descends from it. -/
def Descends (ctx : Context) : TypeName → TypeName → Prop := Relation.ReflTransGen ctx.Parent

/-- The type that `n` steps lead to. -/
def above (ctx : Context) : Nat → TypeName → Option TypeName
  | 0, t => some t
  | n + 1, t => (ctx.parent? t).bind (ctx.above n)

theorem above_add (m n : Nat) (t : TypeName) :
    ctx.above (m + n) t = (ctx.above m t).bind (ctx.above n) := by
  induction m generalizing t with
  | zero => simp [above]
  | succ m ih =>
      rw [Nat.succ_add, above, above]
      cases ctx.parent? t with
      | none => rfl
      | some p => exact ih p

theorem descends_iff : ctx.Descends a b ↔ ∃ n, ctx.above n a = some b := by
  constructor
  · intro h
    induction h with
    | refl => exact ⟨0, rfl⟩
    | tail _ hp ih =>
        obtain ⟨n, hn⟩ := ih
        refine ⟨n + 1, ?_⟩
        rw [above_add, hn]
        simp [above, show ctx.parent? _ = some _ from hp]
  · rintro ⟨n, hn⟩
    induction n generalizing a with
    | zero =>
        cases hn
        exact .refl
    | succ n ih =>
        obtain ⟨p, hp, hn⟩ := Option.bind_eq_some_iff.mp hn
        exact .head hp (ih hn)

/-! ## Walks -/

theorem mem_names_of_parent? (h : ctx.parent? t = some a) : t ∈ ctx.names := by
  obtain ⟨i, hi, _⟩ := Option.bind_eq_some_iff.mp h
  have hname : i.name = t := by simpa using List.find?_some hi
  exact hname ▸ List.mem_map_of_mem (List.mem_of_find?_eq_some hi)

/-- Every type that links lead to is met within as many steps as there are types: on the shortest way to
it no type is passed twice. -/
theorem exists_above_le {n : Nat} (h : ctx.above n a = some b) :
    ∃ k ≤ ctx.types.length, ctx.above k a = some b := by
  classical
  have hex : ∃ n, ctx.above n a = some b := ⟨n, h⟩
  refine ⟨Nat.find hex, ?_, Nat.find_spec hex⟩
  have hmin := fun m => Nat.find_min hex (m := m)
  have hk := Nat.find_spec hex
  generalize Nat.find hex = k at hmin hk
  -- the types passed, as far as they are not `b`
  have hpassed : ∀ i < k, ∃ x ∈ ctx.names, ctx.above i a = some x := by
    intro i hi
    obtain ⟨j, rfl⟩ := Nat.exists_eq_add_of_lt hi
    rw [Nat.add_assoc, above_add] at hk
    obtain ⟨x, hx, hxb⟩ := Option.bind_eq_some_iff.mp hk
    obtain ⟨p, hp, _⟩ := Option.bind_eq_some_iff.mp hxb
    exact ⟨x, mem_names_of_parent? hp, hx⟩
  have hinj : ∀ i < k, ∀ j < k, ctx.above i a = ctx.above j a → i ≤ j := by
    intro i hi j hj hij
    by_contra hlt
    -- coming back to a type, the steps in between can be left out
    refine hmin (j + (k - i)) (by omega) ?_
    rw [above_add, ← hij, ← above_add, Nat.add_sub_cancel' (Nat.le_of_lt hi)]
    exact hk
  have hnodup : ((List.range k).map fun i => ctx.above i a).Nodup := by
    refine (List.nodup_map_iff_inj_on List.nodup_range).mpr ?_
    intro i hi j hj hij
    rw [List.mem_range] at hi hj
    exact Nat.le_antisymm (hinj i hi j hj hij) (hinj j hj i hi hij.symm)
  have hsub : ((List.range k).map fun i => ctx.above i a) ⊆ ctx.names.map some := by
    intro x hx
    obtain ⟨i, hi, rfl⟩ := List.mem_map.mp hx
    obtain ⟨y, hy, hyx⟩ := hpassed i (List.mem_range.mp hi)
    exact hyx ▸ List.mem_map_of_mem hy
  have hle := (hnodup.subperm hsub).length_le
  simpa [names] using hle

theorem findSome?_ancestorsN {β : Type} {f : TypeName → Option β} {n : Nat} {y : β} :
    (ctx.ancestorsN n t).findSome? f = some y ↔ ∃ k < n, ∃ x, ctx.above k t = some x ∧ f x = some y ∧
      ∀ j < k, ∀ z, ctx.above j t = some z → f z = none := by
  induction n generalizing t with
  | zero => simp [ancestorsN]
  | succ n ih =>
      rw [ancestorsN, List.findSome?_cons]
      cases hft : f t with
      | some y' =>
          constructor
          · rintro ⟨⟩
            exact ⟨0, Nat.succ_pos n, t, rfl, hft, by simp⟩
          · rintro ⟨k, _, x, hx, hfx, hfirst⟩
            cases k with
            | zero =>
                cases hx
                exact hft.symm.trans hfx
            | succ k =>
                have hnone := hfirst 0 (Nat.succ_pos k) t rfl
                simp [hft] at hnone
      | none =>
          cases hp : ctx.parent? t with
          | none =>
              simp only [Option.elim_none, List.findSome?_nil, reduceCtorEq, false_iff]
              rintro ⟨k, _, x, hx, hfx, _⟩
              cases k with
              | zero =>
                  cases hx
                  simp [hft] at hfx
              | succ k => simp [above, hp] at hx
          | some p =>
              simp only [Option.elim_some, ih]
              constructor
              · rintro ⟨k, hk, x, hx, hfx, hfirst⟩
                refine ⟨k + 1, Nat.succ_lt_succ hk, x, by simpa [above, hp] using hx, hfx, ?_⟩
                intro j hj z hz
                cases j with
                | zero =>
                    cases hz
                    exact hft
                | succ j => exact hfirst j (Nat.lt_of_succ_lt_succ hj) z (by simpa [above, hp] using hz)
              · rintro ⟨k, hk, x, hx, hfx, hfirst⟩
                cases k with
                | zero =>
                    cases hx
                    simp [hft] at hfx
                | succ k =>
                    refine ⟨k, Nat.lt_of_succ_lt_succ hk, x, by simpa [above, hp] using hx, hfx, ?_⟩
                    intro j hj z hz
                    exact hfirst (j + 1) (Nat.succ_lt_succ hj) z (by simpa [above, hp] using hz)

/-- A walk finds the first type on the way for which `f` has something. -/
theorem findSome?_ancestors {β : Type} {f : TypeName → Option β} {y : β} :
    (ctx.ancestors t).findSome? f = some y ↔ ∃ k x, ctx.above k t = some x ∧ f x = some y ∧
      ∀ j < k, ∀ z, ctx.above j t = some z → f z = none := by
  unfold ancestors
  rw [findSome?_ancestorsN]
  constructor
  · rintro ⟨k, _, x, hx⟩
    exact ⟨k, x, hx⟩
  · rintro ⟨k, x, hx, hfx, hfirst⟩
    obtain ⟨k', hk', hx'⟩ := exists_above_le hx
    refine ⟨k, ?_, x, hx, hfx, hfirst⟩
    by_contra hlt
    have hnone := hfirst k' (by omega) x hx'
    rw [hnone] at hfx
    cases hfx

theorem getElem?_ancestorsN (n k : Nat) (t : TypeName) :
    (ctx.ancestorsN n t)[k]? = if k < n then ctx.above k t else none := by
  induction n generalizing k t with
  | zero => simp [ancestorsN]
  | succ n ih =>
      cases k with
      | zero => simp [ancestorsN, above]
      | succ k => cases hp : ctx.parent? t <;> simp [ancestorsN, above, hp, ih]

theorem mem_ancestorsN {n : Nat} : b ∈ ctx.ancestorsN n a ↔ ∃ k < n, ctx.above k a = some b := by
  simp [List.mem_iff_getElem?, getElem?_ancestorsN]

theorem mem_ancestors : b ∈ ctx.ancestors a ↔ ctx.Descends a b := by
  rw [descends_iff, ancestors, mem_ancestorsN]
  constructor
  · rintro ⟨k, _, hk⟩
    exact ⟨k, hk⟩
  · rintro ⟨n, hn⟩
    obtain ⟨k, hk, hkb⟩ := exists_above_le hn
    exact ⟨k, Nat.lt_succ_of_le hk, hkb⟩

/-! ## Inherited methods -/

/-- The method `name` of `t`: its own, or else the one that its parent has. -/
inductive HasMethod (ctx : Context) (name : String) : TypeName → Signature → Prop
  | own {t m} : ctx.ownMethod? t name = some m → HasMethod ctx name t m
  | inherited {t p m} : ctx.ownMethod? t name = none → ctx.Parent t p → HasMethod ctx name p m →
      HasMethod ctx name t m

theorem hasMethod_iff_above {name : String} {m : Signature} : ctx.HasMethod name t m ↔
    ∃ k x, ctx.above k t = some x ∧ ctx.ownMethod? x name = some m ∧
      ∀ j < k, ∀ z, ctx.above j t = some z → ctx.ownMethod? z name = none := by
  constructor
  · intro h
    induction h with
    | @own t m hm => exact ⟨0, t, rfl, hm, by simp⟩
    | inherited hnone hp _ ih =>
        obtain ⟨k, x, hx, hm, hfirst⟩ := ih
        have hp : ctx.parent? _ = some _ := hp
        refine ⟨k + 1, x, by simpa [above, hp] using hx, hm, ?_⟩
        intro j hj z hz
        cases j with
        | zero =>
            cases hz
            exact hnone
        | succ j => exact hfirst j (Nat.lt_of_succ_lt_succ hj) z (by simpa [above, hp] using hz)
  · rintro ⟨k, x, hx, hm, hfirst⟩
    induction k generalizing t with
    | zero =>
        cases hx
        exact .own hm
    | succ k ih =>
        obtain ⟨p, hp, hx⟩ := Option.bind_eq_some_iff.mp hx
        refine .inherited (hfirst 0 (Nat.succ_pos k) t rfl) hp (ih hx fun j hj z hz => ?_)
        exact hfirst (j + 1) (Nat.succ_lt_succ hj) z (by simpa [above, hp] using hz)

theorem hasMethod_iff {name : String} {m : Signature} :
    ctx.HasMethod name t m ↔ ∃ owner, ctx.method? t name = some (owner, m) := by
  rw [hasMethod_iff_above]
  unfold method?
  simp only [findSome?_ancestors, Option.map_eq_some_iff, Option.map_eq_none_iff, Prod.mk.injEq]
  constructor
  · rintro ⟨k, x, hx, hm, hfirst⟩
    exact ⟨x, k, x, hx, ⟨m, hm, rfl, rfl⟩, hfirst⟩
  · rintro ⟨_, k, x, hx, ⟨_, hm, rfl, rfl⟩, hfirst⟩
    exact ⟨k, x, hx, hm, hfirst⟩

/-! ## Conformance -/

theorem conforms_iff (ha : a.isWildcard = false) (hb : b.isWildcard = false) :
    ctx.conforms a b = true ↔ ctx.Descends a b := by
  rw [← mem_ancestors]
  simp only [conforms, ha, hb, Bool.or_false, Bool.or_eq_true, beq_iff_eq, List.contains_eq_mem,
    decide_eq_true_eq, or_iff_right_iff_imp]
  rintro rfl
  exact mem_ancestors.mpr .refl

theorem parent_of_descends_ne (h : ctx.Descends a b) (hne : a ≠ b) : ∃ p, ctx.Parent a p := by
  rcases Relation.ReflTransGen.cases_head h with rfl | ⟨p, hp, _⟩
  · exact absurd rfl hne
  · exact ⟨p, hp⟩

/-- Two ancestors of one type lie on one line. -/
theorem descends_or_of_above {i j : Nat} (hi : ctx.above i t = some a) (hj : ctx.above j t = some b)
    (hij : i ≤ j) : ctx.Descends a b := by
  obtain ⟨k, rfl⟩ := Nat.exists_eq_add_of_le hij
  rw [above_add, hi] at hj
  exact descends_iff.mpr ⟨k, hj⟩

/-- All links lead to `Object`, which has no parent. -/
structure Rooted (ctx : Context) : Prop where
  known : ctx.contains TypeName.object = true
  root : ctx.parent? TypeName.object = none
  descends : ∀ {t}, ctx.contains t = true → ctx.Descends t TypeName.object

namespace Rooted

theorem eq_object (h : ctx.Rooted) (ha : ctx.Descends TypeName.object a) : a = TypeName.object := by
  by_contra hne
  obtain ⟨p, hp⟩ := parent_of_descends_ne ha (Ne.symm hne)
  simp [Parent, h.root] at hp

theorem antisymm (h : ctx.Rooted) (hab : ctx.Descends a b) (hba : ctx.Descends b a)
    (ha : ctx.contains a = true) : a = b := by
  obtain ⟨i, hi⟩ := descends_iff.mp hab
  obtain ⟨j, hj⟩ := descends_iff.mp hba
  obtain ⟨k, hk⟩ := descends_iff.mp (h.descends ha)
  have hcircle : ctx.above (i + j) a = some a := by rw [above_add, hi]; exact hj
  -- going round and then up ends at `Object`, but going up and then on does not
  have hround : ctx.above (i + j + k) a = some TypeName.object := by
    rw [above_add, hcircle]
    exact hk
  rw [Nat.add_comm, above_add, hk] at hround
  have hzero : i + j = 0 := by
    by_contra hne
    obtain ⟨n, hn⟩ := Nat.exists_eq_succ_of_ne_zero hne
    simp [hn, above, h.root] at hround
  have hi0 : i = 0 := by omega
  subst hi0
  cases hi
  rfl

end Rooted

/-! ## Joins -/

theorem join_wildcards (ha : a.isWildcard = true) (hb : b.isWildcard = true) : ctx.join a b =
    if a = TypeName.error ∨ b = TypeName.error then TypeName.error else TypeName.auto := by
  simp [join, ha, hb]

theorem join_wildcard_left (ha : a.isWildcard = true) (hb : b.isWildcard = false) :
    ctx.join a b = b := by
  simp only [join, ha, hb]

theorem join_wildcard_right (ha : a.isWildcard = false) (hb : b.isWildcard = true) :
    ctx.join a b = a := by
  simp only [join, ha, hb]

theorem join_object (ha : a.isWildcard = false) (hb : b.isWildcard = false)
    (hobject : a = TypeName.object ∨ b = TypeName.object) : ctx.join a b = TypeName.object := by
  simp [join, ha, hb, hobject]

theorem join_climb (ha : a.isWildcard = false) (hb : b.isWildcard = false)
    (hobject : ¬ (a = TypeName.object ∨ b = TypeName.object)) :
    ctx.join a b = ((ctx.climb a b).or (ctx.climb b a)).getD TypeName.object := by
  simp only [join, ha, hb, Bool.or_eq_true, beq_iff_eq, if_neg hobject]

/-- `c` is the least type that both `a` and `b` descend from. -/
structure IsJoin (ctx : Context) (a b c : TypeName) : Prop where
  left : ctx.Descends a c
  right : ctx.Descends b c
  least : ∀ {d}, ctx.Descends a d → ctx.Descends b d → ctx.Descends c d

theorem IsJoin.unique {c' : TypeName} (hr : ctx.Rooted) (h : ctx.IsJoin a b c)
    (h' : ctx.IsJoin a b c') (hc : ctx.contains c = true) : c = c' :=
  hr.antisymm (h.least h'.left h'.right) (h'.least h.left h.right) hc

/-- No type above `t` is a wildcard. -/
def Plain (ctx : Context) (t : TypeName) : Prop := ∀ {x}, ctx.Descends t x → x.isWildcard = false

/-- What follows a type on a walk is above it. -/
theorem descends_of_split {n : Nat} {as bs : List TypeName} (h : ctx.ancestorsN n a = as ++ c :: bs) :
    ∀ d ∈ c :: bs, ctx.Descends c d := by
  induction as generalizing n a with
  | nil =>
      cases n with
      | zero => cases h
      | succ n =>
          obtain ⟨rfl, _⟩ := List.cons.inj h
          intro d hd
          rw [← List.nil_append (a :: bs), ← h] at hd
          obtain ⟨k, _, hk⟩ := mem_ancestorsN.mp hd
          exact descends_iff.mpr ⟨k, hk⟩
  | cons x as ih =>
      cases n with
      | zero => cases h
      | succ n =>
          obtain ⟨_, htail⟩ := List.cons.inj h
          cases hp : ctx.parent? a with
          | none => simp [hp] at htail
          | some p =>
              rw [hp] at htail
              exact ih htail

/-- Climbing from `a` ends at the lowest ancestor below `Object` that `b` conforms to. -/
theorem climb_eq_some (h : ctx.climb a b = some c) :
    ctx.Descends a c ∧ c ≠ TypeName.object ∧ ctx.conforms b c = true ∧
      ∀ {d}, ctx.Descends a d → ctx.conforms b d = true → ctx.Descends c d := by
  obtain ⟨hconforms, as, bs, hsplit, hbefore⟩ := List.find?_eq_some_iff_append.mp h
  have hwalk : ctx.ancestors a = as ++ c :: (bs ++ (ctx.ancestors a).dropWhile (· != TypeName.object)) := by
    conv_lhs => rw [← List.takeWhile_append_dropWhile (p := (· != TypeName.object)) (l := ctx.ancestors a)]
    rw [hsplit, List.append_assoc, List.cons_append]
  have hbelow : c ∈ (ctx.ancestors a).takeWhile (· != TypeName.object) := by simp [hsplit]
  refine ⟨mem_ancestors.mp (by rw [hwalk]; simp), by simpa using List.mem_takeWhile_imp hbelow,
    hconforms, fun {d} had hbd => ?_⟩
  have hd : d ∈ ctx.ancestors a := mem_ancestors.mpr had
  rw [hwalk, List.mem_append] at hd
  rcases hd with hd | hd
  · have hnot := hbefore d hd
    simp [hbd] at hnot
  · exact descends_of_split hwalk d hd

theorem isJoin_of_climb (ha : ctx.Plain a) (hb : ctx.Plain b) (h : ctx.climb a b = some c) :
    ctx.IsJoin a b c := by
  obtain ⟨hac, _, hbc, hleast⟩ := climb_eq_some h
  have hconforms : ∀ {d}, ctx.Descends a d → (ctx.conforms b d = true ↔ ctx.Descends b d) :=
    fun had => conforms_iff (hb .refl) (ha had)
  exact ⟨hac, (hconforms hac).mp hbc, fun had hbd => hleast had ((hconforms had).mpr hbd)⟩

/-- Climbing from `a` in vain, `b` conforms to no ancestor but `Object`. -/
theorem eq_object_of_climb (hr : ctx.Rooted) (h : ctx.climb a b = none) {d : TypeName}
    (had : ctx.Descends a d) (hbd : ctx.conforms b d = true) : d = TypeName.object := by
  have hd : d ∈ ctx.ancestors a := mem_ancestors.mpr had
  have hwalk := List.takeWhile_append_dropWhile (p := (· != TypeName.object)) (l := ctx.ancestors a)
  rw [← hwalk, List.mem_append] at hd
  rcases hd with hd | hd
  · exact absurd hbd (List.find?_eq_none.mp h d hd)
  · -- the walk is past `Object` already
    cases hdrop : (ctx.ancestors a).dropWhile (· != TypeName.object) with
    | nil =>
        rw [hdrop] at hd
        cases hd
    | cons x rest =>
        have hx : x = TypeName.object := by
          have := List.head?_dropWhile_not (· != TypeName.object) (ctx.ancestors a)
          rw [hdrop] at this
          simpa using this
        rw [hdrop] at hd hwalk
        rw [hx] at hd hwalk
        exact hr.eq_object (descends_of_split hwalk.symm d hd)

/-- The join is the least type that both descend from. -/
theorem join_isJoin (hr : ctx.Rooted) (ha : ctx.Plain a) (hb : ctx.Plain b)
    (hac : ctx.contains a = true) (hbc : ctx.contains b = true) : ctx.IsJoin a b (ctx.join a b) := by
  have hobject : (∀ {d}, ctx.Descends a d → ctx.Descends b d → d = TypeName.object) →
      ctx.IsJoin a b TypeName.object := by
    intro hd
    refine ⟨hr.descends hac, hr.descends hbc, fun had hbd => ?_⟩
    rw [hd had hbd]
    exact .refl
  by_cases hroot : a = TypeName.object ∨ b = TypeName.object
  · rw [join_object (ha .refl) (hb .refl) hroot]
    refine hobject fun had hbd => ?_
    rcases hroot with rfl | rfl
    · exact hr.eq_object had
    · exact hr.eq_object hbd
  · rw [join_climb (ha .refl) (hb .refl) hroot]
    cases hab : ctx.climb a b with
    | some c => exact isJoin_of_climb ha hb hab
    | none =>
        cases hba : ctx.climb b a with
        | some c =>
            have hjoin := isJoin_of_climb hb ha hba
            exact ⟨hjoin.right, hjoin.left, fun had hbd => hjoin.least hbd had⟩
        | none =>
            refine hobject fun had hbd => eq_object_of_climb hr hab had ?_
            exact (conforms_iff (hb .refl) (ha had)).mpr hbd

end CoolTyping.Context
