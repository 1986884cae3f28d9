import CoolTyping.Proofs.Fixpoint
import CoolTyping.Proofs.Seeding

/-!
# Constraints and their solutions

What a program asks of the types of its variables, as a list of constraints that is read off its
text. The tree at the end of a reduction solves all of them, as far as they concern variables whose
uses do not conflict: the last sweep narrowed the entries for each constraint, and nothing changed.
-/

namespace CoolTyping

/-! ## Constraints -/

/-- What one place of a program asks of the value of an expression, which stands in `bag`. -/
inductive Constraint where
  /-- The value is an operand or a condition, and should be of type `ty`. -/
  | hasType (bag : BagId) (e : Expr) (ty : TypeName)
  /-- The call at `span` is of a method of the value. -/
  | hasMethod (bag : BagId) (e : Expr) (method : String) (argCount : Nat) (span : Span)
  /-- The value is given to the slot, seen from `slotBag`. -/
  | flow (bag : BagId) (e : Expr) (slotBag : BagId) (slot : Slot)

/-- The expression in `bag` is the value of the variable `x`, whose type is open and whose uses do
not conflict. -/
structure BagTree.OpenVariable (tree : BagTree) (ctx : Context) (bag : BagId) (e : Expr) (x : String)
    (entry : Entry) : Prop where
  named : e.variableName? = some x
  resolved : tree.get? ctx bag (.var x) = some entry
  unlocked : entry.locked = false
  unambiguous : entry.ambiguous = false

theorem BagTree.OpenVariable.name_eq {tree : BagTree} {ctx : Context} {bag : BagId} {e : Expr}
    {x name : String} {entry : Entry} (h : tree.OpenVariable ctx bag e x entry)
    (hname : e.variableName? = some name) : name = x := Option.some.inj (hname.symm.trans h.named)

/-- The type has a method of that name that takes so many arguments. -/
def Context.Answers (ctx : Context) (method : String) (argCount : Nat) (t : TypeName) : Prop :=
  ∃ owner m, ctx.method? t method = some (owner, m) ∧ m.arity = argCount

namespace Constraint

/-- Whether the tree solves the constraint, where the last sweep reported `reports`. -/
def Solved (ctx : Context) (tree : BagTree) (reports : List Report) : Constraint → Prop
  | hasType bag e ty =>
    ∀ x entry, tree.OpenVariable ctx bag e x entry → entry.candidates = TypeSet.single ty
  | hasMethod bag e method argCount span =>
    ∀ x entry, tree.OpenVariable ctx bag e x entry →
      (∀ t ∈ entry.candidates, ctx.Answers method argCount t) ∨
      (∀ t ∈ entry.candidates, ¬ ctx.Answers method argCount t) ∧
        ⟨.noMethodCandidate x method argCount, span⟩ ∈ reports
  | flow bag e slotBag slot =>
    ∀ x entry, tree.OpenVariable ctx bag e x entry →
      ∀ target, tree.get? ctx slotBag slot = some target → target.ambiguous = false →
        ∀ t ∈ entry.candidates, ∃ u ∈ target.candidates, ctx.conforms t u = true

/-- The bag of the scope that a binder opens inside `outer`. -/
def scopeOf (tree : BagTree) (outer : BagId) (b : Binder) : BagId := (tree.bagOf? b.id).getD outer

/-- The bag in which the body of a `let` stands. -/
def letScope (tree : BagTree) (bag : BagId) (bindings : List (Binder × Option Expr)) : BagId :=
  bindings.foldl (fun outer b => scopeOf tree outer b.1) bag

mutual

/-- The constraints in an expression that stands in `bag`. -/
def ofExpr (tree : BagTree) (bag : BagId) : Expr → List Constraint
  | .assign _ name value => .flow bag value bag (.var name) :: ofExpr tree bag value
  | .dispatch span receiver method args =>
    ofReceiver tree bag method args.length span receiver ++ ofExprs tree bag args
  | .staticDispatch _ receiver _ _ args => ofExpr tree bag receiver ++ ofExprs tree bag args
  | .cond _ test thenBranch elseBranch =>
    .hasType bag test TypeName.bool ::
      (ofExpr tree bag test ++ ofExpr tree bag thenBranch ++ ofExpr tree bag elseBranch)
  | .loop _ test body =>
    .hasType bag test TypeName.bool :: (ofExpr tree bag test ++ ofExpr tree bag body)
  | .letIn _ bindings body =>
    ofBindings tree bag bindings ++ ofExpr tree (letScope tree bag bindings) body
  | .caseOf _ scrutinee arms => ofExpr tree bag scrutinee ++ ofArms tree bag arms
  | .block _ body => ofExprs tree bag body
  | .binary _ op left right =>
    (if op.isArithmetic then [.hasType bag left TypeName.int, .hasType bag right TypeName.int]
      else []) ++ (ofExpr tree bag left ++ ofExpr tree bag right)
  | .unary _ op operand =>
    (match op with
      | .not => [.hasType bag operand TypeName.bool]
      | .negate => [.hasType bag operand TypeName.int]
      | .isvoid => []) ++ ofExpr tree bag operand
  | .paren _ inner => ofExpr tree bag inner
  | .new .. | .ident .. | .int .. | .str .. | .bool .. => []
termination_by structural e => e

def ofReceiver (tree : BagTree) (bag : BagId) (method : String) (argCount : Nat) (span : Span) :
    Option Expr → List Constraint
  | some e => .hasMethod bag e method argCount span :: ofExpr tree bag e
  | none => []
termination_by structural receiver => receiver

def ofExprs (tree : BagTree) (bag : BagId) : List Expr → List Constraint
  | [] => []
  | e :: es => ofExpr tree bag e ++ ofExprs tree bag es
termination_by structural es => es

/-- The constraints in an initial value, which is given to the variable `name` seen from `inner`. -/
def ofInit (tree : BagTree) (bag inner : BagId) (name : String) : Option Expr → List Constraint
  | some e => .flow bag e inner (.var name) :: ofExpr tree bag e
  | none => []
termination_by structural init => init

def ofBindings (tree : BagTree) (bag : BagId) : List (Binder × Option Expr) → List Constraint
  | [] => []
  | (b, init) :: bindings =>
    ofInit tree bag (scopeOf tree bag b) b.name init ++
      ofBindings tree (scopeOf tree bag b) bindings
termination_by structural bindings => bindings

def ofArms (tree : BagTree) (bag : BagId) : List (Binder × Expr) → List Constraint
  | [] => []
  | (b, body) :: arms => ofExpr tree (scopeOf tree bag b) body ++ ofArms tree bag arms
termination_by structural arms => arms

end

/-- The constraints in a feature of the class with the bag `bag`. -/
def ofFeature (tree : BagTree) (bag : BagId) : Feature → List Constraint
  | .attr a => ofInit tree bag bag a.name a.init
  | .method m =>
    (tree.bagOf? m.id).elim [] fun inner =>
      .flow inner m.body inner (.result m.name) :: ofExpr tree inner m.body

def ofClass (tree : BagTree) (c : ClassDecl) : List Constraint :=
  (tree.bagOf? c.id).elim [] fun bag => c.features.flatMap (ofFeature tree bag)

end Constraint

/-- The constraints in the registered classes. -/
def ClassTable.constraints (t : ClassTable) (tree : BagTree) : List Constraint :=
  t.classes.flatMap (Constraint.ofClass tree)

/-! ## Uses that change nothing -/

/-- A use that changes nothing fits all candidates of an entry without conflict. -/
theorem Entry.fits_of_narrow_eq {e : Entry} {incoming : Candidates} (h : e.narrow incoming = e)
    (hl : e.locked = false) (ha : e.ambiguous = false) :
    e.candidates.toList ≠ [] ∧ ∀ t ∈ e.candidates, t ∈ incoming.types := by
  rcases narrow_cases e incoming with
    ⟨hl', _⟩ | ⟨_, _, heq⟩ | ⟨_, _, hc, ⟨_, heq⟩ | ⟨_, heq⟩⟩
  · rw [hl] at hl'; cases hl'
  · have htrue : e.ambiguous = true := by rw [← h, heq]
    rw [ha] at htrue; cases htrue
  · have htrue : e.ambiguous = true := by rw [← h, heq]
    rw [ha] at htrue; cases htrue
  · have hcand : e.candidates = e.candidates.inter incoming.types := by
      conv_lhs => rw [← h, heq]
    rw [hcand]
    exact ⟨hc, fun t ht => (TypeSet.mem_inter.mp ht).2⟩

theorem TypeSet.eq_single {s : TypeSet} {t : TypeName} (hne : s.toList ≠ [])
    (h : ∀ u ∈ s, u = t) : s = single t := by
  refine ext_toList ?_
  obtain ⟨l, hl⟩ := s
  cases l with
  | nil => exact absurd rfl hne
  | cons u us =>
      cases us with
      | nil => obtain rfl := h u List.mem_cons_self; rfl
      | cons v us =>
          have huv : u = v := (h u List.mem_cons_self).trans
            (h v (List.mem_cons_of_mem _ List.mem_cons_self)).symm
          simp [huv] at hl

theorem Entries.get?_modify (es : Entries) (slot : Slot) (f : Entry → Entry) :
    (es.modify slot f).get? slot = (es.get? slot).map f := by
  unfold get? modify
  dsimp only
  induction es.toList with
  | nil => rfl
  | cons x xs ih =>
      obtain ⟨s, e⟩ := x
      by_cases hs : slot = s
      · subst hs
        simp
      · have hne : (slot == s) = false := by simp [hs]
        simpa [List.lookup_cons, hne] using ih

theorem Entries.get?_modify_of_ne (es : Entries) {s slot : Slot} (hs : s ≠ slot) (f : Entry → Entry) :
    (es.modify slot f).get? s = es.get? s := by
  unfold get? modify
  dsimp only
  induction es.toList with
  | nil => rfl
  | cons x xs ih =>
      obtain ⟨s', e⟩ := x
      by_cases hs' : s = s'
      · subst hs'
        simp [hs]
      · have hne : (s == s') = false := by simp [hs']
        simpa [List.lookup_cons, hne] using ih

namespace BagTree

variable {tree : BagTree} {ctx : Context} {i : BagId} {slot : Slot} {incoming : Candidates}

/-- A use changes the entry that the slot refers to, and no other. -/
theorem entryAt?_narrow (j : BagId) (s : Slot) : (tree.narrow ctx i slot incoming).entryAt? j s =
    if tree.resolve? ctx i slot = some j ∧ s = slot then (tree.entryAt? j s).map (·.narrow incoming)
    else tree.entryAt? j s := by
  unfold narrow
  cases hr : tree.resolve? ctx i slot with
  | none => simp
  | some k =>
      simp only [modify, entryAt?, List.getElem?_modify, Option.some.injEq]
      by_cases hkj : k = j
      · cases hb : tree.bags[j]? with
        | none => simp
        | some b =>
            by_cases hs : s = slot
            · simp [hkj, hs, Entries.get?_modify]
            · simp [hkj, hs, Entries.get?_modify_of_ne]
      · simp [hkj]

theorem narrow_eq_self {e : Entry} (h : tree.narrow ctx i slot incoming = tree)
    (he : tree.get? ctx i slot = some e) : e.narrow incoming = e := by
  obtain ⟨j, hj, he⟩ := Option.bind_eq_some_iff.mp he
  have hentry : (tree.narrow ctx i slot incoming).entryAt? j slot = _ := entryAt?_narrow j slot
  rw [if_pos ⟨hj, rfl⟩, h, he] at hentry
  exact (Option.some.inj hentry).symm

end BagTree

namespace Sweep

variable {α β : Type} {T : BagTree} {Γ : Env} {bag inner : BagId}

/-! ## Computations that change nothing -/

/-- The computation lets the tree evolve and adds reports. Where it starts from `T` and leaves it as
it is, `post` holds of what it gives and of all reports that follow. -/
structure Settles (T : BagTree) (x : Sweep α) (post : α → List Report → Prop) : Prop where
  evolvesTo : ∀ s : State, s.tree.EvolvesTo (next x s).tree
  reports : ∀ s : State, s.reports <+: (next x s).reports
  settled : ∀ s : State, s.tree = T → (next x s).tree = T →
    ∀ rs, (next x s).reports <+: rs → post (result x s) rs

namespace Settles

variable {post : α → List Report → Prop} {post' : β → List Report → Prop}

theorem mono {x : Sweep α} {weaker : α → List Report → Prop} (h : Settles T x post)
    (hw : ∀ a rs, post a rs → weaker a rs) : Settles T x weaker :=
  ⟨h.evolvesTo, h.reports, fun s hs hs' rs hrs => hw _ _ (h.settled s hs hs' rs hrs)⟩

theorem pure {a : α} (h : ∀ rs, post a rs) : Settles T (Pure.pure a) post :=
  ⟨fun s => .refl s.tree, fun _ => List.prefix_refl _, fun _ _ _ rs _ => h rs⟩

/-- The tree between the two parts is `T` as well, since it lies between equal trees. -/
theorem bind {x : Sweep α} {f : α → Sweep β} (hx : Settles T x post)
    (hf : ∀ a, Settles T (f a) (fun b rs => post a rs → post' b rs)) :
    Settles T (x >>= f) post' where
  evolvesTo s := (hx.evolvesTo s).trans ((hf _).evolvesTo _)
  reports s := (hx.reports s).trans ((hf _).reports _)
  settled s hs hs' rs hrs := by
    have hmid : (next x s).tree = T :=
      ((hx.evolvesTo s).eq_of_between ((hf _).evolvesTo _) (hs'.trans hs.symm)).trans hs
    refine (hf _).settled _ hmid hs' rs hrs (hx.settled s hs hmid rs ?_)
    exact ((hf _).reports _).trans hrs

theorem get : Settles T (MonadState.get : Sweep State) (fun s _ => s.tree = T) :=
  ⟨fun s => .refl s.tree, fun _ => List.prefix_refl _, fun _ hs _ _ _ => hs⟩

theorem ite {c : Prop} [Decidable c] {x y : Sweep α} (hx : c → Settles T x post)
    (hy : ¬ c → Settles T y post) : Settles T (if c then x else y) post := by
  by_cases hc : c
  · rw [if_pos hc]; exact hx hc
  · rw [if_neg hc]; exact hy hc

theorem forM {f : α → Sweep Unit} {post : α → List Report → Prop} {as : List α}
    (h : ∀ a ∈ as, Settles T (f a) (fun _ => post a)) :
    Settles T (as.forM f) (fun _ rs => ∀ a ∈ as, post a rs) := by
  induction as with
  | nil => exact pure fun _ _ ha => absurd ha List.not_mem_nil
  | cons a as ih =>
      refine (h a List.mem_cons_self).bind fun _ => ?_
      refine (ih fun b hb => h b (List.mem_cons_of_mem _ hb)).mono fun _ _ has ha => ?_
      exact List.forall_mem_cons.mpr ⟨ha, has⟩

end Settles

theorem report_settles (error : SemanticError) (span : Span) :
    Settles T (report error span) (fun _ rs => ⟨error, span⟩ ∈ rs) :=
  ⟨fun s => .refl s.tree, fun _ => List.prefix_append _ _,
    fun _ _ _ _ hrs => hrs.subset (List.mem_append_right _ List.mem_cons_self)⟩

theorem narrow_settles (slot : Slot) (incoming : Candidates) :
    Settles T (narrow Γ bag slot incoming)
      (fun _ _ => ∀ e, T.get? Γ.context bag slot = some e → e.narrow incoming = e) :=
  ⟨fun _ => BagTree.evolvesTo_narrow _ _ _ _ _, fun _ => List.prefix_refl _,
    fun _ hs hs' _ _ _ he => BagTree.narrow_eq_self (hs ▸ hs') he⟩

theorem snapshot_settles (slot : Slot) :
    Settles T (snapshot Γ bag slot)
      (fun o _ => o = (T.get? Γ.context bag slot).map Entry.snapshot) :=
  Settles.get.bind fun s => .pure fun _ hs => by rw [hs]

theorem everything_settles : Settles T everything (fun _ _ => True) :=
  Settles.get.bind fun _ => .pure fun _ _ => trivial

theorem scopeBag_settles (b : Binder) :
    Settles T (scopeBag b.id bag) (fun inner _ => inner = Constraint.scopeOf T bag b) :=
  Settles.get.bind fun s => .pure fun _ hs => by rw [hs]; rfl

theorem narrowVar_settles (e : Expr) (incoming : Candidates) :
    Settles T (narrowVar Γ bag e incoming)
      (fun _ _ => ∀ x entry, T.OpenVariable Γ.context bag e x entry →
        entry.candidates.toList ≠ [] ∧ ∀ t ∈ entry.candidates, t ∈ incoming.types) := by
  unfold narrowVar
  split
  · rename_i name hname
    refine (narrow_settles _ _).mono fun _ _ h x entry hx => ?_
    obtain rfl := hx.name_eq hname
    exact Entry.fits_of_narrow_eq (h entry hx.resolved) hx.unlocked hx.unambiguous
  · rename_i hname
    refine .pure fun _ x entry hx => ?_
    have hnamed := hx.named
    rw [hname] at hnamed
    cases hnamed

theorem hasType_solved (e : Expr) (ty : TypeName) (rs : List Report)
    (h : ∀ x entry, T.OpenVariable Γ.context bag e x entry →
      entry.candidates.toList ≠ [] ∧ ∀ t ∈ entry.candidates, t ∈ (Candidates.single ty).types) :
    (Constraint.hasType bag e ty).Solved Γ.context T rs := by
  intro x entry hx
  obtain ⟨hne, hall⟩ := h x entry hx
  exact TypeSet.eq_single hne fun t ht => TypeSet.mem_single.mp (hall t ht)

theorem restrict_settles (value : Expr) (target : Candidates) :
    Settles T (restrict Γ bag value target)
      (fun _ _ => target.ambiguous = false → ∀ x entry, T.OpenVariable Γ.context bag value x entry →
        ∀ t ∈ entry.candidates, ∃ u ∈ target.types, Γ.context.conforms t u = true) := by
  unfold restrict
  split
  · rename_i hname
    refine .pure fun _ _ x entry hx => ?_
    have hnamed := hx.named
    rw [hname] at hnamed
    cases hnamed
  rename_i name hname
  refine Settles.get.bind fun s => ?_
  split
  · rename_i hnone
    refine .pure fun _ hs _ x entry hx => ?_
    obtain rfl := hx.name_eq hname
    rw [hs, hx.resolved] at hnone
    cases hnone
  rename_i e he
  refine .ite (fun hskip => .pure fun _ hs ha x entry hx => ?_) fun _ => ?_
  · obtain rfl := hx.name_eq hname
    rw [hs, hx.resolved] at he
    cases he
    simp [ha, hx.unlocked, hx.unambiguous] at hskip
  · refine (narrow_settles _ _).mono fun _ _ h hs _ x entry hx t ht => ?_
    obtain rfl := hx.name_eq hname
    rw [hs, hx.resolved] at he
    cases he
    -- Nothing was dropped, so all candidates were among those that `target` accepts.
    have hfits := (Entry.fits_of_narrow_eq (h e hx.resolved) hx.unlocked hx.unambiguous).2 t ht
    have hany := (TypeSet.mem_filter.mp hfits).2
    exact List.any_eq_true.mp hany

theorem store_settles (value : Expr) (found : Candidates) (slotBag : BagId) (slot : Slot) :
    Settles T (store Γ bag value found slotBag slot)
      (fun _ rs => (Constraint.flow bag value slotBag slot).Solved Γ.context T rs) := by
  refine (narrow_settles _ _).bind fun _ => (snapshot_settles _).bind fun o => ?_
  cases o with
  | none =>
      refine .pure fun _ ho _ x entry hx target htarget => ?_
      rw [htarget] at ho
      cases ho
  | some c =>
      refine (restrict_settles value c).mono fun _ _ h ho _ x entry hx target htarget ha t ht => ?_
      rw [htarget] at ho
      cases ho
      exact h ha x entry hx t ht

/-! ## Expressions -/

/-- All the constraints are solved. -/
def Solves (Γ : Env) (T : BagTree) (rs : List Report) (cs : List Constraint) : Prop :=
  ∀ c ∈ cs, c.Solved Γ.context T rs

theorem Solves.append {rs : List Report} {cs cs' : List Constraint} (h : Solves Γ T rs cs)
    (h' : Solves Γ T rs cs') : Solves Γ T rs (cs ++ cs') := by
  intro c hc
  rcases List.mem_append.mp hc with hc | hc
  · exact h c hc
  · exact h' c hc

theorem Solves.cons {rs : List Report} {c : Constraint} {cs : List Constraint}
    (h : c.Solved Γ.context T rs) (h' : Solves Γ T rs cs) : Solves Γ T rs (c :: cs) :=
  List.forall_mem_cons.mpr ⟨h, h'⟩

theorem Solves.nil {rs : List Report} : Solves Γ T rs [] := fun _ hc => absurd hc List.not_mem_nil

/-- What holds after an expression in `bag` was visited, with the candidates `found`: its constraints
are solved, and the value of a variable has the candidates of the variable. -/
structure Visited (Γ : Env) (T : BagTree) (bag : BagId) (e : Expr) (found : Candidates)
    (rs : List Report) : Prop where
  solved : Solves Γ T rs (Constraint.ofExpr T bag e)
  value : ∀ x entry, e.variableName? = some x → T.get? Γ.context bag (.var x) = some entry →
    found = entry.snapshot

theorem Visited.of_solves {e : Expr} {found : Candidates} {rs : List Report}
    (hn : e.variableName? = none) (h : Solves Γ T rs (Constraint.ofExpr T bag e)) :
    Visited Γ T bag e found rs :=
  ⟨h, fun _ _ hx => by rw [hn] at hx; cases hx⟩

theorem narrowReceiver_settles (receiver : Option Expr) (incoming : Candidates) :
    Settles T (narrowReceiver Γ bag receiver incoming)
      (fun _ _ => ∀ e ∈ receiver, ∀ x entry, T.OpenVariable Γ.context bag e x entry →
        ∀ t ∈ entry.candidates, t ∈ incoming.types) := by
  cases receiver with
  | none => exact .pure fun _ _ he => by cases he
  | some e =>
      refine (narrowVar_settles e incoming).mono fun _ _ h e' he' x entry hx => ?_
      cases he'
      exact (h x entry hx).2

theorem narrowTo_settles (e : Expr) (restriction : Option Candidates) :
    Settles T (narrowTo Γ bag e restriction) (fun _ _ => True) := by
  cases restriction with
  | none => exact .pure fun _ => trivial
  | some c => exact (narrowVar_settles e c).mono fun _ _ _ => trivial

theorem narrowParam_settles (methodBag : Option BagId) (name : String) (found : Candidates) :
    Settles T (narrowParam Γ methodBag name found) (fun _ _ => True) := by
  cases methodBag with
  | none => exact .pure fun _ => trivial
  | some bag => exact (narrow_settles _ _).mono fun _ _ _ => trivial

theorem paramTypes_settles (methodBag : Option BagId) (param : String × TypeName) :
    Settles T (paramTypes Γ methodBag param) (fun _ _ => True) := by
  cases methodBag with
  | none => exact .pure fun _ => trivial
  | some bag => exact (snapshot_settles _).bind fun _ => .pure fun _ _ => trivial

theorem fitting?_isSome {ctx : Context} {t : TypeName} {method : String} {argCount : Nat} :
    (fitting? ctx t method argCount).isSome = true ↔ ctx.Answers method argCount t := by
  constructor
  · intro h
    obtain ⟨⟨owner, m⟩, hm⟩ := Option.isSome_iff_exists.mp h
    exact ⟨owner, m, fitting?_eq_some hm⟩
  · rintro ⟨owner, m, hm, harity⟩
    simp [fitting?, hm, harity]

/-- The types that a call with `argCount` arguments may be made on. -/
def fits (Γ : Env) (found : Candidates) (method : String) (argCount : Nat) : TypeSet :=
  found.types.filter fun t => (fitting? Γ.context t method argCount).isSome

theorem mem_fits {found : Candidates} {method : String} {argCount : Nat} {t : TypeName} :
    t ∈ fits Γ found method argCount ↔ t ∈ found.types ∧ Γ.context.Answers method argCount t := by
  rw [fits, TypeSet.mem_filter, fitting?_isSome]

/-- A method that is called takes as many arguments as there are. -/
theorem arity_of_onlyMethod? {found : Candidates} {method : String} {argCount : Nat}
    {owner : TypeName} {m : Signature}
    (h : onlyMethod? Γ.context (fits Γ found method argCount) method = some (owner, m)) :
    m.arity = argCount := by
  obtain ⟨t, ht, hm⟩ := onlyMethod?_eq_some h
  have hfits : t ∈ fits Γ found method argCount := by
    rw [← TypeSet.mem_toList, ht]
    exact List.mem_cons_self
  obtain ⟨owner', m', hm', harity⟩ := (mem_fits.mp hfits).2
  cases hm.symm.trans hm'
  exact harity

section Receiver

variable {receiver : Option Expr} {found : Candidates} {method : String} {argCount : Nat}
  {span : Span} {rs : List Report}

theorem receiver_solves (hv : ∀ e ∈ receiver, Visited Γ T bag e found rs)
    (h : ∀ e ∈ receiver, (Constraint.hasMethod bag e method argCount span).Solved Γ.context T rs) :
    Solves Γ T rs (Constraint.ofReceiver T bag method argCount span receiver) := by
  cases receiver with
  | none => exact .nil
  | some e => exact .cons (h e rfl) (hv e rfl).solved

/-- No candidate has the method, and the call was reported. -/
theorem receiver_solves_of_report (hv : ∀ e ∈ receiver, Visited Γ T bag e found rs)
    (hempty : (fits Γ found method argCount).isEmpty = true)
    (hreport : ⟨.noMethodCandidate (describe receiver found) method argCount, span⟩ ∈ rs) :
    Solves Γ T rs (Constraint.ofReceiver T bag method argCount span receiver) := by
  refine receiver_solves hv fun e he x entry hx => Or.inr ⟨fun t ht hanswers => ?_, ?_⟩
  · have hfound : t ∈ found.types := by rwa [(hv e he).value x entry hx.named hx.resolved]
    exact List.ne_nil_of_mem (mem_fits.mpr ⟨hfound, hanswers⟩) (TypeSet.isEmpty_iff.mp hempty)
  · obtain rfl := Option.mem_def.mp he
    simpa [describe, hx.named] using hreport

/-- The receiver was narrowed to the types that have the method. -/
theorem receiver_solves_of_fits (hv : ∀ e ∈ receiver, Visited Γ T bag e found rs)
    (h : ∀ e ∈ receiver, ∀ x entry, T.OpenVariable Γ.context bag e x entry →
      ∀ t ∈ entry.candidates, t ∈ fits Γ found method argCount) :
    Solves Γ T rs (Constraint.ofReceiver T bag method argCount span receiver) :=
  receiver_solves hv fun e he x entry hx =>
    Or.inl fun t ht => (mem_fits.mp (h e he x entry hx t ht)).2

end Receiver

mutual

theorem visit_settles {bag : BagId} {restriction : Option Candidates} :
    (e : Expr) → Settles T (visit Γ bag restriction e) (Visited Γ T bag e)
  | .int .. => .pure fun _ => .of_solves rfl .nil
  | .str .. => .pure fun _ => .of_solves rfl .nil
  | .bool .. => .pure fun _ => .of_solves rfl .nil
  | .ident _ name => by
      refine (snapshot_settles _).bind fun o => ?_
      cases o with
      | none =>
          refine everything_settles.mono fun _ _ _ ho => ⟨.nil, fun x entry hx he => ?_⟩
          cases hx
          rw [he] at ho
          cases ho
      | some c =>
          refine .pure fun _ ho => ⟨.nil, fun x entry hx he => ?_⟩
          cases hx
          rw [he] at ho
          exact Option.some.inj ho
  | .new _ ty => by
      refine .ite (fun _ => .pure fun _ => .of_solves rfl .nil) fun _ => ?_
      refine .ite (fun _ => ?_) fun _ => .pure fun _ => .of_solves rfl .nil
      exact everything_settles.mono fun _ _ _ => .of_solves rfl .nil
  | .paren _ inner => (visit_settles inner).mono fun _ _ h => ⟨h.solved, h.value⟩
  | .assign _ name value => by
      refine (snapshot_settles _).bind fun target => ?_
      refine (visit_settles value).bind fun found => ?_
      refine (store_settles _ _ _ _).bind fun _ => (snapshot_settles _).bind fun o => ?_
      refine .pure fun _ ho hflow hvalue _ => ⟨.cons hflow hvalue.solved, fun x entry hx he => ?_⟩
      cases hx
      rw [ho, he]
      rfl
  | .block _ body => (visitBlock_settles body).mono fun _ _ h => .of_solves rfl h
  | .binary _ op left right => by
      refine .ite (fun hop => ?_) fun hop => ?_
      · refine (visit_settles left).bind fun _ => (visit_settles right).bind fun _ => ?_
        refine (narrowVar_settles _ _).bind fun _ => (narrowVar_settles _ _).bind fun _ => ?_
        refine .pure fun _ hr hl hright hleft => .of_solves rfl ?_
        rw [Constraint.ofExpr, if_pos hop]
        exact .cons (hasType_solved _ _ _ hl)
          (.cons (hasType_solved _ _ _ hr) (hleft.solved.append hright.solved))
      · refine (visit_settles left).bind fun _ => (visit_settles right).bind fun _ => ?_
        refine .pure fun _ hright hleft => .of_solves rfl ?_
        rw [Constraint.ofExpr, if_neg hop]
        exact hleft.solved.append hright.solved
  | .unary _ op operand => by
      cases op with
      | not =>
          refine (visit_settles operand).bind fun _ => (narrowVar_settles _ _).bind fun _ => ?_
          refine .pure fun _ h hoperand => .of_solves rfl ?_
          exact .cons (hasType_solved _ _ _ h) hoperand.solved
      | negate =>
          refine (visit_settles operand).bind fun _ => (narrowVar_settles _ _).bind fun _ => ?_
          refine .pure fun _ h hoperand => .of_solves rfl ?_
          exact .cons (hasType_solved _ _ _ h) hoperand.solved
      | isvoid =>
          exact (visit_settles operand).bind fun _ => .pure fun _ h => .of_solves rfl h.solved
  | .loop _ test body => by
      refine (visit_settles test).bind fun _ => (narrowVar_settles _ _).bind fun _ => ?_
      refine (visit_settles body).bind fun _ => .pure fun _ hbody htest hsub => .of_solves rfl ?_
      exact .cons (hasType_solved _ _ _ htest) (hsub.solved.append hbody.solved)
  | .cond _ test thenBranch elseBranch => by
      refine (visit_settles test).bind fun _ => (narrowVar_settles _ _).bind fun _ => ?_
      refine (visit_settles thenBranch).bind fun _ => (visit_settles elseBranch).bind fun _ => ?_
      refine .pure fun _ helse hthen htest hsub => .of_solves rfl ?_
      exact .cons (hasType_solved _ _ _ htest)
        ((hsub.solved.append hthen.solved).append helse.solved)
  | .letIn _ bindings body => by
      refine (visitBindings_settles bindings).bind fun scope => ?_
      refine (visit_settles body).mono fun _ _ hbody hscope => .of_solves rfl ?_
      obtain ⟨rfl, hbindings⟩ := hscope
      exact hbindings.append hbody.solved
  | .caseOf _ scrutinee arms => by
      refine (visit_settles scrutinee).bind fun _ => ?_
      refine (visitArms_settles arms).mono fun _ _ harms hs => .of_solves rfl ?_
      exact hs.solved.append harms
  | .dispatch span receiver method args => by
      refine (visitReceiver_settles receiver).bind fun found => ?_
      refine .ite (fun hempty => ?_) fun _ => ?_
      · refine (report_settles _ _).bind fun _ => (visitAll_settles args).bind fun _ => ?_
        refine everything_settles.mono fun _ _ _ hargs hreport hreceiver => .of_solves rfl ?_
        exact (receiver_solves_of_report hreceiver hempty hreport).append hargs
      refine (narrowReceiver_settles receiver _).bind fun _ => ?_
      split
      · rename_i owner m hm
        -- The method takes as many arguments as there are, so all of them are visited.
        have harity := arity_of_onlyMethod? hm
        refine Settles.get.bind fun _ => ?_
        refine (visitArgs_settles m.params args (Nat.le_of_eq harity.symm)).bind fun _ => ?_
        refine Settles.get.bind fun _ => .pure fun _ _ hargs _ hnarrow hreceiver => ?_
        exact .of_solves rfl ((receiver_solves_of_fits hreceiver hnarrow).append hargs)
      · refine Settles.get.bind fun _ => (visitAll_settles args).bind fun _ => ?_
        refine .pure fun _ hargs _ hnarrow hreceiver => ?_
        exact .of_solves rfl ((receiver_solves_of_fits hreceiver hnarrow).append hargs)
  | .staticDispatch span receiver ancestor method args => by
      refine (visit_settles receiver).bind fun found => ?_
      dsimp only
      split
      · refine (report_settles _ _).bind fun _ => (visitAll_settles args).bind fun _ => ?_
        refine everything_settles.mono fun _ _ _ hargs _ hreceiver => .of_solves rfl ?_
        exact hreceiver.solved.append hargs
      · rename_i owner m hm
        have harity := (fitting?_eq_some hm).2
        refine Settles.get.bind fun _ => ?_
        refine (visitArgs_settles m.params args (Nat.le_of_eq harity.symm)).bind fun _ => ?_
        refine .ite (fun _ => .pure fun _ hargs _ hreceiver => ?_) fun _ => ?_
        · exact .of_solves rfl (hreceiver.solved.append hargs)
        refine Settles.get.bind fun _ => .pure fun _ _ hargs _ hreceiver => ?_
        exact .of_solves rfl (hreceiver.solved.append hargs)

theorem visitReceiver_settles {bag : BagId} :
    (receiver : Option Expr) → Settles T (visitReceiver Γ bag receiver)
      (fun found rs => ∀ e ∈ receiver, Visited Γ T bag e found rs)
  | some e => (visit_settles e).mono fun _ _ h e' he' => by cases he'; exact h
  | none => .pure fun _ _ he => by cases he

theorem visitAll_settles {bag : BagId} :
    (es : List Expr) → Settles T (visitAll Γ bag es)
      (fun _ rs => Solves Γ T rs (Constraint.ofExprs T bag es))
  | [] => .pure fun _ => .nil
  | e :: es => by
      refine (visit_settles e).bind fun _ => ?_
      exact (visitAll_settles es).mono fun _ _ hes he => he.solved.append hes

theorem visitBlock_settles {bag : BagId} {restriction : Option Candidates} :
    (es : List Expr) → Settles T (visitBlock Γ bag restriction es)
      (fun _ rs => Solves Γ T rs (Constraint.ofExprs T bag es))
  | [] => .pure fun _ => .nil
  | [e] => by
      refine (visit_settles e).bind fun _ => (narrowTo_settles _ _).bind fun _ => ?_
      exact .pure fun _ _ he => he.solved.append .nil
  | e :: e' :: es => by
      refine (visit_settles e).bind fun _ => ?_
      exact (visitBlock_settles (e' :: es)).mono fun _ _ hes he => he.solved.append hes

/-- No argument is left out where there are parameters enough. -/
theorem visitArgs_settles {bag : BagId} {methodBag : Option BagId} :
    (params : List (String × TypeName)) → (es : List Expr) → es.length ≤ params.length →
      Settles T (visitArgs Γ bag methodBag params es)
        (fun _ rs => Solves Γ T rs (Constraint.ofExprs T bag es))
  | _, [], _ => by unfold visitArgs; exact .pure fun _ => .nil
  | [], _ :: _, h => absurd h (Nat.not_succ_le_zero _)
  | param :: params, e :: es, h => by
      refine (paramTypes_settles _ _).bind fun types => (visit_settles e).bind fun _ => ?_
      refine (narrowParam_settles _ _ _).bind fun _ => (narrowVar_settles _ _).bind fun _ => ?_
      refine (visitArgs_settles params es (Nat.le_of_succ_le_succ h)).mono fun _ _ hes _ _ he _ => ?_
      exact he.solved.append hes

theorem visitInit_settles {bag inner : BagId} {name : String} :
    (init : Option Expr) → Settles T (visitInit Γ bag inner name init)
      (fun _ rs => Solves Γ T rs (Constraint.ofInit T bag inner name init))
  | some e => by
      refine (visit_settles e).bind fun found => ?_
      exact (store_settles _ _ _ _).mono fun _ _ hflow he => .cons hflow he.solved
  | none => .pure fun _ => .nil

theorem visitBindings_settles {bag : BagId} :
    (bindings : List (Binder × Option Expr)) → Settles T (visitBindings Γ bag bindings)
      (fun scope rs => scope = Constraint.letScope T bag bindings ∧
        Solves Γ T rs (Constraint.ofBindings T bag bindings))
  | [] => .pure fun _ => ⟨rfl, .nil⟩
  | (b, init) :: bindings => by
      refine (scopeBag_settles b).bind fun inner => (visitInit_settles init).bind fun _ => ?_
      refine (visitBindings_settles bindings).mono fun _ _ hbs hinit hinner => ?_
      obtain rfl := hinner
      exact ⟨hbs.1, hinit.append hbs.2⟩

theorem visitArms_settles {bag : BagId} {acc : Candidates} :
    (arms : List (Binder × Expr)) → Settles T (visitArms Γ bag acc arms)
      (fun _ rs => Solves Γ T rs (Constraint.ofArms T bag arms))
  | [] => .pure fun _ => .nil
  | (b, body) :: arms => by
      refine (scopeBag_settles b).bind fun inner => (visit_settles body).bind fun _ => ?_
      refine (visitArms_settles arms).mono fun _ _ harms hbody hinner => ?_
      obtain rfl := hinner
      exact hbody.solved.append harms

end

/-! ## Classes -/

theorem feature_settles (f : Feature) :
    Settles T (feature Γ bag f) (fun _ rs => Solves Γ T rs (Constraint.ofFeature T bag f)) := by
  cases f with
  | attr a => exact visitInit_settles a.init
  | method m =>
      refine Settles.get.bind fun s => ?_
      cases hbag : s.tree.bagOf? m.id with
      | none =>
          refine .pure fun _ hs => ?_
          rw [hs] at hbag
          rw [Constraint.ofFeature, hbag]
          exact .nil
      | some inner =>
          refine (visit_settles m.body).bind fun found => ?_
          refine (store_settles _ _ _ _).mono fun _ _ hflow hbody hs => ?_
          rw [hs] at hbag
          rw [Constraint.ofFeature, hbag]
          exact .cons hflow hbody.solved

theorem classDecl_settles (ctx : Context) (c : ClassDecl) :
    Settles T (classDecl ctx c) (fun _ rs => Solves ⟨ctx, c.name⟩ T rs (Constraint.ofClass T c)) := by
  refine Settles.get.bind fun s => ?_
  cases hbag : s.tree.bagOf? c.id with
  | none =>
      refine .pure fun _ hs => ?_
      rw [hs] at hbag
      rw [Constraint.ofClass, hbag]
      exact .nil
  | some bag =>
      refine (Settles.forM fun f _ => feature_settles f).mono fun _ _ hfeatures hs => ?_
      rw [hs] at hbag
      rw [Constraint.ofClass, hbag]
      intro k hk
      obtain ⟨f, hf, hk⟩ := List.mem_flatMap.mp hk
      exact hfeatures f hf k hk

end Sweep

/-- The constraints are solved where a sweep changes nothing. -/
theorem ClassTable.solved_of_sweep {t : ClassTable} {T : BagTree} (h : (t.sweep T).1 = T) :
    ∀ k ∈ t.constraints T, k.Solved t.context T (t.sweep T).2 := by
  intro k hk
  obtain ⟨c, hc, hk⟩ := List.mem_flatMap.mp hk
  have hall : Sweep.Settles T (t.classes.forM (Sweep.classDecl t.context)) _ :=
    .forM fun c _ => Sweep.classDecl_settles t.context c
  exact hall.settled ⟨T, []⟩ rfl h _ (List.prefix_refl _) c hc k hk

theorem Constraint.Solved.mono {ctx : Context} {T : BagTree} {rs rs' : List Report} {k : Constraint}
    (h : k.Solved ctx T rs) (hrs : ∀ r ∈ rs, r ∈ rs') : k.Solved ctx T rs' := by
  cases k with
  | hasType bag e ty => exact h
  | hasMethod bag e method argCount span =>
      exact fun x entry hx => (h x entry hx).imp_right fun hnone => ⟨hnone.1, hrs _ hnone.2⟩
  | flow bag e slotBag slot => exact h

/-- A reduction of the first tree ends in a tree that has a bag for every scope of the registered
classes and solves all their constraints. -/
theorem ClassTable.reduce_solves {t : ClassTable} {maxSweeps : Option Nat} {r : Reduction}
    {T : BagTree} (h : t.reduce maxSweeps t.seed = (.ok r, T)) :
    (∀ c ∈ t.classes, ∀ o ∈ Seed.classOpeners c, (T.bagOf? (o.id c)).isSome = true) ∧
      ∀ k ∈ t.constraints T, k.Solved t.context T r.diagnostics := by
  obtain ⟨n, hn, rfl, rfl⟩ := settlesAt_of_reduce h
  refine ⟨fun c hc o ho => ?_, fun k hk => ?_⟩
  · rw [(t.swept_evolvesTo n t.seed).bagOf?]
    exact isSome_bagOf?_seed hc ho
  · refine (solved_of_sweep hn.settled k hk).mono fun report hreport => ?_
    exact Diagnostics.mem_ofReports.mpr hreport

/-- The class `Main`, with two methods that each call a method of their argument: one that strings
have, and one that no type has. -/
def caller : Program :=
  let here : Span := ⟨0, 0⟩
  let call (x method : String) (span : Span) : Expr := .dispatch span (some (.ident here x)) method []
  ⟨[⟨0, "Main", none, [
    .method ⟨1, "measure", [⟨"s", TypeName.auto, here⟩], TypeName.auto, call "s" "length" here, here⟩,
    .method ⟨2, "lose", [⟨"y", TypeName.auto, here⟩], TypeName.auto, call "y" "missing" ⟨7, 9⟩, here⟩],
    here⟩]⟩

theorem caller_solved :
    let t := (typecheck caller).value
    let T := (t.reduce none t.seed).2
    let d : Diagnostics := [⟨.noMethodCandidate "y" "missing" 0, ⟨7, 9⟩⟩]
    (t.reduce none t.seed).1 = .ok ⟨2, d⟩ ∧ (t.constraints T).length = 4 ∧
      ∀ k ∈ t.constraints T, k.Solved t.context T d := by
  have hr : ((typecheck caller).value.reduce none (typecheck caller).value.seed).1 =
      .ok ⟨2, [⟨.noMethodCandidate "y" "missing" 0, ⟨7, 9⟩⟩]⟩ := by decide +kernel
  exact ⟨hr, by decide +kernel, (ClassTable.reduce_solves (Prod.ext hr rfl)).2⟩

end CoolTyping
