import CoolTyping.Proofs.Sights

/-!
# Values and their places

Where the strict check of a program with its placeholders filled in reports nothing, every variable that is
given to a place of the program has a type that conforms to that of the place, as far as the two types can
be read off the bags.
-/

namespace CoolTyping

open Reporting Seed

/-- The binder with its type filled in. -/
def BagTree.fillBinder (T : BagTree) (ctx : Context) (b : Binder) : Binder :=
  { b with ty := (T.filledBinder? ctx b).getD b.ty }

theorem Expr.variableName?_mapBinders (f : Binder → Binder) :
    (e : Expr) → (e.mapBinders f).variableName? = e.variableName?
  | .paren _ inner => variableName?_mapBinders f inner
  | .assign .. | .dispatch .. | .staticDispatch .. | .cond .. | .loop .. | .letIn .. | .caseOf .. | .block ..
  | .binary .. | .unary .. | .new .. | .ident .. | .int .. | .str .. | .bool .. => rfl

/-- The value of a variable has the type of the variable. -/
theorem typeOf_variable {Γ : Env} {x : String} : (e : Expr) → (typeOf Γ e).reports = [] →
    e.variableName? = some x → Γ.scope.lookup? x = some (typeOf Γ e).value
  | .ident _ name, hclean, hx => by
      cases hx
      rw [typeOf, Env.variableType] at hclean ⊢
      cases hlookup : Γ.scope.lookup? x with
      | none => rw [hlookup] at hclean; cases hclean
      | some t => rfl
  | .assign _ name value, hclean, hx => by
      cases hx
      simp only [typeOf, reports_bind, value_bind, List.append_eq_nil_iff] at hclean ⊢
      split at hclean
      · cases hclean.2
      · rename_i hself
        rw [if_neg hself]
        cases hlookup : Γ.scope.lookup? x with
        | none => rw [hlookup] at hclean; cases hclean.2
        | some t => rfl
  | .paren _ inner, hclean, hx => by
      rw [typeOf] at hclean ⊢
      exact typeOf_variable inner hclean hx

namespace Constraint

/-- Where the value of an open variable is given to a place, its only candidate conforms to that of the
place. -/
def Acceptable (ctx : Context) (T : BagTree) : Constraint → Prop
  | flow bag e slotBag slot => ∀ x entry target, e.variableName? = some x →
      T.get? ctx bag (.var x) = some entry → entry.locked = false → T.get? ctx slotBag slot = some target →
      ∃ a c, entry.candidates.toList = [a] ∧ target.candidates.toList = [c] ∧ ctx.conforms a c = true
  | hasType .. | hasMethod .. => True

end Constraint

/-- In an environment of the check, which knows concrete types only, nothing is in sight that is not also in
sight from the bag. -/
structure Watches (cs : List ClassDecl) (T : BagTree) (ctx' : Context) (c : ClassDecl) (bag : BagId)
    (Γ : Env) : Prop where
  strict : Γ.Strict ctx' c.name Γ.scope.lookup?
  inClass : T.classOf bag = c.name
  sights : Sights False (Context.ofClasses cs) T bag Γ.scope.lookup?

namespace Legible

variable {cs : List ClassDecl} {T : BagTree} {ctx' : Context} {c : ClassDecl} {bag inner : BagId} {Γ : Env}

theorem acceptable_flow (h : Legible cs T ctx') (hr : ctx'.Regular) (hw : Watches cs T ctx' c bag Γ)
    {value : Expr} {slotBag : BagId} {slot : Slot} {τ : TypeName}
    (hclean : (typeOf Γ (T.fillExpr (Context.ofClasses cs) value)).reports = [])
    (hτ : τ ∈ ctx'.concreteTypes)
    (hconforms : ctx'.conforms (typeOf Γ (T.fillExpr (Context.ofClasses cs) value)).value τ = true)
    (hslot : ∀ target, T.get? (Context.ofClasses cs) slotBag slot = some target →
      target.Shows False (Context.ofClasses cs) τ) :
    (Constraint.flow bag value slotBag slot).Acceptable (Context.ofClasses cs) T := by
  intro x entry target hx hentry hunlocked htarget
  have hlookup := typeOf_variable _ hclean ((Expr.variableName?_mapBinders _ value).trans hx)
  obtain ⟨e, he, a, ha, -, heq⟩ := hw.sights x _ hlookup
  cases he.symm.trans hentry
  have hconcrete := hw.strict.concrete x _ hlookup
  have hdescends := (hr.conforms_iff hconcrete (hr.isWildcard hτ)).mp hconforms
  obtain ⟨σ, hσ, hτσ, -⟩ := hslot target htarget
  have hle := (h.descends.mp hdescends).trans hτσ
  rw [heq (Or.inr hunlocked)] at hconcrete hle
  have ha' := h.concrete.mp hconcrete
  refine ⟨a, σ, ha, hσ, ?_⟩
  rwa [h.regular.conforms_iff ha' (h.regular.isWildcard (h.regular.concrete_of_descends ha' hle))]

/-- What is read off for a declaration is no wildcard. -/
theorem definite_filled (h : Legible cs T ctx') {C ty : TypeName} {span : Span} {slot : Slot} {e : Entry}
    (he : T.entryAt? bag slot = some e) (hev : (Seed.entry (Context.ofClasses cs) C ty span).EvolvesTo e)
    (hty : ty ≠ TypeName.error) :
    ((T.filled? (Context.ofClasses cs) (some bag) slot ty).getD ty).Definite := by
  unfold BagTree.filled?
  by_cases hauto : ty = TypeName.auto
  · have hunlocked : e.locked = false := by
      rw [hev.locked, entry_locked, hauto]
      rfl
    obtain ⟨t, ht, htypes⟩ := h.single he hunlocked
    have hjoined : e.joined (Context.ofClasses cs) = t := by rw [Entry.joined, htypes]; rfl
    have hproper := h.regular.proper ht
    simp only [hauto, BEq.rfl, ↓reduceIte, Option.bind_some, he, Option.map_some, hjoined, Option.getD_some]
    exact ⟨hproper.1, hproper.2.2⟩
  · simp only [beq_eq_false_iff_ne.mpr hauto, Bool.false_eq_true, ↓reduceIte, Option.getD_none]
    exact ⟨hauto, hty⟩

theorem watches_binder (h : Legible cs T ctx') (hr : ctx'.Regular) (hC : c.name ∈ ctx'.concreteTypes)
    (hw : Watches cs T ctx' c bag Γ) {b : Binder} {span : Span}
    (hplaced : Placed (Context.ofClasses cs) T c (.ofBinder b) (some bag) inner) (hb : b.ty ≠ TypeName.error)
    (hclean : (Γ.declaredAt (T.fillBinder (Context.ofClasses cs) b).ty span).reports = []) :
    (Γ.declaredAt (T.fillBinder (Context.ofClasses cs) b).ty span).value ∈ ctx'.concreteTypes ∧
    Watches cs T ctx' c inner
      (Γ.declare b.name (Γ.declaredAt (T.fillBinder (Context.ofClasses cs) b).ty span).value) := by
  obtain ⟨e, he, hev⟩ := hplaced.entry (by simp [Opener.entries]) List.mem_cons_self
  have hfound : T.bagOf? b.id = some inner := hplaced.found
  have hdefinite : (T.fillBinder (Context.ofClasses cs) b).ty.Definite := by
    rw [BagTree.fillBinder, BagTree.filledBinder?, hfound]
    exact h.definite_filled he hev hb
  have hτ := hw.strict.declaredAt_sound hr hdefinite hclean
  have hconcrete := hτ.isConcrete hC
  refine ⟨hconcrete, ?_, hplaced.inClass, ?_⟩
  · rw [Env.declare, Scope.lookup?_declare]
    exact hw.strict.declare _ hconcrete
  · rw [Env.declare, Scope.lookup?_declare]
    exact h.sights_binder hw.sights hw.inClass hplaced hτ

end Legible

/-- A new frame hides nothing. -/
theorem Watches.nested {cs : List ClassDecl} {T : BagTree} {ctx' : Context} {c : ClassDecl} {bag : BagId}
    {Γ : Env} (hw : Watches cs T ctx' c bag Γ) : Watches cs T ctx' c bag Γ.nested :=
  ⟨hw.strict.nested, hw.inClass, hw.sights⟩

theorem Watches.conforms {cs : List ClassDecl} {T : BagTree} {ctx' : Context} {c : ClassDecl} {bag : BagId}
    {Γ : Env} (hw : Watches cs T ctx' c bag Γ) {S τ : TypeName} {span : Span}
    (h : (Γ.expect S τ span).reports = []) : ctx'.conforms S τ = true := by
  rwa [Env.expect, reportUnless_clean, hw.strict.context] at h

/-- The variable that was declared last is in sight. -/
theorem Watches.shows {cs : List ClassDecl} {T : BagTree} {ctx' : Context} {c : ClassDecl} {bag : BagId}
    {Γ : Env} {x : String} {τ : TypeName} (hw : Watches cs T ctx' c bag (Γ.declare x τ)) (target : Entry)
    (htarget : T.get? (Context.ofClasses cs) bag (.var x) = some target) :
    target.Shows False (Context.ofClasses cs) τ := by
  obtain ⟨e, he, hshows⟩ := hw.sights x τ (by simp [Env.declare, Vars.bind])
  cases he.symm.trans htarget
  exact hshows

section Expressions

open Constraint CoolTyping.Expr

variable {cs : List ClassDecl} {T : BagTree} {ctx' : Context} {c : ClassDecl}

mutual

theorem acceptable_expr (h : Legible cs T ctx') (hr : ctx'.Regular) (hC : c.name ∈ ctx'.concreteTypes) :
    (e : Expr) → {Γ : Env} → {bag : BagId} →
    Watches cs T ctx' c bag Γ → Nested (Context.ofClasses cs) T c bag e →
    e.Writes (· ≠ TypeName.error) → (typeOf Γ (T.fillExpr (Context.ofClasses cs) e)).reports = [] →
      ∀ k ∈ ofExpr T bag e, k.Acceptable (Context.ofClasses cs) T
  | .assign _ name value, Γ, bag, hw, hn, he, hclean => by
      simp only [BagTree.fillExpr, mapBinders, typeOf, reports_bind, List.append_eq_nil_iff] at hclean
      obtain ⟨hvalue, hclean⟩ := hclean
      refine List.forall_mem_cons.mpr ⟨?_, acceptable_expr h hr hC value hw hn (writes_assign.mp he) hvalue⟩
      split at hclean
      · cases hclean
      cases hlookup : Γ.scope.lookup? name with
      | none => rw [hlookup] at hclean; cases hclean
      | some τ =>
          rw [hlookup] at hclean
          refine h.acceptable_flow hr hw hvalue (hw.strict.concrete _ _ hlookup)
            (hw.conforms (List.append_eq_nil_iff.mp hclean).1) fun target htarget => ?_
          obtain ⟨e, he, hshows⟩ := hw.sights name τ hlookup
          cases he.symm.trans htarget
          exact hshows
  | .paren _ inner, _, _, hw, hn, he, hclean => by
      rw [BagTree.fillExpr, mapBinders, typeOf] at hclean
      exact acceptable_expr h hr hC inner hw hn (writes_paren.mp he) hclean
  | .loop _ test body, _, _, hw, hn, he, hclean => by
      simp only [BagTree.fillExpr, mapBinders, typeOf, reports_bind, List.append_eq_nil_iff] at hclean
      obtain ⟨htest, -, hbody, -⟩ := hclean
      obtain ⟨het, heb⟩ := writes_loop.mp he
      refine List.forall_mem_cons.mpr ⟨trivial, List.forall_mem_append.mpr ⟨?_, ?_⟩⟩
      · exact acceptable_expr h hr hC test hw hn.1 het htest
      · exact acceptable_expr h hr hC body hw hn.2 heb hbody
  | .cond _ test thenBranch elseBranch, _, _, hw, hn, he, hclean => by
      simp only [BagTree.fillExpr, mapBinders, typeOf, reports_bind, List.append_eq_nil_iff] at hclean
      obtain ⟨htest, -, hthen, helse, -⟩ := hclean
      obtain ⟨het, hea, heb⟩ := writes_cond.mp he
      refine List.forall_mem_cons.mpr ⟨trivial, List.forall_mem_append.mpr
        ⟨List.forall_mem_append.mpr ⟨?_, ?_⟩, ?_⟩⟩
      · exact acceptable_expr h hr hC test hw hn.1 het htest
      · exact acceptable_expr h hr hC thenBranch hw hn.2.1 hea hthen
      · exact acceptable_expr h hr hC elseBranch hw hn.2.2 heb helse
  | .letIn _ bindings body, _, _, hw, hn, he, hclean => by
      simp only [BagTree.fillExpr, mapBinders, typeOf, reports_bind, List.append_eq_nil_iff] at hclean
      obtain ⟨hbindings, hbody⟩ := hclean
      obtain ⟨hebs, heb⟩ := writes_letIn.mp he
      obtain ⟨hflows, hscope⟩ := acceptable_bindings h hr hC bindings hw.nested hn.1 hebs hbindings
      exact List.forall_mem_append.mpr ⟨hflows, acceptable_expr h hr hC body hscope hn.2 heb hbody⟩
  | .caseOf _ scrutinee arms, _, _, hw, hn, he, hclean => by
      simp only [BagTree.fillExpr, mapBinders, typeOf, reports_bind, List.append_eq_nil_iff] at hclean
      obtain ⟨hscrutinee, harms, -⟩ := hclean
      obtain ⟨hes, hea⟩ := writes_caseOf.mp he
      refine List.forall_mem_append.mpr ⟨?_, acceptable_arms h hr hC arms hw hn.2 hea harms⟩
      exact acceptable_expr h hr hC scrutinee hw hn.1 hes hscrutinee
  | .block _ body, _, _, hw, hn, he, hclean => by
      rw [BagTree.fillExpr, mapBinders, typeOf] at hclean
      exact acceptable_block h hr hC body hw hn (writes_block.mp he) hclean
  | .binary _ op left right, _, _, hw, hn, he, hclean => by
      simp only [BagTree.fillExpr, mapBinders, typeOf, reports_bind, List.append_eq_nil_iff] at hclean
      obtain ⟨hl, hr', -⟩ := hclean
      obtain ⟨hel, her⟩ := writes_binary.mp he
      refine List.forall_mem_append.mpr ⟨?_, List.forall_mem_append.mpr ⟨?_, ?_⟩⟩
      · intro k hk
        split at hk
        · simp only [List.mem_cons, List.not_mem_nil, or_false] at hk
          rcases hk with rfl | rfl <;> trivial
        · cases hk
      · exact acceptable_expr h hr hC left hw hn.1 hel hl
      · exact acceptable_expr h hr hC right hw hn.2 her hr'
  | .unary _ op operand, _, _, hw, hn, he, hclean => by
      simp only [BagTree.fillExpr, mapBinders, typeOf, reports_bind, List.append_eq_nil_iff] at hclean
      refine List.forall_mem_append.mpr
        ⟨?_, acceptable_expr h hr hC operand hw hn (writes_unary.mp he) hclean.1⟩
      cases op with
      | not | negate => exact List.forall_mem_singleton.mpr trivial
      | isvoid => exact fun _ hk => absurd hk List.not_mem_nil
  | .dispatch _ receiver _ args, _, _, hw, hn, he, hclean => by
      simp only [BagTree.fillExpr, mapBinders, typeOf, reports_bind, List.append_eq_nil_iff] at hclean
      obtain ⟨hreceiver, hclean⟩ := hclean
      obtain ⟨her, hea⟩ := writes_dispatch.mp he
      refine List.forall_mem_append.mpr ⟨acceptable_receiver h hr hC receiver hw hn.1 her hreceiver, ?_⟩
      split at hclean
      · exact acceptable_args h hr hC args _ hw hn.2 hea (List.append_eq_nil_iff.mp hclean).1
      · simp only [reports_bind, List.append_eq_nil_iff] at hclean
        exact acceptable_args h hr hC args _ hw hn.2 hea hclean.2.1
  | .staticDispatch _ receiver _ _ args, _, _, hw, hn, he, hclean => by
      simp only [BagTree.fillExpr, mapBinders, typeOf, reports_bind, List.append_eq_nil_iff] at hclean
      obtain ⟨hreceiver, -, -, -, hargs, -⟩ := hclean
      obtain ⟨-, her, hea⟩ := writes_staticDispatch.mp he
      refine List.forall_mem_append.mpr ⟨acceptable_expr h hr hC receiver hw hn.1 her hreceiver, ?_⟩
      exact acceptable_args h hr hC args _ hw hn.2 hea hargs
  | .new .., _, _, _, _, _, _ | .ident .., _, _, _, _, _, _ | .int .., _, _, _, _, _, _
  | .str .., _, _, _, _, _, _ | .bool .., _, _, _, _, _, _ => fun _ hk => absurd hk List.not_mem_nil

theorem acceptable_receiver (h : Legible cs T ctx') (hr : ctx'.Regular) (hC : c.name ∈ ctx'.concreteTypes) :
    (receiver : Option Expr) → {Γ : Env} → {bag : BagId} → {method : String} →
    {argCount : Nat} → {span : Span} → Watches cs T ctx' c bag Γ → NestedOpt (Context.ofClasses cs) T c bag receiver →
    (∀ e ∈ receiver, e.Writes (· ≠ TypeName.error)) →
    (typeReceiver Γ (mapBindersOpt (T.fillBinder (Context.ofClasses cs)) receiver)).reports = [] →
      ∀ k ∈ ofReceiver T bag method argCount span receiver, k.Acceptable (Context.ofClasses cs) T
  | some e, _, _, _, _, _, hw, hn, he, hclean =>
      List.forall_mem_cons.mpr ⟨trivial, acceptable_expr h hr hC e hw hn (he e rfl) hclean⟩
  | none, _, _, _, _, _, _, _, _, _ => fun _ hk => absurd hk List.not_mem_nil

theorem acceptable_args (h : Legible cs T ctx') (hr : ctx'.Regular) (hC : c.name ∈ ctx'.concreteTypes) :
    (es : List Expr) → (ts : List TypeName) → {Γ : Env} → {bag : BagId} →
    Watches cs T ctx' c bag Γ → NestedAll (Context.ofClasses cs) T c bag es →
    (∀ e ∈ es, e.Writes (· ≠ TypeName.error)) →
    (typeArgs Γ (mapBindersAll (T.fillBinder (Context.ofClasses cs)) es) ts).reports = [] →
      ∀ k ∈ ofExprs T bag es, k.Acceptable (Context.ofClasses cs) T
  | [], _, _, _, _, _, _, _ => fun _ hk => absurd hk List.not_mem_nil
  | e :: es, [], _, _, hw, hn, he, hclean => by
      simp only [mapBindersAll, typeArgs, reports_bind, List.append_eq_nil_iff] at hclean
      obtain ⟨he, hes⟩ := List.forall_mem_cons.mp he
      exact List.forall_mem_append.mpr ⟨acceptable_expr h hr hC e hw hn.1 he hclean.1,
        acceptable_args h hr hC es [] hw hn.2 hes hclean.2⟩
  | e :: es, t :: ts, _, _, hw, hn, he, hclean => by
      simp only [mapBindersAll, typeArgs, reports_bind, List.append_eq_nil_iff] at hclean
      obtain ⟨he, hes⟩ := List.forall_mem_cons.mp he
      exact List.forall_mem_append.mpr ⟨acceptable_expr h hr hC e hw hn.1 he hclean.1,
        acceptable_args h hr hC es ts hw hn.2 hes hclean.2.2⟩

theorem acceptable_block (h : Legible cs T ctx') (hr : ctx'.Regular) (hC : c.name ∈ ctx'.concreteTypes) :
    (es : List Expr) → {last : TypeName} → {Γ : Env} → {bag : BagId} →
    Watches cs T ctx' c bag Γ → NestedAll (Context.ofClasses cs) T c bag es →
    (∀ e ∈ es, e.Writes (· ≠ TypeName.error)) →
    (typeBlock Γ last (mapBindersAll (T.fillBinder (Context.ofClasses cs)) es)).reports = [] →
      ∀ k ∈ ofExprs T bag es, k.Acceptable (Context.ofClasses cs) T
  | [], _, _, _, _, _, _, _ => fun _ hk => absurd hk List.not_mem_nil
  | e :: es, _, _, _, hw, hn, he, hclean => by
      simp only [mapBindersAll, typeBlock, reports_bind, List.append_eq_nil_iff] at hclean
      obtain ⟨he, hes⟩ := List.forall_mem_cons.mp he
      exact List.forall_mem_append.mpr ⟨acceptable_expr h hr hC e hw hn.1 he hclean.1,
        acceptable_block h hr hC es hw hn.2 hes hclean.2⟩

theorem acceptable_init (h : Legible cs T ctx') (hr : ctx'.Regular) (hC : c.name ∈ ctx'.concreteTypes) :
    (init : Option Expr) → {Γ : Env} → {bag inner : BagId} → {name : String} → {τ : TypeName} →
    Watches cs T ctx' c bag Γ → NestedOpt (Context.ofClasses cs) T c bag init →
    (∀ e ∈ init, e.Writes (· ≠ TypeName.error)) → τ ∈ ctx'.concreteTypes →
    (∀ target, T.get? (Context.ofClasses cs) inner (.var name) = some target →
      target.Shows False (Context.ofClasses cs) τ) →
    (checkInit Γ τ (mapBindersOpt (T.fillBinder (Context.ofClasses cs)) init)).reports = [] →
      ∀ k ∈ ofInit T bag inner name init, k.Acceptable (Context.ofClasses cs) T
  | some e, _, _, _, _, _, hw, hn, he, hτ, hslot, hclean => by
      simp only [mapBindersOpt, checkInit, reports_bind, List.append_eq_nil_iff] at hclean
      exact List.forall_mem_cons.mpr ⟨h.acceptable_flow hr hw hclean.1 hτ (hw.conforms hclean.2) hslot,
        acceptable_expr h hr hC e hw hn (he e rfl) hclean.1⟩
  | none, _, _, _, _, _, _, _, _, _, _, _ => fun _ hk => absurd hk List.not_mem_nil

theorem acceptable_bindings (h : Legible cs T ctx') (hr : ctx'.Regular) (hC : c.name ∈ ctx'.concreteTypes) :
    (bindings : List (Binder × Option Expr)) → {Γ : Env} → {bag : BagId} →
    Watches cs T ctx' c bag Γ → NestedLets (Context.ofClasses cs) T c bag bindings →
    (∀ b ∈ bindings, b.1.ty ≠ TypeName.error ∧ ∀ e ∈ b.2, e.Writes (· ≠ TypeName.error)) →
    (typeBindings Γ (mapBindersInits (T.fillBinder (Context.ofClasses cs)) bindings)).reports = [] →
      (∀ k ∈ ofBindings T bag bindings, k.Acceptable (Context.ofClasses cs) T) ∧
      Watches cs T ctx' c (letScope T bag bindings)
        (typeBindings Γ (mapBindersInits (T.fillBinder (Context.ofClasses cs)) bindings)).value
  | [], _, _, hw, _, _, _ => ⟨fun _ hk => absurd hk List.not_mem_nil, hw⟩
  | (b, init) :: bindings, Γ, bag, hw, hn, he, hclean => by
      simp only [mapBindersInits, typeBindings, reports_bind, value_bind, List.append_eq_nil_iff] at hclean ⊢
      obtain ⟨hdeclared, hinit, hrest⟩ := hclean
      obtain ⟨⟨heb, hei⟩, hes⟩ := List.forall_mem_cons.mp he
      obtain ⟨hτ, hinner⟩ := h.watches_binder hr hC hw hn.2.1 heb hdeclared
      obtain ⟨hflows, hscope⟩ := acceptable_bindings h hr hC bindings hinner hn.2.2 hes hrest
      have hvalue := acceptable_init h hr hC init hw hn.1 hei hτ hinner.shows hinit
      exact ⟨List.forall_mem_append.mpr ⟨hvalue, hflows⟩, hscope⟩

theorem acceptable_arms (h : Legible cs T ctx') (hr : ctx'.Regular) (hC : c.name ∈ ctx'.concreteTypes) :
    (arms : List (Binder × Expr)) → {Γ : Env} → {bag : BagId} →
    Watches cs T ctx' c bag Γ → NestedArms (Context.ofClasses cs) T c bag arms →
    (∀ a ∈ arms, a.1.ty ≠ TypeName.error ∧ a.2.Writes (· ≠ TypeName.error)) →
    (typeArms Γ (mapBindersArms (T.fillBinder (Context.ofClasses cs)) arms)).reports = [] →
      ∀ k ∈ ofArms T bag arms, k.Acceptable (Context.ofClasses cs) T
  | [], _, _, _, _, _, _ => fun _ hk => absurd hk List.not_mem_nil
  | (b, body) :: arms, Γ, bag, hw, hn, he, hclean => by
      simp only [mapBindersArms, typeArms, reports_bind, List.append_eq_nil_iff] at hclean
      obtain ⟨hdeclared, hbody, hrest, -⟩ := hclean
      obtain ⟨⟨heb, hebody⟩, hes⟩ := List.forall_mem_cons.mp he
      obtain ⟨-, hinner⟩ := h.watches_binder hr hC hw.nested hn.1 heb hdeclared
      exact List.forall_mem_append.mpr ⟨acceptable_expr h hr hC body hinner hn.2.1 hebody hbody,
        acceptable_arms h hr hC arms hw hn.2.2 hes hrest⟩

end

end Expressions

/-! ## Programs -/

/-- The classes with their placeholders filled in. -/
abbrev BagTree.fillClasses (T : BagTree) (cs : List ClassDecl) : List ClassDecl :=
  cs.map (T.fillClass (Context.ofClasses cs))

/-- A method of the class at `bag` with its placeholders filled in. -/
abbrev BagTree.fillMethod (T : BagTree) (ctx : Context) (bag : BagId) (m : MethodDecl) : MethodDecl :=
  { m with
    ret := (T.filled? ctx (some bag) (.result m.name) m.ret).getD m.ret
    params := m.params.map (T.fillParam ctx m)
    body := T.fillExpr ctx m.body }

/-- The types of all declarations can be read off the tree, and with these types the check reports
nothing. -/
structure Cleared (cs : List ClassDecl) (T : BagTree) : Prop extends
    Legible cs T (Context.ofClasses (T.fillClasses cs)) where
  filledFitting : ClassTable.Fitting (T.fillClasses cs)
  filledRegular : (Context.ofClasses (T.fillClasses cs)).Regular
  writes : ∀ c ∈ cs, c.Writes (· ≠ TypeName.error)
  params : ∀ c ∈ cs, ∀ m ∈ c.methods, (m.params.map (·.name)).Nodup
  clean : ∀ c ∈ cs, (checkClass (Context.ofClasses (T.fillClasses cs))
    (T.fillClass (Context.ofClasses cs) c)).reports = []

namespace Cleared

variable {cs : List ClassDecl} {T : BagTree} {c : ClassDecl} {bag : BagId}

theorem attribute_mem_entries {ctx : Context} {a : AttrDecl} (ha : a ∈ c.attributes) :
    (Slot.var a.name, Seed.entry ctx c.name a.ty a.span) ∈ Opener.ofClass.entries ctx c :=
  List.mem_append_left _ (List.mem_cons_of_mem _ (List.mem_map_of_mem ha))

theorem fillClass_eq (hplaced : Placed (Context.ofClasses cs) T c .ofClass none bag) :
    T.fillClass (Context.ofClasses cs) c =
      { c with features := c.features.map (T.fillFeature (Context.ofClasses cs) bag) } := by
  have hfound : T.bagOf? c.id = some bag := hplaced.found
  rw [BagTree.fillClass, hfound]

/-- A feature that was filled in names known types. -/
theorem featuresOk (h : Cleared cs T) (hc : c ∈ cs)
    (hplaced : Placed (Context.ofClasses cs) T c .ofClass none bag) :
    ClassTable.FeaturesOk (Context.ofClasses (T.fillClasses cs))
      { c with features := c.features.map (T.fillFeature (Context.ofClasses cs) bag) } :=
  fillClass_eq hplaced ▸ h.filledFitting.features _ (List.mem_map_of_mem hc)

theorem denotes_filled (h : Cleared cs T) {ty : TypeName} {span : Span} {slot : Slot} {e : Entry}
    (he : T.entryAt? bag slot = some e)
    (hev : (Seed.entry (Context.ofClasses cs) c.name ty span).EvolvesTo e) (hty : ty ≠ TypeName.error)
    (hknown : (Context.ofClasses (T.fillClasses cs)).contains
      ((T.filled? (Context.ofClasses cs) (some bag) slot ty).getD ty) = true) :
    ∃ τ, Denotes (Context.ofClasses (T.fillClasses cs)) c.name
      ((T.filled? (Context.ofClasses cs) (some bag) slot ty).getD ty) τ :=
  ⟨_, denotes_resolveSelf h.filledRegular
    (h.filledRegular.isType_of_contains hknown (h.definite_filled he hev hty))⟩

theorem attribute_isType (h : Cleared cs T) {D : TypeName} {a' : Attribute}
    (ha' : a' ∈ (Context.ofClasses (T.fillClasses cs)).ownAttributes D) :
    a'.ty = TypeName.selfType ∨ a'.ty ∈ (Context.ofClasses (T.fillClasses cs)).concreteTypes := by
  obtain ⟨c, hc, -, a, ha, -, hty⟩ := h.attributes ha'
  obtain ⟨bag, hbag, -⟩ := h.nested hc
  have hfound : T.bagOf? c.id = some bag := hbag.placed.found
  obtain ⟨f, hf, hfa⟩ := List.mem_filterMap.mp ha
  obtain ⟨e, he, hev⟩ := hbag.placed.entry (h.class_slots_nodup hc) (attribute_mem_entries ha)
  have hwritten : a.ty ≠ TypeName.error := by
    cases f with
    | method m => cases hfa
    | attr b => cases hfa; exact ((h.writes c hc).features _ hf).1
  refine h.filledRegular.isType_of_contains ?_ ?_
  · obtain ⟨c', hc', -, d, hd, rfl⟩ := ClassTable.mem_ownAttributes ha'
    exact (h.filledFitting.features c' hc').attributes d hd
  · rw [hty, hfound]
    exact h.definite_filled he hev hwritten

theorem watches_class (h : Cleared cs T) (hc : c ∈ cs)
    (hplaced : Placed (Context.ofClasses cs) T c .ofClass none bag) :
    Watches cs T (Context.ofClasses (T.fillClasses cs)) c bag
      (classEnv (Context.ofClasses (T.fillClasses cs)) c.name) where
  strict := h.filledFitting.classEnv_strict h.filledRegular h.attribute_isType
    (h.concrete.mpr (h.class_concrete hc))
  inClass := hplaced.inClass
  sights := h.sights_class hc hplaced
    (fun x τ => (h.filledFitting.classEnv_sees h.filledRegular h.attribute_isType c.name x τ).mp)
    fun hfalse => hfalse.elim

theorem acceptable_attribute (h : Cleared cs T) (hc : c ∈ cs)
    (hn : NestedClass (Context.ofClasses cs) T c bag) {a : AttrDecl} (hf : .attr a ∈ c.features)
    (hclean : (checkFeature (classEnv (Context.ofClasses (T.fillClasses cs)) c.name)
      (T.fillFeature (Context.ofClasses cs) bag (.attr a))).reports = []) :
    ∀ k ∈ Constraint.ofFeature T bag (.attr a), k.Acceptable (Context.ofClasses cs) T := by
  have hw := h.watches_class hc hn.placed
  have ha : a ∈ c.attributes := List.mem_filterMap.mpr ⟨_, hf, rfl⟩
  have hC := h.concrete.mpr (h.class_concrete hc)
  obtain ⟨hty, hinit⟩ := (h.writes c hc).features _ hf
  obtain ⟨e, he, hev⟩ := hn.placed.entry (h.class_slots_nodup hc) (attribute_mem_entries ha)
  obtain ⟨τ, hτ⟩ := h.denotes_filled he hev hty ((h.featuresOk hc hn.placed).attributes _
    (List.mem_filterMap.mpr ⟨_, List.mem_map_of_mem hf, rfl⟩))
  have hslot : ∀ target, T.get? (Context.ofClasses cs) bag (.var a.name) = some target →
      target.Shows False (Context.ofClasses cs) τ := by
    intro target htarget
    rw [h.get?_attribute hc hn.placed hc hn.placed .refl ha, he] at htarget
    cases htarget
    exact Entry.shows_of_eq (h.candidates_eq he hev hτ)
  rw [BagTree.fillFeature, checkFeature, hw.strict.declared_eq h.filledRegular hτ] at hclean
  refine acceptable_init h.toLegible h.filledRegular hC a.init hw (hn.features _ hf) hinit (hτ.isConcrete hC)
    hslot ?_
  cases hi : a.init with
  | none => rfl
  | some e =>
      rw [hi] at hclean
      exact hclean

theorem watches_method (h : Cleared cs T) (hc : c ∈ cs)
    (hplaced : Placed (Context.ofClasses cs) T c .ofClass none bag) {m : MethodDecl}
    (hf : .method m ∈ c.features) {inner : BagId}
    (hinner : Placed (Context.ofClasses cs) T c (.ofMethod m) (some bag) inner) :
    Watches cs T (Context.ofClasses (T.fillClasses cs)) c inner
      (methodEnv (classEnv (Context.ofClasses (T.fillClasses cs)) c.name)
        (T.fillMethod (Context.ofClasses cs) bag m)) := by
  have hw := h.watches_class hc hplaced
  have hm : m ∈ c.methods := List.mem_filterMap.mpr ⟨_, hf, rfl⟩
  have hC := h.concrete.mpr (h.class_concrete hc)
  have hfound : T.bagOf? m.id = some inner := hinner.found
  have hslots : ((Opener.entries (Context.ofClasses cs) c (.ofMethod m)).map (·.1)).Nodup :=
    List.Nodup.of_map Slot.name (by simpa [Opener.entries, Function.comp_def, Slot.name] using h.params c hc m hm)
  have htypes : ∀ p ∈ m.params.map (T.fillParam (Context.ofClasses cs) m), p.ty = TypeName.selfType ∨
      p.ty ∈ (Context.ofClasses (T.fillClasses cs)).concreteTypes := by
    refine List.forall_mem_map.mpr fun p hp => h.filledRegular.isType_of_contains ?_ ?_
    · exact (h.featuresOk hc hplaced).params _ (List.mem_filterMap.mpr ⟨_, List.mem_map_of_mem hf, rfl⟩) _
        (List.mem_map_of_mem hp)
    · obtain ⟨e, he, hev⟩ := hinner.entry hslots (List.mem_map_of_mem hp)
      rw [BagTree.fillParam, hfound]
      exact h.definite_filled he hev (((h.writes c hc).features _ hf).1 p hp)
  obtain ⟨W, hW⟩ := exists_hasParams h.filledRegular
    (classEnv (Context.ofClasses (T.fillClasses cs)) c.name).scope.lookup? _ htypes
  have hstrict := HasParams.methodEnv_strict (m := T.fillMethod (Context.ofClasses cs) bag m)
    h.filledRegular hC hW hw.strict
  refine ⟨hstrict.scope ▸ hstrict, hinner.inClass, ?_⟩
  rw [hstrict.scope]
  exact h.sights_params hw.sights hw.inClass (h.params c hc m hm) hinner hW

theorem acceptable_method (h : Cleared cs T) (hc : c ∈ cs) (hn : NestedClass (Context.ofClasses cs) T c bag)
    {m : MethodDecl} (hf : .method m ∈ c.features)
    (hclean : (checkFeature (classEnv (Context.ofClasses (T.fillClasses cs)) c.name)
      (T.fillFeature (Context.ofClasses cs) bag (.method m))).reports = []) :
    ∀ k ∈ Constraint.ofFeature T bag (.method m), k.Acceptable (Context.ofClasses cs) T := by
  have hw := h.watches_class hc hn.placed
  have hm : m ∈ c.methods := List.mem_filterMap.mpr ⟨_, hf, rfl⟩
  have hC := h.concrete.mpr (h.class_concrete hc)
  obtain ⟨-, hret, hbody⟩ := (h.writes c hc).features _ hf
  obtain ⟨inner, hinner, hnested⟩ := hn.features _ hf
  have hfound : T.bagOf? m.id = some inner := hinner.found
  have hwm := h.watches_method hc hn.placed hf hinner
  obtain ⟨e, hget, he, hev⟩ := h.get?_result hc hn.placed hm
  obtain ⟨τ, hτ⟩ := h.denotes_filled he hev hret ((h.featuresOk hc hn.placed).results _
    (List.mem_filterMap.mpr ⟨_, List.mem_map_of_mem hf, rfl⟩))
  simp only [BagTree.fillFeature, checkFeature, reports_bind, List.append_eq_nil_iff,
    hw.strict.declared_eq h.filledRegular hτ] at hclean
  rw [Constraint.ofFeature, hfound]
  refine List.forall_mem_cons.mpr ⟨?_, acceptable_expr h.toLegible h.filledRegular hC m.body hwm hnested hbody
    hclean.1⟩
  refine h.acceptable_flow h.filledRegular hwm hclean.1 (hτ.isConcrete hC) (hw.conforms hclean.2)
    fun target htarget => ?_
  rw [hinner.get?_outer h.ordered hn.placed.inClass (by simp [Opener.entries]), hget] at htarget
  cases htarget
  exact Entry.shows_of_eq (h.candidates_eq he hev hτ)

/-- Where the check of the filled program reports nothing, all values are accepted at their places. -/
theorem acceptable_constraints (h : Cleared cs T) :
    ∀ k ∈ (ClassTable.ofClasses cs).constraints T, k.Acceptable (Context.ofClasses cs) T := by
  intro k hk
  obtain ⟨c, hc, hk⟩ := List.mem_flatMap.mp hk
  rw [Legible.classes_eq] at hc
  obtain ⟨bag, hn, -⟩ := h.nested hc
  have hfound : T.bagOf? c.id = some bag := hn.placed.found
  rw [Constraint.ofClass, hfound] at hk
  obtain ⟨f, hf, hk⟩ := List.mem_flatMap.mp hk
  have hclean := h.clean c hc
  rw [checkClass, fillClass_eq hn.placed, reports_forM, List.flatMap_eq_nil_iff] at hclean
  have hclean := hclean _ (List.mem_map_of_mem hf)
  cases f with
  | attr a => exact h.acceptable_attribute hc hn hf hclean k hk
  | method m => exact h.acceptable_method hc hn hf hclean k hk

end Cleared

end CoolTyping
