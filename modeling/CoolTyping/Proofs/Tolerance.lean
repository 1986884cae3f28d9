import CoolTyping.Proofs.Approximation
import CoolTyping.Proofs.Typability

/-!
# What the strict check makes of placeholders

A program is checked with its placeholders before these are inferred. If a filling of it is checked without a
report, the program itself can be reported in two places only: where an overriding method differs from the
inherited one by a placeholder, and where a comparison has an operand whose type comes from a join with a
placeholder. A join takes a placeholder for no type at all, so its result can lie below the one in the filling.
-/

namespace CoolTyping

open Reporting

/-! ## Blurred types -/

mutual

/-- Whether the type of an expression comes from the branches of an `if` or a `case`, and one of these has
a placeholder as its type. A call may give back the type of its receiver. -/
def blurred (Γ : Env) : Expr → Bool
  | .cond _ _ a b => (typeOf Γ a).value == TypeName.auto || (typeOf Γ b).value == TypeName.auto ||
      blurred Γ a || blurred Γ b
  | .caseOf _ _ arms => blurredArms Γ arms
  | .letIn _ bindings body => blurred (typeBindings Γ.nested bindings).value body
  | .block _ body => blurredBlock Γ false body
  | .dispatch span receiver method args =>
    let t := (typeReceiver Γ receiver).value
    blurredReceiver Γ receiver && (Γ.invoke t method args.length span).value.2 == t
  | .staticDispatch span receiver ancestor method args =>
    let t := (typeOf Γ receiver).value
    let owner := (Γ.declaredAt ancestor span).value
    blurred Γ receiver && (Γ.call owner t method args.length span).value.2 == t
  | .paren _ inner => blurred Γ inner
  | .assign .. | .loop .. | .binary .. | .unary .. | .new .. | .ident .. | .int .. | .str ..
  | .bool .. => false
termination_by structural e => e

def blurredReceiver (Γ : Env) : Option Expr → Bool
  | some e => blurred Γ e
  | none => false
termination_by structural receiver => receiver

def blurredBlock (Γ : Env) (last : Bool) : List Expr → Bool
  | [] => last
  | e :: es => blurredBlock Γ (blurred Γ e) es
termination_by structural es => es

def blurredArms (Γ : Env) : List (Binder × Expr) → Bool
  | [] => false
  | (b, body) :: arms =>
    let Δ := Γ.nested.declare b.name (Γ.declaredAt b.ty b.span).value
    (typeOf Δ body).value == TypeName.auto || blurred Δ body || blurredArms Γ arms
termination_by structural arms => arms

end

/-- The visit is to a comparison with a blurred operand, and the report is about this comparison. -/
def Visit.Confuses (v : Visit) (r : Report) : Prop :=
  ∃ span op left right, v.expr = .binary span op left right ∧ op.isArithmetic = false ∧
    (blurred v.env left || blurred v.env right) = true ∧
    r = ⟨.invalidComparison (typeOf v.env left).value (typeOf v.env right).value, span⟩

/-- All reports are about comparisons with a blurred operand that are visited. -/
def Excused (rs : List Report) (vs : List Report → List Visit) : Prop :=
  ∀ before, ∀ r ∈ rs, ∃ v ∈ vs before, v.Confuses r

namespace Excused

variable {rs rs' : List Report} {vs ws : List Report → List Visit}

theorem of_eq_nil (h : rs = []) : Excused rs vs := by
  subst h
  exact fun _ _ hr => absurd hr List.not_mem_nil

theorem append (h : Excused rs vs) (h' : Excused rs' vs) : Excused (rs ++ rs') vs := by
  intro before r hr
  rcases List.mem_append.mp hr with hr | hr
  · exact h before r hr
  · exact h' before r hr

theorem cons (h : Excused rs vs) {v : List Report → Visit} :
    Excused rs fun before => v before :: vs before :=
  fun before r hr => (h before r hr).imp fun _ hv => ⟨List.mem_cons_of_mem _ hv.1, hv.2⟩

theorem after (h : Excused rs vs) {f : List Report → List Report} :
    Excused rs fun before => vs (f before) :=
  fun before => h (f before)

theorem left (h : Excused rs vs) : Excused rs fun before => vs before ++ ws before :=
  fun before r hr => (h before r hr).imp fun _ hv => ⟨List.mem_append_left _ hv.1, hv.2⟩

theorem right (h : Excused rs vs) {f : List Report → List Report} :
    Excused rs fun before => ws before ++ vs (f before) :=
  fun before r hr => (h (f before) r hr).imp fun _ hv => ⟨List.mem_append_right _ hv.1, hv.2⟩

end Excused

/-! ## Expressions -/

variable {U : List TypeName} {ctx ctx' : Context} {C : TypeName}

mutual

/-- An expression is typed with placeholders as in a filling without reports, approximately, and reported
only if that is excused. -/
theorem Expr.Filled.tracks (hc : ctx.Completion U ctx') {Γ Γ' : Env} {e e' : Expr} :
    Expr.Filled U e e' → Γ.Tracks Γ' ctx ctx' C → (typeOf Γ' e').reports = [] →
      Excused (typeOf Γ e).reports (visits · Γ e) ∧
        ctx'.Tracks (blurred Γ e) (typeOf Γ e).value (typeOf Γ' e').value
  | @Expr.Filled.assign _ span name value value' hvalue, hΓ, h => by
      simp only [typeOf, reports_bind, value_bind, List.append_eq_nil_iff] at h ⊢
      obtain ⟨hclean, h⟩ := h
      obtain ⟨hexcused, htracks⟩ := hvalue.tracks hc hΓ hclean
      have hwithin : Excused (typeOf Γ value).reports (visits · Γ (.assign span name value)) :=
        hexcused.cons
      by_cases hself : name = selfName
      · simp only [hself, beq_self_eq_true, ↓reduceIte] at h
        cases h
      rw [if_neg (by simpa using hself)] at h ⊢
      rw [if_neg (by simpa using hself)]
      have hscope := hΓ.scope name
      generalize Γ.scope.lookup? name = x, Γ'.scope.lookup? name = x' at h hscope ⊢
      cases hscope with
      | none => cases h
      | some hdeclares =>
          simp only [reports_bind, reports_pure, List.append_nil] at h
          refine ⟨hwithin.append (.append (.of_eq_nil ?_) (.of_eq_nil rfl)), hdeclares.tracks⟩
          exact hΓ.expect_clean hc htracks.approximates hdeclares.eq_or h
  | @Expr.Filled.dispatch _ span receiver receiver' method args args' hreceiver hargs, hΓ, h => by
      rw [typeOf_dispatch] at h ⊢
      rw [typeOf_dispatch]
      simp only [reports_bind, value_bind, value_pure, reports_pure, List.append_eq_nil_iff] at h ⊢
      obtain ⟨hreceiverClean, hinvokeClean, hargsClean, _⟩ := h
      obtain ⟨hexcused, htracks⟩ := hreceiver.tracks_receiver hc hΓ hreceiverClean
      rw [← hargs.length_eq] at hinvokeClean hargsClean ⊢
      obtain ⟨hinvoke, hrelaxes, hresult⟩ := hΓ.invoke_tracks hc htracks hinvokeClean
      have hexcusedArgs := hargs.tracks_args hc hΓ hrelaxes hargsClean
      refine ⟨.append ?_ (.append (.of_eq_nil hinvoke) (.append ?_ (.of_eq_nil rfl))), hresult⟩
      · exact hexcused.left.cons
      · exact hexcusedArgs.right.cons
  | @Expr.Filled.staticDispatch _ span receiver receiver' ancestor method args args' hreceiver hargs, hΓ,
      h => by
      simp only [typeOf, reports_bind, value_bind, value_pure, reports_pure,
        List.append_eq_nil_iff] at h ⊢
      obtain ⟨hreceiverClean, hownerClean, hdescendsClean, hcallClean, hargsClean, _⟩ := h
      obtain ⟨hexcused, htracks⟩ := hreceiver.tracks hc hΓ hreceiverClean
      obtain ⟨howner, _⟩ := hΓ.declaredAt_same hc hownerClean
      rw [← howner] at hownerClean hdescendsClean hcallClean hargsClean ⊢
      rw [← hargs.length_eq] at hcallClean hargsClean ⊢
      obtain ⟨hcall, hrelaxes, hresult⟩ := hΓ.staticCall_tracks hc htracks hcallClean
      have hexcusedArgs := hargs.tracks_args hc hΓ hrelaxes hargsClean
      refine ⟨.append ?_ (.append (.of_eq_nil hownerClean) (.append (.of_eq_nil (hΓ.descends_clean hc htracks.approximates hdescendsClean))
        (.append (.of_eq_nil hcall) (.append ?_ (.of_eq_nil rfl))))), hresult⟩
      · exact hexcused.left.cons
      · exact hexcusedArgs.right.cons
  | @Expr.Filled.cond _ span test test' a a' b b' htest ha hb, hΓ, h => by
      simp only [typeOf, reports_bind, value_bind, value_pure, reports_pure,
        List.append_eq_nil_iff] at h ⊢
      obtain ⟨htestClean, hconditionClean, haClean, hbClean, _⟩ := h
      obtain ⟨hexcused, htracks⟩ := htest.tracks hc hΓ htestClean
      obtain ⟨hexcuseda, htracksa⟩ := ha.tracks hc hΓ haClean
      obtain ⟨hexcusedb, htracksb⟩ := hb.tracks hc hΓ hbClean
      rw [hΓ.context, hΓ.context', hc.filled.join]
      refine ⟨.append ?_ (.append (.of_eq_nil (hΓ.condition_clean hc htracks.approximates hconditionClean)) (.append ?_ (.append ?_ (.of_eq_nil rfl)))),
        htracksa.join hc.regular htracksb⟩
      · exact hexcused.left.left.cons
      · exact hexcuseda.right.left.cons
      · exact hexcusedb.right.cons
  | @Expr.Filled.loop _ span test test' body body' htest hbody, hΓ, h => by
      simp only [typeOf, reports_bind, value_bind, value_pure, reports_pure,
        List.append_eq_nil_iff] at h ⊢
      obtain ⟨htestClean, hconditionClean, hbodyClean, _⟩ := h
      obtain ⟨hexcused, htracks⟩ := htest.tracks hc hΓ htestClean
      obtain ⟨hexcusedBody, _⟩ := hbody.tracks hc hΓ hbodyClean
      refine ⟨.append ?_ (.append (.of_eq_nil (hΓ.condition_clean hc htracks.approximates hconditionClean)) (.append ?_ (.of_eq_nil rfl))),
        .refl (Or.inl hc.regular.object) _⟩
      · exact hexcused.left.cons
      · exact hexcusedBody.right.cons
  | @Expr.Filled.letIn _ span bindings bindings' body body' hbindings hbody, hΓ, h => by
      simp only [typeOf, reports_bind, value_bind, List.append_eq_nil_iff] at h ⊢
      obtain ⟨hexcused, hΔ⟩ := hbindings.tracks_bindings hc hΓ.nested h.1
      obtain ⟨hexcusedBody, htracks⟩ := hbody.tracks hc hΔ h.2
      refine ⟨.append ?_ ?_, htracks⟩
      · exact hexcused.left.cons
      · exact hexcusedBody.right.cons
  | @Expr.Filled.caseOf _ span scrutinee scrutinee' arms arms' hscrutinee harms, hΓ, h => by
      simp only [typeOf, reports_bind, value_bind, value_pure, reports_pure,
        List.append_eq_nil_iff] at h ⊢
      obtain ⟨hexcused, _⟩ := hscrutinee.tracks hc hΓ h.1
      obtain ⟨hexcusedArms, happrox, hsharp⟩ := harms.tracks_arms hc hΓ h.2.1
      rw [hΓ.context, hΓ.context', hc.filled.joinAll]
      refine ⟨.append ?_ (.append ?_ (.of_eq_nil rfl)), hc.regular.joinAll_approximates happrox,
        fun hblurred => Or.inr (congrArg _ (hsharp hblurred))⟩
      · exact hexcused.left.cons
      · exact hexcusedArms.right.cons
  | @Expr.Filled.block _ span body body' hbody, hΓ, h => by
      rw [typeOf] at h ⊢
      rw [typeOf]
      obtain ⟨hexcused, htracks⟩ :=
        hbody.tracks_block hc hΓ (.refl (Or.inl hc.regular.object) false) h
      exact ⟨hexcused.cons, htracks⟩
  | @Expr.Filled.binary _ span op left left' right right' hleft hright, hΓ, h => by
      simp only [typeOf, reports_bind, value_bind, List.append_eq_nil_iff] at h ⊢
      obtain ⟨hleftClean, hrightClean, hclean⟩ := h
      obtain ⟨hexcused, htracks⟩ := hleft.tracks hc hΓ hleftClean
      obtain ⟨hexcused', htracks'⟩ := hright.tracks hc hΓ hrightClean
      refine ⟨.append ?_ (.append ?_ fun before r hr => ?_), ?_⟩
      · exact hexcused.left.cons
      · exact hexcused'.right.cons
      · obtain ⟨hop, hblurred, hr⟩ := hΓ.binary_reports hc htracks htracks' hclean hr
        exact ⟨_, List.mem_cons_self, span, op, left, right, rfl, hop, hblurred, hr⟩
      · rw [Env.value_binary, Env.value_binary]
        split
        · exact .refl (Or.inl hc.regular.int) _
        · exact .refl (Or.inl hc.regular.bool) _
  | @Expr.Filled.unary _ span op operand operand' hoperand, hΓ, h => by
      simp only [typeOf, reports_bind, value_bind, List.append_eq_nil_iff] at h ⊢
      obtain ⟨hexcused, htracks⟩ := hoperand.tracks hc hΓ h.1
      rw [← hoperand.span_eq] at h ⊢
      refine ⟨.append ?_ (.of_eq_nil (hΓ.unary_clean hc htracks.approximates h.2)), ?_⟩
      · exact hexcused.cons
      · cases op with
        | not => exact .refl (Or.inl hc.regular.bool) _
        | negate => exact .refl (Or.inl hc.regular.int) _
        | isvoid => exact .refl (Or.inl hc.regular.bool) _
  | @Expr.Filled.new _ span ty, hΓ, h => by
      rw [typeOf] at h ⊢
      rw [typeOf]
      obtain ⟨heq, hfindable⟩ := hΓ.declaredAt_same hc h
      rw [heq]
      exact ⟨.of_eq_nil h, .refl hfindable _⟩
  | @Expr.Filled.paren _ span inner inner' hinner, hΓ, h => by
      rw [typeOf] at h ⊢
      rw [typeOf]
      obtain ⟨hexcused, htracks⟩ := hinner.tracks hc hΓ h
      exact ⟨hexcused.cons, htracks⟩
  | @Expr.Filled.ident _ span name, hΓ, h => by
      rw [typeOf, Env.variableType] at h ⊢
      rw [typeOf, Env.variableType]
      have hscope := hΓ.scope name
      generalize Γ.scope.lookup? name = x, Γ'.scope.lookup? name = x' at h hscope ⊢
      cases hscope with
      | none => cases h
      | some hdeclares => exact ⟨.of_eq_nil rfl, hdeclares.tracks⟩
  | @Expr.Filled.int _ span value, _, _ => by
      rw [typeOf, typeOf]
      exact ⟨.of_eq_nil rfl, .refl (Or.inl hc.regular.int) _⟩
  | @Expr.Filled.str _ span value, _, _ => by
      rw [typeOf, typeOf]
      exact ⟨.of_eq_nil rfl, .refl (Or.inl hc.regular.string) _⟩
  | @Expr.Filled.bool _ span value, _, _ => by
      rw [typeOf, typeOf]
      exact ⟨.of_eq_nil rfl, .refl (Or.inl hc.regular.bool) _⟩

theorem Expr.FilledOpt.tracks_receiver (hc : ctx.Completion U ctx') {Γ Γ' : Env}
    {receiver receiver' : Option Expr} :
    Expr.FilledOpt U receiver receiver' → Γ.Tracks Γ' ctx ctx' C →
      (typeReceiver Γ' receiver').reports = [] →
      Excused (typeReceiver Γ receiver).reports (visitsReceiver · Γ receiver) ∧
        ctx'.Tracks (blurredReceiver Γ receiver) (typeReceiver Γ receiver).value
          (typeReceiver Γ' receiver').value
  | .none, hΓ, _ => by
      rw [typeReceiver, typeReceiver, hΓ.current, hΓ.current']
      exact ⟨.of_eq_nil rfl, .refl (Or.inl hΓ.concrete) _⟩
  | .some he, hΓ, h => by
      rw [typeReceiver] at h ⊢
      rw [typeReceiver]
      exact he.tracks hc hΓ h

theorem Expr.FilledAll.tracks_args (hc : ctx.Completion U ctx') {Γ Γ' : Env} {es es' : List Expr}
    {ts ts' : List TypeName} : Expr.FilledAll U es es' → Γ.Tracks Γ' ctx ctx' C → Relaxes ts ts' →
      (typeArgs Γ' es' ts').reports = [] →
      Excused (typeArgs Γ es ts).reports (visitsArgs · Γ es ts)
  | .nil, _, _, _ => by
      rw [typeArgs]
      exact .of_eq_nil rfl
  | @Expr.FilledAll.cons _ e e' es es' he hes, hΓ, @Relaxes.nil ts', h => by
      have hparts : (typeOf Γ' e').reports = [] ∧ (typeArgs Γ' es' ts'.tail).reports = [] := by
        cases ts' with
        | nil => simpa [typeArgs] using h
        | cons t' ts' =>
            simp only [typeArgs, reports_bind, List.append_eq_nil_iff] at h
            exact ⟨h.1, h.2.2⟩
      obtain ⟨hexcused, _⟩ := he.tracks hc hΓ hparts.1
      have hexcusedArgs := hes.tracks_args hc hΓ .nil hparts.2
      simp only [typeArgs, reports_bind]
      exact .append hexcused.left hexcusedArgs.right
  | @Expr.FilledAll.cons _ e e' es es' he hes, hΓ, .cons ht hts, h => by
      simp only [typeArgs, reports_bind, List.append_eq_nil_iff] at h ⊢
      obtain ⟨hexcused, htracks⟩ := he.tracks hc hΓ h.1
      have hexcusedArgs := hes.tracks_args hc hΓ hts h.2.2
      refine .append ?_ (.append (.of_eq_nil (hΓ.expect_clean hc htracks.approximates ht h.2.1)) ?_)
      · exact hexcused.left
      · exact hexcusedArgs.right

theorem Expr.FilledAll.tracks_block (hc : ctx.Completion U ctx') {Γ Γ' : Env} {es es' : List Expr}
    {last last' : TypeName} {b : Bool} : Expr.FilledAll U es es' → Γ.Tracks Γ' ctx ctx' C →
      ctx'.Tracks b last last' → (typeBlock Γ' last' es').reports = [] →
      Excused (typeBlock Γ last es).reports (visitsBlock · Γ es) ∧
        ctx'.Tracks (blurredBlock Γ b es) (typeBlock Γ last es).value (typeBlock Γ' last' es').value
  | .nil, _, hlast, _ => by
      rw [typeBlock, typeBlock]
      exact ⟨.of_eq_nil rfl, hlast⟩
  | @Expr.FilledAll.cons _ e e' es es' he hes, hΓ, _, h => by
      simp only [typeBlock, reports_bind, value_bind, List.append_eq_nil_iff] at h ⊢
      obtain ⟨hexcused, htracks⟩ := he.tracks hc hΓ h.1
      obtain ⟨hexcusedRest, hresult⟩ := hes.tracks_block hc hΓ htracks h.2
      refine ⟨.append ?_ ?_, hresult⟩
      · exact hexcused.left
      · exact hexcusedRest.right

theorem Expr.FilledOpt.tracks_init (hc : ctx.Completion U ctx') {Γ Γ' : Env} {t t' : TypeName}
    {init init' : Option Expr} : Expr.FilledOpt U init init' → Γ.Tracks Γ' ctx ctx' C →
      t = TypeName.auto ∨ t = t' → (checkInit Γ' t' init').reports = [] →
      Excused (checkInit Γ t init).reports (visitsInit · Γ init)
  | .none, _, _, _ => by
      rw [checkInit]
      exact .of_eq_nil rfl
  | .some he, hΓ, ht, h => by
      simp only [checkInit, reports_bind, List.append_eq_nil_iff] at h ⊢
      obtain ⟨hexcused, htracks⟩ := he.tracks hc hΓ h.1
      exact .append hexcused (.of_eq_nil (hΓ.expect_clean hc htracks.approximates ht h.2))

theorem Expr.FilledInits.tracks_bindings (hc : ctx.Completion U ctx') {Γ Γ' : Env}
    {bindings bindings' : List (Binder × Option Expr)} :
    Expr.FilledInits U bindings bindings' → Γ.Tracks Γ' ctx ctx' C →
      (typeBindings Γ' bindings').reports = [] →
      Excused (typeBindings Γ bindings).reports (visitsBindings · Γ bindings) ∧
        (typeBindings Γ bindings).value.Tracks (typeBindings Γ' bindings').value ctx ctx' C
  | .nil, hΓ, _ => by
      rw [typeBindings, typeBindings]
      exact ⟨.of_eq_nil rfl, hΓ⟩
  | .cons ht hinit hrest, hΓ, h => by
      simp only [typeBindings, reports_bind, value_bind, List.append_eq_nil_iff] at h ⊢
      obtain ⟨hclean, hdeclares⟩ := hΓ.declaredAt_filled hc ht h.1
      have hexcused := hinit.tracks_init hc hΓ hdeclares.eq_or h.2.1
      obtain ⟨hexcusedRest, hΔ⟩ := hrest.tracks_bindings hc (hΓ.declare _ hdeclares) h.2.2
      refine ⟨.append (.of_eq_nil hclean) (.append ?_ ?_), hΔ⟩
      · exact hexcused.after.left
      · exact hexcusedRest.right

theorem Expr.FilledArms.tracks_arms (hc : ctx.Completion U ctx') {Γ Γ' : Env}
    {arms arms' : List (Binder × Expr)} : Expr.FilledArms U arms arms' → Γ.Tracks Γ' ctx ctx' C →
      (typeArms Γ' arms').reports = [] →
      Excused (typeArms Γ arms).reports (visitsArms · Γ arms) ∧
        List.Forall₂ ctx'.Approximates (typeArms Γ arms).value (typeArms Γ' arms').value ∧
        (blurredArms Γ arms = false → (typeArms Γ arms).value = (typeArms Γ' arms').value)
  | .nil, _, _ => by
      rw [typeArms, typeArms]
      exact ⟨.of_eq_nil rfl, .nil, fun _ => rfl⟩
  | .cons ht hbody hrest, hΓ, h => by
      simp only [typeArms, reports_bind, value_bind, value_pure, reports_pure,
        List.append_eq_nil_iff] at h ⊢
      obtain ⟨hclean, hdeclares⟩ := hΓ.declaredAt_filled hc ht h.1
      obtain ⟨hexcused, htracks⟩ := hbody.tracks hc (hΓ.nested.declare _ hdeclares) h.2.1
      obtain ⟨hexcusedRest, happrox, hsharp⟩ := hrest.tracks_arms hc hΓ h.2.2.1
      refine ⟨.append (.of_eq_nil hclean) (.append ?_ (.append ?_ (.of_eq_nil rfl))),
        .cons htracks.approximates happrox, fun hblurred => ?_⟩
      · exact hexcused.after.left
      · exact hexcusedRest.right
      · simp only [blurredArms, Bool.or_eq_false_iff, beq_eq_false_iff_ne] at hblurred
        obtain ⟨⟨hne, hbody⟩, hrest⟩ := hblurred
        rw [(htracks.sharp hbody).resolve_left hne, hsharp hrest]

end

/-! ## Classes -/

theorem ClassTable.Fitting.regular_of_filled {cs cs' : List ClassDecl} (h : Fitting cs')
    (hcs : List.Forall₂ (ClassDecl.Filled U) cs cs')
    (herror : ∀ c ∈ cs, c.parent ≠ some TypeName.error) : (Context.ofClasses cs').Regular := by
  refine h.regular fun c' hc' => ?_
  obtain ⟨c, hc, hfilled⟩ := forall₂_mem_right hcs hc'
  rw [← hfilled.parent]
  exact herror c hc

theorem ClassTable.Fitting.completion {cs cs' : List ClassDecl} (h : Fitting cs')
    (hr : (Context.ofClasses cs').Regular)
    (hcs : List.Forall₂ (ClassDecl.Filled (Context.ofClasses cs).concreteTypes) cs cs')
    (hm : ∀ c ∈ cs', mismatchReports (Context.ofClasses cs') c = []) :
    (Context.ofClasses cs).Completion (Context.ofClasses cs).concreteTypes (Context.ofClasses cs') where
  filled := Context.filled_ofClasses hcs
  regular := hr
  concrete ht := (Context.filled_ofClasses hcs).concrete_iff.mp ht
  results {t m} hmem := by
    rcases mem_ownMethods hmem with ⟨hself | hbasic, _⟩ | ⟨c, hc, _, d, hd, rfl⟩
    · rw [hself]
      exact hr.known.mpr (Or.inr (Or.inr (Or.inl rfl)))
    · exact hr.contains (hr.basic hbasic)
    · exact (h.features c hc).results d hd
  stable hab hb := hasMethod_of_descends hm hab hb
  error {name m} hmethod := by
    have hinfo := info?_basic (t := TypeName.error) cs' (by decide)
    cases hmethod with
    | own hown =>
        have hnone : Context.basic.ownMethods TypeName.error = [] := by decide
        rw [Context.ownMethod?, Context.ownMethods, hinfo] at hown
        exact absurd (List.mem_of_find?_eq_some hown) (by rw [← Context.ownMethods, hnone]; simp)
    | inherited _ hp hobject =>
        have hparent : Context.basic.parent? TypeName.error = some TypeName.object := by decide
        rw [Context.Parent, Context.parent?, hinfo, ← Context.parent?, hparent] at hp
        cases hp
        exact hobject
  bool ht := h.eq_bool_of_descends ht

theorem classEnv_tracks (hc : ctx.Completion U ctx') (hC : C ∈ ctx'.concreteTypes)
    (ht : ∀ {t}, ∀ a ∈ ctx'.ownAttributes t, ctx'.contains a.ty = true) :
    (classEnv ctx C).Tracks (classEnv ctx' C) ctx ctx' C := by
  have hattributes : List.Forall₂ (fun a a' => Attribute.Filled U a a' ∧ ctx'.contains a'.ty = true)
      (ctx.allAttributes C) (ctx'.allAttributes C) := by
    refine forall₂_and_mem (hc.filled.allAttributes C) fun a ha => ?_
    obtain ⟨t, _, ha⟩ := List.mem_flatMap.mp ha
    exact ht a ha
  refine List.rel_foldl (P := fun Γ Γ' => Env.Tracks Γ Γ' ctx ctx' C) ?_ ?_ hattributes
  · intro Γ Γ' hΓ a a' ha
    dsimp only
    rw [ha.1.name]
    exact hΓ.declare _ (hc.declares_resolveSelf ha.1.ty ha.2 hC)
  · refine ⟨rfl, rfl, rfl, rfl, hC, fun x => ?_⟩
    rw [Scope.lookup?_declare]
    unfold Vars.bind
    split
    · exact .some ⟨Or.inr rfl, Or.inl hC, (hc.regular.proper hC).1⟩
    · exact .none

theorem methodEnv_tracks (hc : ctx.Completion U ctx') {Γ Γ' : Env} (hΓ : Γ.Tracks Γ' ctx ctx' C)
    {m m' : MethodDecl} (hm : MethodDecl.Filled U m m')
    (ht : ∀ p ∈ m'.params, ctx'.contains p.ty = true) :
    (methodEnv Γ m).Tracks (methodEnv Γ' m') ctx ctx' C := by
  refine List.rel_foldl (P := fun Γ Γ' => Env.Tracks Γ Γ' ctx ctx' C) ?_ ?_
    (forall₂_and_mem hm.params ht)
  · intro Γ Γ' hΓ p p' hp
    dsimp only
    rw [hp.1.name]
    exact hΓ.declare _ (hΓ.declared hc hp.1.ty hp.2)
  · exact ⟨hΓ.context, hΓ.context', hΓ.current, hΓ.current', hΓ.concrete, hΓ.scope⟩

theorem AttrDecl.Filled.excused (hc : ctx.Completion U ctx') {Γ Γ' : Env}
    (hΓ : Γ.Tracks Γ' ctx ctx' C) {a a' : AttrDecl} (ha : AttrDecl.Filled U a a')
    (ht : ctx'.contains a'.ty = true) (h : (checkFeature Γ' (.attr a')).reports = []) :
    Excused (checkFeature Γ (.attr a)).reports (Feature.visits · Γ (.attr a)) :=
  ha.init.tracks_init hc hΓ (hΓ.declared hc ha.ty ht).eq_or h

theorem MethodDecl.Filled.excused (hc : ctx.Completion U ctx') {Γ Γ' : Env}
    (hΓ : Γ.Tracks Γ' ctx ctx' C) {m m' : MethodDecl} (hm : MethodDecl.Filled U m m')
    (hparams : ∀ p ∈ m'.params, ctx'.contains p.ty = true) (hret : ctx'.contains m'.ret = true)
    (h : (checkFeature Γ' (.method m')).reports = []) :
    Excused (checkFeature Γ (.method m)).reports (Feature.visits · Γ (.method m)) := by
  simp only [checkFeature, reports_bind, List.append_eq_nil_iff] at h ⊢
  obtain ⟨hexcused, htracks⟩ := hm.body.tracks hc (methodEnv_tracks hc hΓ hm hparams) h.1
  refine .append hexcused (.of_eq_nil ?_)
  exact hΓ.expect_clean hc htracks.approximates (hΓ.declared hc hm.ret hret).eq_or h.2

theorem excused_visitsEach {α : Type} {reports : α → List Report}
    {visit : List Report → α → List Visit} {as : List α}
    (h : ∀ a ∈ as, Excused (reports a) (visit · a)) :
    Excused (as.flatMap reports) (visitsEach reports visit · as) := by
  induction as with
  | nil => exact .of_eq_nil rfl
  | cons a as ih =>
      obtain ⟨ha, has⟩ := List.forall_mem_cons.mp h
      exact .append ha.left (ih has).right

namespace ClassTable

variable {cs cs' : List ClassDecl}

/-- The check of classes reports only what is excused if the check of the filling reports nothing. -/
theorem Fitting.check_excused (hfit : Fitting cs')
    (hcs : List.Forall₂ (ClassDecl.Filled U) cs cs')
    (hc : (Context.ofClasses cs).Completion U (Context.ofClasses cs'))
    (h : (check ⟨Context.ofClasses cs', cs'.map some⟩).reports = []) :
    Excused (check ⟨Context.ofClasses cs, cs.map some⟩).reports
      fun _ => visits ⟨Context.ofClasses cs, cs.map some⟩ := by
  unfold check at h ⊢
  rw [reports_forM, classes_all] at h ⊢
  unfold visits
  rw [classes_all]
  refine (excused_visitsEach fun c hcmem => ?_).after
  obtain ⟨c', hc', hfilled⟩ := forall₂_mem_left hcs hcmem
  have hclean := List.flatMap_eq_nil_iff.mp h c' hc'
  unfold checkClass at hclean ⊢
  rw [reports_forM] at hclean ⊢
  refine excused_visitsEach fun f hf => ?_
  obtain ⟨f', hf', hfilledf⟩ := forall₂_mem_left hfilled.features hf
  have hΓ : (classEnv (Context.ofClasses cs) c.name).Tracks (classEnv (Context.ofClasses cs') c'.name)
      (Context.ofClasses cs) (Context.ofClasses cs') c'.name := by
    rw [hfilled.name]
    refine classEnv_tracks hc (hfit.wellFormed.class_concrete (by rwa [classes_all])) fun a ha => ?_
    obtain ⟨d, hd, _, b, hb, rfl⟩ := mem_ownAttributes ha
    exact (hfit.features d hd).attributes b hb
  have hclean := List.flatMap_eq_nil_iff.mp hclean f' hf'
  cases hfilledf with
  | attr ha =>
      have hmem : _ ∈ c'.attributes := List.mem_filterMap.mpr ⟨_, hf', rfl⟩
      exact ha.excused hc hΓ ((hfit.features c' hc').attributes _ hmem) hclean
  | method hm =>
      have hmem : _ ∈ c'.methods := List.mem_filterMap.mpr ⟨_, hf', rfl⟩
      exact hm.excused hc hΓ ((hfit.features c' hc').params _ hmem)
        ((hfit.features c' hc').results _ hmem) hclean

end ClassTable

/-- The strict check tolerates placeholders. If some filling of a program with concrete types is checked
without a report, the program itself is reported only where a method differs from the inherited one by a
placeholder, and where a comparison has an operand whose type is blurred by a placeholder. -/
theorem typecheck_tolerates {p p' : Program}
    (herror : ∀ c ∈ p.classes, c.parent ≠ some TypeName.error)
    (hp : Program.Filled (typecheck p).value.context.concreteTypes p p')
    (h : (typecheck p').diagnostics = []) : ∀ r ∈ (typecheck p).reports,
      (∃ c ∈ p.classes, ClassTable.OverrideOpen (typecheck p).value.context c r) ∨
        ∃ v ∈ (typecheck p).value.visits, v.Confuses r := by
  obtain ⟨hbuild, hcheck⟩ := ClassTable.reports_of_typecheck h
  obtain ⟨hfit', hmismatch⟩ := ClassTable.build_fitting hbuild
  have hfit := hfit'.of_filled hp
  have hvalue : (typecheck p).value = ⟨Context.ofClasses p.classes, p.classes.map some⟩ := by
    rw [typecheck, value_bind, value_bind, value_pure, hfit.build_eq]
  have hreports : (typecheck p).reports =
      p.classes.flatMap (ClassTable.mismatchReports (Context.ofClasses p.classes)) ++
        (ClassTable.check ⟨Context.ofClasses p.classes, p.classes.map some⟩).reports := by
    rw [typecheck, reports_bind, reports_bind, reports_pure, List.append_nil, hfit.build_eq]
  rw [hfit'.build_eq] at hcheck
  rw [hvalue] at hp ⊢
  have hcompletion := hfit'.completion (hfit'.regular_of_filled hp herror) hp hmismatch
  intro r hr
  rw [hreports] at hr
  rcases List.mem_append.mp hr with hr | hr
  · obtain ⟨c, hc, hr⟩ := List.mem_flatMap.mp hr
    exact Or.inl ⟨c, hc, ClassTable.overrideOpen_of_filled hp hmismatch hr⟩
  · exact Or.inr (hfit'.check_excused hp hcompletion hcheck [] r hr)

/-- The text of two classes with placeholders for a parameter, which the second class overrides with `Int`,
and for an attribute, which it compares with a text where a number could stand as well. -/
def hastyText : String :=
  "class A \x7b f(x : AUTO_TYPE) : Int \x7b 1 \x7d; \x7d; class B inherits A \x7b y : AUTO_TYPE; " ++
    "f(x : Int) : Int \x7b 1 \x7d; g() : Bool \x7b (if true then y else 1 fi) = \"a\" \x7d; \x7d;"

/-- These classes, with types in place of the two placeholders. -/
def hasty (x y : TypeName) : Program :=
  ⟨[⟨0, "A", none, [.method ⟨1, "f", [⟨"x", x, ⟨12, 25⟩⟩], TypeName.int, .int ⟨35, 36⟩ 1, ⟨10, 38⟩⟩],
      ⟨0, 42⟩⟩,
    ⟨2, "B", some "A", [
      .attr ⟨"y", y, none, ⟨64, 77⟩⟩,
      .method ⟨3, "f", [⟨"x", TypeName.int, ⟨81, 88⟩⟩], TypeName.int, .int ⟨98, 99⟩ 1, ⟨79, 101⟩⟩,
      .method ⟨4, "g", [], TypeName.bool,
        .binary ⟨116, 148⟩ .eq
          (.paren ⟨116, 142⟩
            (.cond ⟨117, 141⟩ (.bool ⟨120, 124⟩ true) (.ident ⟨130, 131⟩ "y") (.int ⟨137, 138⟩ 1)))
          (.str ⟨145, 148⟩ "a"), ⟨103, 150⟩⟩], ⟨43, 154⟩⟩]⟩

theorem hasty_filled {U : List TypeName} {x y : TypeName} (hx : x ∈ U) (hy : y ∈ U) :
    Program.Filled U (hasty TypeName.auto TypeName.auto) (hasty x y) := by
  have hint : TypeName.Filled U TypeName.int TypeName.int := .kept (by decide)
  have hbool : TypeName.Filled U TypeName.bool TypeName.bool := .kept (by decide)
  refine .cons ⟨rfl, rfl, rfl, .cons (.method ?_) .nil, rfl⟩ (.cons ⟨rfl, rfl, rfl,
    .cons (.attr ⟨rfl, .filled hy, .none, rfl⟩) (.cons (.method ?_) (.cons (.method ?_) .nil)), rfl⟩ .nil)
  · exact ⟨rfl, rfl, .cons ⟨rfl, .filled hx, rfl⟩ .nil, hint, .int, rfl⟩
  · exact ⟨rfl, rfl, .cons ⟨rfl, hint, rfl⟩ .nil, hint, .int, rfl⟩
  · exact ⟨rfl, rfl, .nil, hbool, .binary (.paren (.cond .bool .ident .int)) .str, rfl⟩

theorem hasty_tolerated :
    let p := hasty TypeName.auto TypeName.auto
    (∀ c ∈ p.classes, c.parent ≠ some TypeName.error) ∧
      Program.Filled (typecheck p).value.context.concreteTypes p (hasty TypeName.int TypeName.object) ∧
      (typecheck (hasty TypeName.int TypeName.object)).diagnostics = [] ∧
      (typecheck p).reports.length = 2 ∧ ∀ r ∈ (typecheck p).reports,
        (∃ c ∈ p.classes, ClassTable.OverrideOpen (typecheck p).value.context c r) ∨
          ∃ v ∈ (typecheck p).value.visits, v.Confuses r := by
  intro p
  have herror : ∀ c ∈ p.classes, c.parent ≠ some TypeName.error := by decide +kernel
  have hfilled : Program.Filled (typecheck p).value.context.concreteTypes p
      (hasty TypeName.int TypeName.object) := hasty_filled (by decide +kernel) (by decide +kernel)
  have hclean : (typecheck (hasty TypeName.int TypeName.object)).diagnostics = [] := by decide +kernel
  exact ⟨herror, hfilled, hclean, by decide +kernel, typecheck_tolerates herror hfilled hclean⟩

/-- A class with the type for errors as its parent, and one that joins an attribute with it and adds a number. -/
def orphan (x : TypeName) : Program :=
  ⟨[⟨0, "E", some TypeName.error, [], ⟨0, 0⟩⟩,
    ⟨1, "Main", none, [
      .attr ⟨"x", x, none, ⟨0, 0⟩⟩,
      .method ⟨2, "f", [⟨"e", "E", ⟨0, 0⟩⟩], TypeName.int,
        .binary ⟨0, 0⟩ .add
          (.cond ⟨0, 0⟩ (.bool ⟨0, 0⟩ true) (.ident ⟨0, 0⟩ "x") (.ident ⟨0, 0⟩ "e")) (.int ⟨0, 0⟩ 1),
        ⟨0, 0⟩⟩], ⟨0, 0⟩⟩]⟩

theorem orphan_filled {U : List TypeName} {x : TypeName} (hx : x ∈ U) :
    Program.Filled U (orphan TypeName.auto) (orphan x) := by
  refine .cons ⟨rfl, rfl, rfl, .nil, rfl⟩ (.cons ⟨rfl, rfl, rfl,
    .cons (.attr ⟨rfl, .filled hx, .none, rfl⟩) (.cons (.method ?_) .nil), rfl⟩ .nil)
  exact ⟨rfl, rfl, .cons ⟨rfl, .kept (by decide), rfl⟩ .nil, .kept (by decide),
    .binary (.cond .bool .ident .ident) .int, rfl⟩

/-- Programs are reported although a filling is not: for an overriding method, for a comparison, and, where
a class has the type for errors as its parent, also for an operation. -/
theorem reported_despite_filling :
    (let p := hasty TypeName.auto TypeName.auto
     parse hastyText = .ok p ∧
       Program.Filled (typecheck p).value.context.concreteTypes p (hasty TypeName.int TypeName.object) ∧
       (typecheck (hasty TypeName.int TypeName.object)).diagnostics = [] ∧
       (typecheck p).reports = [⟨.methodSignatureMismatch "f" "A", ⟨79, 101⟩⟩,
         ⟨.invalidComparison "Int" "String", ⟨116, 148⟩⟩]) ∧
    (let p := orphan TypeName.auto
     Program.Filled (typecheck p).value.context.concreteTypes p (orphan "Main") ∧
       (typecheck (orphan "Main")).diagnostics = [] ∧
       (typecheck p).reports = [⟨.invalidOperation "E" "Int", ⟨0, 0⟩⟩]) := by
  refine ⟨⟨by cbv, hasty_filled (by decide +kernel) (by decide +kernel), by decide +kernel,
    by decide +kernel⟩, orphan_filled (by decide +kernel), by decide +kernel, by decide +kernel⟩

end CoolTyping
