import CoolTyping.Proofs.Joins
import CoolTyping.Proofs.Visits

/-!
# The types of values

A value may have any type that exists, except `SELF_TYPE`, which a signature writes for the type of the
receiver. In a class table the features have types that exist, links lead to types that exist, and no link
leads to `SELF_TYPE`. So where the class at hand and the variables in sight have types that a value may have,
every expression has one too, whatever is reported on the way.
-/

namespace CoolTyping

open Reporting

/-- The types that attributes have and methods give back. -/
def TypeInfo.featureTypes (i : TypeInfo) : List TypeName := i.attributes.map (·.ty) ++ i.methods.map (·.ret)

namespace Context

variable {ctx : Context} {a b t C : TypeName}

/-- A value may have the type: it exists, and it is not `SELF_TYPE`, which stands for another one. -/
def Expressible (ctx : Context) (t : TypeName) : Prop := ctx.contains t = true ∧ t ≠ TypeName.selfType

instance : Decidable (ctx.Expressible t) := inferInstanceAs (Decidable (_ ∧ _))

/-- The basic types exist, and so do the types of all features. -/
structure SelfContained (ctx : Context) : Prop where
  basicTypes : ∀ t ∈ basic.names, ctx.contains t = true
  features : ∀ i ∈ ctx.types, ∀ t ∈ i.featureTypes, ctx.contains t = true

/-- Neither links nor features lead out of the context. -/
structure Closed (ctx : Context) : Prop extends Settled ctx, SelfContained ctx

namespace SelfContained

theorem declaredType (h : ctx.SelfContained) (name : TypeName) (span : Span) :
    ctx.contains (ClassTable.declaredType ctx name span).value = true := by
  unfold ClassTable.declaredType resolve
  by_cases hname : ctx.contains name = true
  · simp [hname]
  · simpa [hname] using h.basicTypes TypeName.error (by decide)

theorem attributeType (h : ctx.SelfContained) {a : Attribute} (ha : a ∈ ctx.allAttributes t) :
    ctx.contains a.ty = true := by
  obtain ⟨D, _, ha⟩ := List.mem_flatMap.mp ha
  unfold ownAttributes at ha
  cases hi : ctx.info? D with
  | none => simp [hi] at ha
  | some i =>
      rw [hi] at ha
      exact h.features i (List.mem_of_find?_eq_some hi) a.ty (List.mem_append_left _ (List.mem_map_of_mem ha))

theorem resultType (h : ctx.SelfContained) {owner : TypeName} {name : String} {m : Signature}
    (hm : ctx.method? t name = some (owner, m)) : ctx.contains m.ret = true := by
  have hresults : ctx.MethodsIn fun _ m => ctx.contains m.ret = true :=
    fun i hi m hm => h.features i hi m.ret (List.mem_append_right _ (List.mem_map_of_mem hm))
  exact (hresults.of_method? hm).1

end SelfContained

namespace Closed

variable (h : ctx.Closed)
include h

theorem expressible_basic (ht : t ∈ basic.names) (hself : t ≠ TypeName.selfType) : ctx.Expressible t :=
  ⟨h.basicTypes t ht, hself⟩

theorem expressible_error : ctx.Expressible TypeName.error := h.expressible_basic (by decide) (by decide)

theorem expressible_object : ctx.Expressible TypeName.object := h.expressible_basic (by decide) (by decide)

theorem expressible_int : ctx.Expressible TypeName.int := h.expressible_basic (by decide) (by decide)

theorem expressible_bool : ctx.Expressible TypeName.bool := h.expressible_basic (by decide) (by decide)

theorem expressible_of_descends (ha : ctx.Expressible a) (hab : ctx.Descends a b) : ctx.Expressible b := by
  refine ⟨h.rooted.contains_of_descends ha.1 hab, ?_⟩
  rintro rfl
  rcases hab.cases_tail with heq | ⟨x, _, hx⟩
  · exact ha.2 heq.symm
  · exact h.unsealed hx (by decide)

theorem expressible_join (ha : ctx.Expressible a) (hb : ctx.Expressible b) : ctx.Expressible (ctx.join a b) := by
  cases hwa : a.isWildcard with
  | true =>
      cases hwb : b.isWildcard with
      | true =>
          rw [join_wildcards hwa hwb]
          split
          · exact h.expressible_error
          · exact h.expressible_basic (by decide) (by decide)
      | false => rwa [join_wildcard_left hwa hwb]
  | false =>
      cases hwb : b.isWildcard with
      | true => rwa [join_wildcard_right hwa hwb]
      | false =>
          by_cases hroot : a = TypeName.object ∨ b = TypeName.object
          · rw [join_object hwa hwb hroot]
            exact h.expressible_object
          · rw [join_climb hwa hwb hroot]
            cases hab : ctx.climb a b with
            | some c => exact h.expressible_of_descends ha (climb_eq_some hab).1
            | none =>
                cases hba : ctx.climb b a with
                | some c => exact h.expressible_of_descends hb (climb_eq_some hba).1
                | none => exact h.expressible_object

theorem expressible_foldl_join {ts : List TypeName} (ha : ctx.Expressible a)
    (hts : ∀ t ∈ ts, ctx.Expressible t) : ctx.Expressible (ts.foldl ctx.join a) := by
  induction ts generalizing a with
  | nil => exact ha
  | cons t ts ih =>
      obtain ⟨ht, hts⟩ := List.forall_mem_cons.mp hts
      exact ih (h.expressible_join ha ht) hts

theorem expressible_joinAll {ts : List TypeName} (hts : ∀ t ∈ ts, ctx.Expressible t) :
    ctx.Expressible (ctx.joinAll ts) := by
  cases ts with
  | nil => exact h.expressible_object
  | cons t ts =>
      obtain ⟨ht, hts⟩ := List.forall_mem_cons.mp hts
      exact h.expressible_foldl_join ht hts

end Closed

theorem expressible_resolveSelf (ht : ctx.contains t = true) (hC : ctx.Expressible C) :
    ctx.Expressible (t.resolveSelf C) := by
  unfold TypeName.resolveSelf
  split
  · exact hC
  · rename_i hne
    exact ⟨ht, by simpa using hne⟩

end Context

/-! ## Environments -/

/-- The class at hand and the variables in sight have types that a value may have. -/
structure Env.Valued (Γ : Env) : Prop where
  current : Γ.context.Expressible Γ.current
  scope : ∀ frame ∈ Γ.scope.frames, ∀ x ∈ frame, Γ.context.Expressible x.2

/-- All types that typing may meet exist. -/
structure Env.Closed (Γ : Env) : Prop extends Valued Γ where
  context : Γ.context.Closed

namespace Env.Closed

variable {Γ : Env} {t : TypeName} {name : String}

theorem nested (hΓ : Γ.Closed) : Γ.nested.Closed where
  context := hΓ.context
  current := hΓ.current
  scope := List.forall_mem_cons.mpr ⟨fun _ hx => absurd hx List.not_mem_nil, hΓ.scope⟩

theorem declare (hΓ : Γ.Closed) (name : String) (ht : Γ.context.Expressible t) : (Γ.declare name t).Closed := by
  refine ⟨⟨hΓ.current, ?_⟩, hΓ.context⟩
  obtain ⟨_, _, _, ⟨frames⟩⟩ := Γ
  cases frames with
  | nil => simpa [Env.declare, Scope.declare] using ht
  | cons frame frames =>
      obtain ⟨hframe, hframes⟩ := List.forall_mem_cons.mp hΓ.scope
      exact List.forall_mem_cons.mpr ⟨List.forall_mem_cons.mpr ⟨ht, hframe⟩, hframes⟩

theorem lookup? (hΓ : Γ.Closed) (h : Γ.scope.lookup? name = some t) : Γ.context.Expressible t := by
  obtain ⟨frame, hframe, hlookup⟩ := List.exists_of_findSome?_eq_some h
  obtain ⟨before, after, rfl, _⟩ := List.lookup_eq_some_iff.mp hlookup
  exact hΓ.scope _ hframe (name, t) (by simp)

theorem declared (hΓ : Γ.Closed) (name : TypeName) : Γ.context.Expressible (Γ.declared name) := by
  refine Context.expressible_resolveSelf ?_ hΓ.current
  split
  · assumption
  · exact hΓ.context.expressible_error.1

theorem declaredAt (hΓ : Γ.Closed) (name : TypeName) (span : Span) :
    Γ.context.Expressible (Γ.declaredAt name span).value :=
  Context.expressible_resolveSelf (hΓ.context.declaredType name span) hΓ.current

theorem call (hΓ : Γ.Closed) (ht : Γ.context.Expressible t) (owner : TypeName) (method : String) (n : Nat)
    (span : Span) : Γ.context.Expressible (Γ.call owner t method n span).value.2 := by
  unfold Env.call
  cases hm : Γ.context.method? owner method with
  | none => exact hΓ.context.expressible_error
  | some found =>
      have hret := Context.expressible_resolveSelf (hΓ.context.resultType hm) ht
      dsimp only
      split
      · exact hret
      · exact hret

theorem invoke (hΓ : Γ.Closed) (ht : Γ.context.Expressible t) (method : String) (n : Nat) (span : Span) :
    Γ.context.Expressible (Γ.invoke t method n span).value.2 := by
  unfold Env.invoke
  split
  · exact hΓ.context.expressible_basic (by decide) (by decide)
  · exact hΓ.call ht t method n span

theorem unary (hΓ : Γ.Closed) (op : UnaryOp) (t : TypeName) (place span : Span) :
    Γ.context.Expressible (Γ.unary op t place span).value := by
  cases op with
  | not => exact hΓ.context.expressible_bool
  | negate => exact hΓ.context.expressible_int
  | isvoid => exact hΓ.context.expressible_bool

theorem binary (hΓ : Γ.Closed) (op : BinaryOp) (left right : TypeName) (span : Span) :
    Γ.context.Expressible (Γ.binary op left right span).value := by
  rw [Env.value_binary]
  split
  · exact hΓ.context.expressible_int
  · exact hΓ.context.expressible_bool

theorem variableType (hΓ : Γ.Closed) (name : String) (span : Span) :
    Γ.context.Expressible (Γ.variableType name span).value := by
  unfold Env.variableType
  cases hlookup : Γ.scope.lookup? name with
  | some t => exact hΓ.lookup? hlookup
  | none => exact hΓ.context.expressible_error

end Env.Closed

/-- What is in sight behind bindings, whatever their initial values are. -/
theorem Env.Closed.typeBindings {Γ : Env} (hΓ : Γ.Closed) (bindings : List (Binder × Option Expr)) :
    (typeBindings Γ bindings).value.Closed := by
  induction bindings generalizing Γ with
  | nil => exact hΓ
  | cons b bindings ih => exact ih (hΓ.declare b.1.name (hΓ.declaredAt b.1.ty b.1.span))

mutual

theorem typeOf_expressible {Γ : Env} (hΓ : Γ.Closed) : (e : Expr) →
    Γ.context.Expressible (typeOf Γ e).value
  | .assign _ name value => by
      simp only [typeOf, value_bind]
      split
      · exact hΓ.context.expressible_error
      · split
        · rename_i hlookup
          exact hΓ.lookup? hlookup
        · exact hΓ.context.expressible_error
  | .dispatch span receiver method args => by
      rw [typeOf_dispatch]
      exact hΓ.invoke (typeReceiver_expressible hΓ receiver) method args.length span
  | .staticDispatch span receiver ancestor method args => by
      rw [typeOf]
      exact hΓ.call (typeOf_expressible hΓ receiver) _ method args.length span
  | .cond _ _ thenBranch elseBranch => by
      rw [typeOf]
      exact hΓ.context.expressible_join (typeOf_expressible hΓ thenBranch) (typeOf_expressible hΓ elseBranch)
  | .loop .. => by
      rw [typeOf]
      exact hΓ.context.expressible_object
  | .letIn _ bindings body => by
      rw [typeOf, value_bind]
      have hbody := typeOf_expressible (hΓ.nested.typeBindings bindings) body
      rwa [typeBindings_context] at hbody
  | .caseOf _ scrutinee arms => by
      rw [typeOf]
      exact hΓ.context.expressible_joinAll (typeArms_expressible hΓ arms)
  | .block _ body => by
      rw [typeOf]
      exact typeBlock_expressible hΓ hΓ.context.expressible_object body
  | .binary span op left right => by
      rw [typeOf]
      exact hΓ.binary op _ _ span
  | .unary span op operand => by
      rw [typeOf]
      exact hΓ.unary op _ operand.span span
  | .new span ty => by
      rw [typeOf]
      exact hΓ.declaredAt ty span
  | .paren _ inner => by
      rw [typeOf]
      exact typeOf_expressible hΓ inner
  | .ident span name => by
      rw [typeOf]
      exact hΓ.variableType name span
  | .int .. => by
      rw [typeOf]
      exact hΓ.context.expressible_int
  | .str .. => by
      rw [typeOf]
      exact hΓ.context.expressible_basic (by decide) (by decide)
  | .bool .. => by
      rw [typeOf]
      exact hΓ.context.expressible_bool

theorem typeReceiver_expressible {Γ : Env} (hΓ : Γ.Closed) : (receiver : Option Expr) →
    Γ.context.Expressible (typeReceiver Γ receiver).value
  | some e => by
      rw [typeReceiver]
      exact typeOf_expressible hΓ e
  | none => by
      rw [typeReceiver]
      exact hΓ.current

theorem typeBlock_expressible {Γ : Env} {last : TypeName} (hΓ : Γ.Closed)
    (hlast : Γ.context.Expressible last) : (es : List Expr) → Γ.context.Expressible (typeBlock Γ last es).value
  | [] => by
      rw [typeBlock]
      exact hlast
  | e :: es => by
      rw [typeBlock, value_bind]
      exact typeBlock_expressible hΓ (typeOf_expressible hΓ e) es

theorem typeArms_expressible {Γ : Env} (hΓ : Γ.Closed) : (arms : List (Binder × Expr)) →
    ∀ t ∈ (typeArms Γ arms).value, Γ.context.Expressible t
  | [] => fun _ ht => absurd ht List.not_mem_nil
  | (b, body) :: arms => by
      rw [typeArms]
      refine List.forall_mem_cons.mpr ⟨?_, typeArms_expressible hΓ arms⟩
      exact typeOf_expressible (hΓ.nested.declare b.name (hΓ.declaredAt b.ty b.span)) body

end

/-! ## Class tables -/

namespace Context.SelfContained

open ClassTable

variable {ctx ctx' : Context} {t name : TypeName}

theorem modify {f : TypeInfo → TypeInfo} (h : ctx.SelfContained)
    (hlabel : ∀ i, (f i).name = i.name ∧ (f i).kind = i.kind)
    (hfeatures : ∀ i, ∀ u ∈ (f i).featureTypes, u ∈ i.featureTypes ∨ ctx.contains u = true) :
    (ctx.modify t f).SelfContained := by
  have hcontains : ∀ {u}, (ctx.modify t f).contains u = true ↔ ctx.contains u = true :=
    contains_congr (labels_modify hlabel)
  refine ⟨fun u hu => hcontains.mpr (h.basicTypes u hu), fun j hj u hu => hcontains.mpr ?_⟩
  obtain ⟨i, hi, rfl⟩ := List.mem_map.mp hj
  split at hu
  · rcases hfeatures i u hu with hu | hu
    · exact h.features i hi u hu
    · exact hu
  · exact h.features i hi u hu

theorem create (h : ctx.SelfContained) (hcreate : ctx.create name = .ok ctx') : ctx'.SelfContained := by
  obtain ⟨_, rfl⟩ := create_eq_ok hcreate
  have hcontains : ∀ {u}, ctx.contains u = true →
      (⟨ctx.types ++ [⟨name, .declared, some TypeName.object, [], []⟩]⟩ : Context).contains u = true := by
    intro u hu
    rw [contains, List.any_append, Bool.or_eq_true]
    exact Or.inl hu
  refine ⟨fun u hu => hcontains (h.basicTypes u hu), fun i hi u hu => ?_⟩
  rcases List.mem_append.mp hi with hi | hi
  · exact hcontains (h.features i hi u hu)
  · obtain rfl := List.mem_singleton.mp hi
    exact absurd hu List.not_mem_nil

theorem register (h : ctx.SelfContained) (cs : List ClassDecl) :
    (register ctx cs).value.context.SelfContained := by
  induction cs generalizing ctx with
  | nil => exact h
  | cons c cs ih =>
      unfold ClassTable.register
      cases hcreate : ctx.create c.name with
      | error e => exact ih h
      | ok ctx' => exact ih (h.create hcreate)

theorem link (h : ctx.SelfContained) (c : ClassDecl) (parent : TypeName) :
    (link ctx c parent).value.SelfContained := by
  unfold ClassTable.link
  cases hparent : ctx.setParent c.name parent with
  | error e => exact h
  | ok ctx' =>
      obtain ⟨rfl, _⟩ := setParent_eq_ok hparent
      exact h.modify (fun _ => ⟨rfl, rfl⟩) fun _ _ hu => Or.inl hu

theorem linkParent (h : ctx.SelfContained) (c : ClassDecl) : (linkParent ctx c).value.SelfContained := by
  unfold ClassTable.linkParent
  cases c.parent with
  | none => exact h
  | some parent =>
      dsimp only
      cases ctx.resolve parent with
      | ok parent => exact h.link c parent
      | error e => exact h.link c TypeName.error

theorem addAttribute (h : ctx.SelfContained) (owner : TypeName) {a : Attribute}
    (ha : ctx.contains a.ty = true) : (ctx.addAttribute owner a).SelfContained := by
  refine h.modify (fun _ => ⟨rfl, rfl⟩) fun i u hu => ?_
  simp only [TypeInfo.featureTypes, List.map_append, List.map_cons, List.map_nil, List.mem_append,
    List.mem_singleton] at hu ⊢
  rcases hu with (hu | rfl) | hu
  · exact Or.inl (Or.inl hu)
  · exact Or.inr ha
  · exact Or.inl (Or.inr hu)

theorem addMethod (h : ctx.SelfContained) (owner : TypeName) {m : Signature}
    (hm : ctx.contains m.ret = true) : (ctx.addMethod owner m).SelfContained := by
  refine h.modify (fun _ => ⟨rfl, rfl⟩) fun i u hu => ?_
  simp only [TypeInfo.featureTypes, List.map_append, List.map_cons, List.map_nil, List.mem_append,
    List.mem_singleton] at hu ⊢
  rcases hu with hu | hu | rfl
  · exact Or.inl (Or.inl hu)
  · exact Or.inl (Or.inr hu)
  · exact Or.inr hm

theorem defineAttribute (h : ctx.SelfContained) (owner : TypeName) (a : AttrDecl) :
    (defineAttribute owner ctx a).value.SelfContained := by
  unfold ClassTable.defineAttribute
  rw [value_bind]
  split
  · exact h
  · exact h.addAttribute owner (h.declaredType a.ty a.span)

theorem defineMethod (h : ctx.SelfContained) (owner : TypeName) (m : MethodDecl) :
    (defineMethod owner ctx m).value.SelfContained := by
  unfold ClassTable.defineMethod
  rw [value_bind, value_bind]
  split
  · exact h
  · exact h.addMethod owner (h.declaredType m.ret m.span)

theorem defineFeatures (h : ctx.SelfContained) (c : ClassDecl) : (defineFeatures ctx c).value.SelfContained := by
  unfold ClassTable.defineFeatures
  rw [value_bind]
  refine foldlM_value (foldlM_value h fun ctx h a _ => ?_) fun ctx h m _ => ?_
  · exact h.defineAttribute c.name a
  · exact h.defineMethod c.name m

theorem checkInherited (h : ctx.SelfContained) (c : ClassDecl) : (checkInherited ctx c).value.SelfContained := by
  unfold ClassTable.checkInherited
  cases ctx.parent? c.name with
  | none => exact h
  | some parent =>
      refine h.modify (fun _ => ⟨rfl, rfl⟩) fun i u hu => Or.inl ?_
      exact ((List.filter_sublist.map _).append (List.Sublist.refl _)).subset hu

end Context.SelfContained

theorem Context.basic_selfContained : basic.SelfContained := by
  constructor <;> decide

namespace ClassTable

theorem build_selfContained (p : Program) : (build p).value.context.SelfContained := by
  have hregistered := Context.basic_selfContained.register p.classes
  have hlinked : (register Context.basic p.classes).value.linked.SelfContained :=
    foldlM_value hregistered fun _ h c _ => h.linkParent c
  have hfeatured : (register Context.basic p.classes).value.featured.SelfContained :=
    foldlM_value hlinked fun _ h c _ => h.defineFeatures c
  exact foldlM_value hfeatured fun _ h c _ => h.checkInherited c

theorem build_closed (p : Program) : (build p).value.context.Closed where
  toSettled := build_settled p
  toSelfContained := build_selfContained p

/-- What is in sight in a class of a class table. -/
theorem classEnv_closed (p : Program) {c : ClassDecl} (hc : c ∈ (build p).value.classes) :
    (classEnv (build p).value.context c.name).Closed := by
  have hclosed := build_closed p
  have hconcrete := (build_wellFormed p).class_concrete hc
  have hname : (build p).value.context.Expressible c.name :=
    ⟨Context.contains_iff.mpr ((Context.concreteTypes_sublist _).subset hconcrete),
      ((build_wellFormed p).concrete_ne hconcrete).2.1⟩
  have hself : (⟨(build p).value.context, c.name, c.name,
      Scope.empty.push.declare selfName c.name⟩ : Env).Closed := by
    refine ⟨⟨hname, ?_⟩, hclosed⟩
    simpa [Scope.declare, Scope.push, Scope.empty] using hname
  refine (List.foldlRecOn (motive := fun Γ : Env => Γ.Closed ∧ Γ.context = (build p).value.context) _ _
    ⟨hself, rfl⟩ ?_).1
  rintro Γ ⟨hΓ, hcontext⟩ a ha
  refine ⟨hΓ.declare a.name ?_, hcontext⟩
  rw [hcontext]
  exact Context.expressible_resolveSelf (hclosed.attributeType ha) hname

end ClassTable

/-- What is in sight in a method, with the types of its parameters. -/
theorem Env.Closed.methodEnv {Γ : Env} (hΓ : Γ.Closed) (m : MethodDecl) : (methodEnv Γ m).Closed :=
  List.foldlRecOn _ _ ⟨⟨hΓ.current, hΓ.nested.scope⟩, hΓ.context⟩
    fun _ h p _ => h.declare p.name (h.declared p.ty)

end CoolTyping
