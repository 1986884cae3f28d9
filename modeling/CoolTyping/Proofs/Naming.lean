import CoolTyping.Proofs.Fillings
import CoolTyping.Proofs.Visits

/-!
# Names in expressions

Which of the names in an expression stand for nothing can be told without typing it: it depends only on the
types that exist and on the variables in sight. The strict check reports exactly these names, so filling
placeholders with types that exist does not change what it says about them.
-/

namespace CoolTyping

open Reporting

/-- The error is about the type of an expression. The others are about names, about how classes are put
together, or come from inference. -/
def SemanticError.aboutTypes : SemanticError → Bool
  | incompatibleTypes _ _ | invalidOperation _ _ | invalidComparison _ _ | boolExpected _
  | staticDispatchAncestorViolation _ _ | methodNotDefined _ _ | arityMismatch _ _ _ => true
  | duplicateClass _ | duplicateAttribute _ _ | duplicateMethod _ _ | methodSignatureMismatch _ _
  | unknownType _ | illegalParent _ _ | cyclicInheritance _ | variableNotDefined _ _ | selfReadonly
  | noMethodCandidate _ _ _ | ambiguousType _ _ => false

/-! ## Reports about names -/

/-- What names are looked up in. -/
structure Names where
  types : TypeName → Bool
  /-- Where messages say a variable is missing. -/
  place : String
  bound : List String

namespace Names

def declare (N : Names) (name : String) : Names := { N with bound := name :: N.bound }

def declareAll (N : Names) (names : List String) : Names := names.foldl declare N

def typeReports (N : Names) (ty : TypeName) (span : Span) : List Report :=
  if N.types ty then [] else [⟨.unknownType ty, span⟩]

def variableReports (N : Names) (name : String) (span : Span) : List Report :=
  if N.bound.contains name then [] else [⟨.variableNotDefined name N.place, span⟩]

/-- What is wrong with a name as the target of an assignment. -/
def targetReports (N : Names) (name : String) (span : Span) : List Report :=
  if name == selfName then [⟨.selfReadonly, span⟩] else N.variableReports name span

end Names

mutual

/-- What is wrong with the names in an expression. -/
def nameReports (N : Names) : Expr → List Report
  | .assign span name value => nameReports N value ++ N.targetReports name span
  | .dispatch _ receiver _ args => nameReportsOpt N receiver ++ nameReportsAll N args
  | .staticDispatch span receiver ancestor _ args =>
    nameReports N receiver ++ (N.typeReports ancestor span ++ nameReportsAll N args)
  | .cond _ test thenBranch elseBranch =>
    nameReports N test ++ (nameReports N thenBranch ++ nameReports N elseBranch)
  | .loop _ test body => nameReports N test ++ nameReports N body
  | .letIn _ bindings body =>
    nameReportsInits N bindings ++ nameReports (N.declareAll (bindings.map (·.1.name))) body
  | .caseOf _ scrutinee arms => nameReports N scrutinee ++ nameReportsArms N arms
  | .block _ body => nameReportsAll N body
  | .binary _ _ left right => nameReports N left ++ nameReports N right
  | .unary _ _ operand => nameReports N operand
  | .new span ty => N.typeReports ty span
  | .paren _ inner => nameReports N inner
  | .ident span name => N.variableReports name span
  | .int .. | .str .. | .bool .. => []
termination_by structural e => e

def nameReportsOpt (N : Names) : Option Expr → List Report
  | some e => nameReports N e
  | none => []
termination_by structural e => e

def nameReportsAll (N : Names) : List Expr → List Report
  | [] => []
  | e :: es => nameReports N e ++ nameReportsAll N es
termination_by structural es => es

def nameReportsInits (N : Names) : List (Binder × Option Expr) → List Report
  | [] => []
  | (b, init) :: bindings =>
    N.typeReports b.ty b.span ++ (nameReportsOpt N init ++ nameReportsInits (N.declare b.name) bindings)
termination_by structural bindings => bindings

def nameReportsArms (N : Names) : List (Binder × Expr) → List Report
  | [] => []
  | (b, body) :: arms =>
    N.typeReports b.ty b.span ++ (nameReports (N.declare b.name) body ++ nameReportsArms N arms)
termination_by structural arms => arms

end

/-! ## Names in sight -/

def Scope.names (s : Scope) : List String := s.frames.flatMap fun frame => frame.map (·.1)

/-- What is in sight, types apart. -/
def Env.names (Γ : Env) : Names := ⟨Γ.context.contains, Γ.place, Γ.scope.names⟩

theorem Scope.isSome_lookup? (s : Scope) (name : String) :
    (s.lookup? name).isSome = s.names.contains name := by
  have hframe : ∀ frame : List (String × TypeName),
      (frame.lookup name).isSome = (frame.map (·.1)).contains name := by
    intro frame
    induction frame with
    | nil => rfl
    | cons x frame ih =>
        rw [List.lookup_cons, List.map_cons, List.contains_cons]
        cases h : name == x.1 <;> simp [ih]
  rw [Bool.eq_iff_iff, lookup?, List.findSome?_isSome_iff, names]
  simp only [hframe, List.contains_eq_mem, decide_eq_true_eq, List.mem_flatMap]

namespace Env

variable (Γ : Env) (name : String) (ty : TypeName)

@[simp] theorem names_declare : (Γ.declare name ty).names = Γ.names.declare name := by
  unfold names declare Names.declare Scope.declare Scope.names
  cases Γ.scope.frames <;> rfl

@[simp] theorem names_nested : Γ.nested.names = Γ.names := rfl

end Env

/-! ## The reports of the check -/

/-- The reports that are not about the types of expressions. -/
def Reporting.nominal {α : Type} (x : Reporting α) : List Report := x.reports.filter (!·.error.aboutTypes)

section Nominal

variable {α β : Type}

@[simp] theorem nominal_pure (a : α) : (pure a : Reporting α).nominal = [] := rfl

@[simp] theorem nominal_bind (x : Reporting α) (f : α → Reporting β) :
    (x >>= f).nominal = x.nominal ++ (f x.value).nominal := List.filter_append ..

@[simp] theorem nominal_map (f : α → β) (x : Reporting α) : (f <$> x).nominal = x.nominal := by
  rw [Reporting.nominal, reports_map, Reporting.nominal]

theorem nominal_reportUnless {ok : Bool} {error : SemanticError} {span : Span}
    (h : error.aboutTypes = true) : (reportUnless ok error span).nominal = [] := by
  cases ok
  · exact List.filter_cons_of_neg (by simp [h])
  · rfl

end Nominal

namespace Env

variable (Γ : Env)

@[simp] theorem nominal_expect (found expected : TypeName) (span : Span) :
    (Γ.expect found expected span).nominal = [] := nominal_reportUnless rfl

@[simp] theorem nominal_condition (t : TypeName) (place : Span) : (Γ.condition t place).nominal = [] :=
  nominal_reportUnless rfl

@[simp] theorem nominal_descends (t ancestor : TypeName) (place : Span) :
    (Γ.descends t ancestor place).nominal = [] := nominal_reportUnless rfl

@[simp] theorem nominal_binary (op : BinaryOp) (left right : TypeName) (span : Span) :
    (Γ.binary op left right span).nominal = [] := by
  unfold binary
  split
  · rw [nominal_bind, nominal_reportUnless rfl, nominal_pure, List.append_nil]
  · rw [nominal_bind, nominal_reportUnless rfl, nominal_pure, List.append_nil]

@[simp] theorem nominal_unary (op : UnaryOp) (t : TypeName) (place span : Span) :
    (Γ.unary op t place span).nominal = [] := by
  cases op with
  | not => rw [unary, nominal_bind, nominal_reportUnless rfl, nominal_pure, List.append_nil]
  | negate => rw [unary, nominal_bind, nominal_reportUnless rfl, nominal_pure, List.append_nil]
  | isvoid => rfl

theorem nominal_call (owner receiver : TypeName) (method : String) (argCount : Nat) (span : Span) :
    (Γ.call owner receiver method argCount span).nominal = [] := by
  unfold call
  split
  · split
    · rfl
    · rfl
  · rw [nominal_bind, nominal_reportUnless rfl, nominal_pure, List.append_nil]

@[simp] theorem nominal_invoke (t : TypeName) (method : String) (argCount : Nat) (span : Span) :
    (Γ.invoke t method argCount span).nominal = [] := by
  unfold invoke
  split
  · rfl
  · exact Γ.nominal_call t t method argCount span

@[simp] theorem nominal_declaredAt (ty : TypeName) (span : Span) :
    (Γ.declaredAt ty span).nominal = Γ.names.typeReports ty span := by
  rw [declaredAt, nominal_bind, nominal_pure, List.append_nil]
  unfold ClassTable.declaredType Context.resolve Names.typeReports
  by_cases h : Γ.context.contains ty = true
  · simp [h, names]
  · simp only [names, h, Bool.false_eq_true, ↓reduceIte]
    rfl

@[simp] theorem nominal_variableType (name : String) (span : Span) :
    (Γ.variableType name span).nominal = Γ.names.variableReports name span := by
  have hbound := Γ.scope.isSome_lookup? name
  unfold variableType Names.variableReports names
  cases h : Γ.scope.lookup? name with
  | none =>
      rw [h, Option.isSome_none] at hbound
      rw [← hbound]
      rfl
  | some t =>
      rw [h, Option.isSome_some] at hbound
      rw [← hbound]
      rfl

end Env

mutual

theorem nominal_typeOf (Γ : Env) : (e : Expr) → (typeOf Γ e).nominal = nameReports Γ.names e
  | .assign span name value => by
      have hbound := Γ.scope.isSome_lookup? name
      rw [typeOf, nameReports, nominal_bind, nominal_typeOf Γ value, Names.targetReports]
      congr 1
      by_cases hself : (name == selfName) = true
      · simp only [hself, ↓reduceIte]
        rfl
      simp only [hself, Names.variableReports, Env.names, ← hbound]
      cases Γ.scope.lookup? name with
      | none => rfl
      | some target => simp
  | .dispatch span receiver method args => by
      rw [typeOf_dispatch, nameReports]
      simp [nominal_typeReceiver Γ receiver, nominal_typeArgs Γ args]
  | .staticDispatch span receiver ancestor method args => by
      rw [typeOf, nameReports]
      simp [nominal_typeOf Γ receiver, nominal_typeArgs Γ args, Env.nominal_call]
  | .cond _ test thenBranch elseBranch => by
      rw [typeOf, nameReports]
      simp [nominal_typeOf Γ test, nominal_typeOf Γ thenBranch, nominal_typeOf Γ elseBranch]
  | .loop _ test body => by
      rw [typeOf, nameReports]
      simp [nominal_typeOf Γ test, nominal_typeOf Γ body]
  | .letIn _ bindings body => by
      obtain ⟨hreports, hnames⟩ := nominal_typeBindings Γ.nested bindings
      rw [typeOf, nameReports, nominal_bind, nominal_typeOf _ body, hreports, hnames, Env.names_nested]
  | .caseOf _ scrutinee arms => by
      rw [typeOf, nameReports]
      simp [nominal_typeOf Γ scrutinee, nominal_typeArms Γ arms]
  | .block _ body => by
      rw [typeOf, nameReports, nominal_typeBlock Γ body]
  | .binary span op left right => by
      rw [typeOf, nameReports]
      simp [nominal_typeOf Γ left, nominal_typeOf Γ right]
  | .unary span op operand => by
      rw [typeOf, nameReports]
      simp [nominal_typeOf Γ operand]
  | .new span ty => by rw [typeOf, nameReports, Env.nominal_declaredAt]
  | .paren _ inner => by rw [typeOf, nameReports, nominal_typeOf Γ inner]
  | .ident span name => by rw [typeOf, nameReports, Env.nominal_variableType]
  | .int .. => by rw [typeOf, nameReports, nominal_pure]
  | .str .. => by rw [typeOf, nameReports, nominal_pure]
  | .bool .. => by rw [typeOf, nameReports, nominal_pure]

theorem nominal_typeReceiver (Γ : Env) : (receiver : Option Expr) →
    (typeReceiver Γ receiver).nominal = nameReportsOpt Γ.names receiver
  | some e => by rw [typeReceiver, nameReportsOpt, nominal_typeOf Γ e]
  | none => by rw [typeReceiver, nameReportsOpt, nominal_pure]

theorem nominal_typeArgs (Γ : Env) : (es : List Expr) → (ts : List TypeName) →
    (typeArgs Γ es ts).nominal = nameReportsAll Γ.names es
  | [], _ => by rw [typeArgs, nameReportsAll, nominal_pure]
  | e :: es, [] => by
      rw [typeArgs, nameReportsAll]
      simp [nominal_typeOf Γ e, nominal_typeArgs Γ es]
  | e :: es, t :: ts => by
      rw [typeArgs, nameReportsAll]
      simp [nominal_typeOf Γ e, nominal_typeArgs Γ es]

theorem nominal_typeBlock (Γ : Env) {last : TypeName} : (es : List Expr) →
    (typeBlock Γ last es).nominal = nameReportsAll Γ.names es
  | [] => by rw [typeBlock, nameReportsAll, nominal_pure]
  | e :: es => by
      rw [typeBlock, nameReportsAll]
      simp [nominal_typeOf Γ e, nominal_typeBlock Γ es]

theorem nominal_checkInit (Γ : Env) {t : TypeName} : (init : Option Expr) →
    (checkInit Γ t init).nominal = nameReportsOpt Γ.names init
  | some e => by
      rw [checkInit, nameReportsOpt]
      simp [nominal_typeOf Γ e]
  | none => by rw [checkInit, nameReportsOpt, nominal_pure]

theorem nominal_typeBindings (Γ : Env) : (bindings : List (Binder × Option Expr)) →
    (typeBindings Γ bindings).nominal = nameReportsInits Γ.names bindings ∧
      (typeBindings Γ bindings).value.names = Γ.names.declareAll (bindings.map (·.1.name))
  | [] => by
      rw [typeBindings, nameReportsInits]
      exact ⟨rfl, rfl⟩
  | (b, init) :: bindings => by
      rw [typeBindings, nameReportsInits]
      obtain ⟨hreports, hnames⟩ :=
        nominal_typeBindings (Γ.declare b.name (Γ.declaredAt b.ty b.span).value) bindings
      rw [Env.names_declare] at hreports hnames
      refine ⟨?_, hnames⟩
      simp [nominal_checkInit Γ init, hreports]

theorem nominal_typeArms (Γ : Env) : (arms : List (Binder × Expr)) →
    (typeArms Γ arms).nominal = nameReportsArms Γ.names arms
  | [] => by rw [typeArms, nameReportsArms, nominal_pure]
  | (b, body) :: arms => by
      rw [typeArms, nameReportsArms]
      simp [nominal_typeOf _ body, nominal_typeArms Γ arms]

end

/-! ## Classes -/

/-- What is in sight in a class. -/
def Context.namesIn (ctx : Context) (t : TypeName) : Names :=
  Names.declareAll ⟨ctx.contains, t, [selfName]⟩ ((ctx.allAttributes t).map (·.name))

/-- What is in sight in a method of a class. -/
def Names.inMethod (N : Names) (m : MethodDecl) : Names :=
  declareAll { N with place := m.name } (m.params.map (·.name))

def Feature.nameReports (N : Names) : Feature → List Report
  | .attr a => nameReportsOpt N a.init
  | .method m => CoolTyping.nameReports (N.inMethod m) m.body

/-- What is wrong with the names in the expressions of a class. -/
def ClassDecl.nameReports (ctx : Context) (c : ClassDecl) : List Report :=
  c.features.flatMap (Feature.nameReports (ctx.namesIn c.name))

theorem names_foldl_declare {α : Type} (name : α → String) (ty : Env → α → TypeName) (as : List α)
    (Γ : Env) :
    (as.foldl (fun Γ a => Γ.declare (name a) (ty Γ a)) Γ).names = Γ.names.declareAll (as.map name) := by
  induction as generalizing Γ with
  | nil => rfl
  | cons a as ih =>
      rw [List.foldl_cons, ih, Env.names_declare]
      rfl

theorem names_classEnv (ctx : Context) (t : TypeName) : (classEnv ctx t).names = ctx.namesIn t :=
  names_foldl_declare Attribute.name (fun _ a => a.ty.resolveSelf t) _ _

theorem names_methodEnv (Γ : Env) (m : MethodDecl) : (methodEnv Γ m).names = Γ.names.inMethod m :=
  names_foldl_declare Param.name (fun Γ p => Γ.declared p.ty) _ _

theorem nominal_checkFeature (Γ : Env) (f : Feature) : (checkFeature Γ f).nominal = f.nameReports Γ.names := by
  cases f with
  | attr a => rw [checkFeature, Feature.nameReports, nominal_checkInit]
  | method m =>
      rw [checkFeature, Feature.nameReports, nominal_bind, nominal_typeOf, names_methodEnv,
        Env.nominal_expect, List.append_nil]

theorem nominal_forM {α : Type} (f : α → Reporting Unit) (as : List α) :
    (as.forM f).nominal = as.flatMap fun a => (f a).nominal := by
  rw [Reporting.nominal, reports_forM, List.filter_flatMap]
  rfl

theorem nominal_checkClass (ctx : Context) (c : ClassDecl) :
    (checkClass ctx c).nominal = c.nameReports ctx := by
  rw [checkClass, nominal_forM, ClassDecl.nameReports, ← names_classEnv]
  simp only [nominal_checkFeature]

/-- Of what is not about types, the strict check reports exactly what is wrong with names. -/
theorem nominal_check (t : ClassTable) :
    t.check.nominal = t.classes.flatMap (ClassDecl.nameReports t.context) := by
  rw [ClassTable.check, nominal_forM]
  simp only [nominal_checkClass]

/-! ## Fillings -/

/-- The placeholder and all types of `U` exist. -/
structure Names.Knows (N : Names) (U : List TypeName) : Prop where
  auto : N.types TypeName.auto = true
  all : ∀ t ∈ U, N.types t = true

namespace Names

variable {N : Names} {U : List TypeName}

theorem Knows.declare (h : N.Knows U) (name : String) : (N.declare name).Knows U := ⟨h.auto, h.all⟩

theorem types_declareAll (N : Names) (names : List String) : (N.declareAll names).types = N.types := by
  induction names generalizing N with
  | nil => rfl
  | cons name names ih => exact ih (N.declare name)

theorem Knows.declareAll (h : N.Knows U) (names : List String) : (N.declareAll names).Knows U :=
  ⟨types_declareAll N names ▸ h.auto, types_declareAll N names ▸ h.all⟩

theorem Knows.inMethod (h : N.Knows U) (m : MethodDecl) : (N.inMethod m).Knows U :=
  Knows.declareAll (N := { N with place := m.name }) ⟨h.auto, h.all⟩ _

theorem Knows.typeReports_eq (h : N.Knows U) {t t' : TypeName} (ht : TypeName.Filled U t t') (span : Span) :
    N.typeReports t span = N.typeReports t' span := by
  cases ht with
  | kept _ => rfl
  | filled ht => rw [typeReports, typeReports, if_pos h.auto, if_pos (h.all _ ht)]

end Names

theorem Expr.FilledInits.names_eq {U : List TypeName} {bs bs' : List (Binder × Option Expr)} :
    FilledInits U bs bs' → bs.map (·.1.name) = bs'.map (·.1.name)
  | .nil => rfl
  | .cons _ _ hrest => congrArg (List.cons _) hrest.names_eq

mutual

theorem nameReports_filled {U : List TypeName} {N : Names} {e e' : Expr} (hN : N.Knows U) :
    Expr.Filled U e e' → nameReports N e = nameReports N e'
  | .assign hvalue => by rw [nameReports, nameReports, nameReports_filled hN hvalue]
  | .dispatch hreceiver hargs => by
      rw [nameReports, nameReports, nameReportsOpt_filled hN hreceiver, nameReportsAll_filled hN hargs]
  | .staticDispatch hreceiver hargs => by
      rw [nameReports, nameReports, nameReports_filled hN hreceiver, nameReportsAll_filled hN hargs]
  | .cond htest ha hb => by
      rw [nameReports, nameReports, nameReports_filled hN htest, nameReports_filled hN ha,
        nameReports_filled hN hb]
  | .loop htest hbody => by
      rw [nameReports, nameReports, nameReports_filled hN htest, nameReports_filled hN hbody]
  | .letIn hbindings hbody => by
      rw [nameReports, nameReports, nameReportsInits_filled hN hbindings, hbindings.names_eq,
        nameReports_filled (hN.declareAll _) hbody]
  | .caseOf hscrutinee harms => by
      rw [nameReports, nameReports, nameReports_filled hN hscrutinee, nameReportsArms_filled hN harms]
  | .block hbody => by rw [nameReports, nameReports, nameReportsAll_filled hN hbody]
  | .binary hleft hright => by
      rw [nameReports, nameReports, nameReports_filled hN hleft, nameReports_filled hN hright]
  | .unary hoperand => by rw [nameReports, nameReports, nameReports_filled hN hoperand]
  | .paren hinner => by rw [nameReports, nameReports, nameReports_filled hN hinner]
  | .new => rfl
  | .ident => rfl
  | .int => rfl
  | .str => rfl
  | .bool => rfl

theorem nameReportsOpt_filled {U : List TypeName} {N : Names} {e e' : Option Expr} (hN : N.Knows U) :
    Expr.FilledOpt U e e' → nameReportsOpt N e = nameReportsOpt N e'
  | .none => rfl
  | .some he => by rw [nameReportsOpt, nameReportsOpt, nameReports_filled hN he]

theorem nameReportsAll_filled {U : List TypeName} {N : Names} {es es' : List Expr} (hN : N.Knows U) :
    Expr.FilledAll U es es' → nameReportsAll N es = nameReportsAll N es'
  | .nil => rfl
  | .cons he hes => by
      rw [nameReportsAll, nameReportsAll, nameReports_filled hN he, nameReportsAll_filled hN hes]

theorem nameReportsInits_filled {U : List TypeName} {N : Names} {bs bs' : List (Binder × Option Expr)}
    (hN : N.Knows U) : Expr.FilledInits U bs bs' → nameReportsInits N bs = nameReportsInits N bs'
  | .nil => rfl
  | .cons hty hinit hrest => by
      rw [nameReportsInits, nameReportsInits, hN.typeReports_eq hty, nameReportsOpt_filled hN hinit,
        nameReportsInits_filled (hN.declare _) hrest]

theorem nameReportsArms_filled {U : List TypeName} {N : Names} {arms arms' : List (Binder × Expr)}
    (hN : N.Knows U) : Expr.FilledArms U arms arms' → nameReportsArms N arms = nameReportsArms N arms'
  | .nil => rfl
  | .cons hty hbody hrest => by
      rw [nameReportsArms, nameReportsArms, hN.typeReports_eq hty, nameReports_filled (hN.declare _) hbody,
        nameReportsArms_filled hN hrest]

end

section Classes

variable {U : List TypeName} {ctx ctx' : Context} {N : Names}

theorem Context.Filled.namesIn (h : Context.Filled U ctx ctx') (t : TypeName) :
    ctx.namesIn t = ctx'.namesIn t := by
  unfold Context.namesIn
  rw [forall₂_map_eq (h.allAttributes t) fun _ _ ha => ha.name, funext h.contains]

theorem Feature.nameReports_filled (hN : N.Knows U) {f f' : Feature} (h : f.Filled U f') :
    f.nameReports N = f'.nameReports N := by
  cases h with
  | attr ha => exact nameReportsOpt_filled hN ha.init
  | @method m m' hm =>
      have hnames : N.inMethod m = N.inMethod m' := by
        unfold Names.inMethod
        rw [hm.name, forall₂_map_eq hm.params fun _ _ hp => hp.name]
      rw [Feature.nameReports, Feature.nameReports, hnames]
      exact CoolTyping.nameReports_filled (hN.inMethod m') hm.body

theorem ClassDecl.nameReports_filled (h : Context.Filled U ctx ctx') (hN : ∀ t, (ctx.namesIn t).Knows U)
    {c c' : ClassDecl} (hc : c.Filled U c') : c.nameReports ctx = c'.nameReports ctx' := by
  unfold ClassDecl.nameReports
  rw [← hc.name, ← h.namesIn, List.flatMap_def, List.flatMap_def,
    forall₂_map_eq hc.features fun _ _ hf => Feature.nameReports_filled (hN c.name) hf]

end Classes

end CoolTyping
