import CoolTyping.Proofs.Binding

/-!
# Undefined variables

A name occurs free in an expression where no `let` and no `case` arm around it introduces it. The strict check
reports a variable as undefined just where a name occurs free that is not `self` and that neither the method
nor the class around it binds. Types play no part in this.
-/

namespace CoolTyping

namespace Expr

/-- The parts of an expression in which the same names are in sight as around it. -/
def openParts : Expr → List Expr
  | letIn .. => []
  | caseOf _ scrutinee _ => [scrutinee]
  | e => e.children

/-- The name `x` stands at the place `s`, as a variable or as the target of an assignment, and nothing in the
expression binds it there. A `let` binds a name in the later initial values and in its body. -/
inductive Free (x : String) (s : Span) : Expr → Prop
  | ident : Free x s (.ident s x)
  | target {value : Expr} : x ≠ selfName → Free x s (.assign s x value)
  | part {e part : Expr} : part ∈ e.openParts → Free x s part → Free x s e
  | init {span : Span} {before after : List (Binder × Option Expr)} {b : Binder} {init body : Expr} :
      x ∉ before.map (·.1.name) → Free x s init →
        Free x s (.letIn span (before ++ (b, some init) :: after) body)
  | body {span : Span} {bindings : List (Binder × Option Expr)} {body : Expr} :
      x ∉ bindings.map (·.1.name) → Free x s body → Free x s (.letIn span bindings body)
  | arm {span : Span} {scrutinee : Expr} {arms : List (Binder × Expr)} {b : Binder} {body : Expr} :
      (b, body) ∈ arms → x ≠ b.name → Free x s body → Free x s (.caseOf span scrutinee arms)

/-- The name occurs free in an initial value, at a point where it is not yet bound. -/
def FreeInits (x : String) (s : Span) (bindings : List (Binder × Option Expr)) : Prop :=
  ∃ before b init after, bindings = before ++ (b, some init) :: after ∧
    x ∉ before.map (·.1.name) ∧ Free x s init

def FreeArms (x : String) (s : Span) (arms : List (Binder × Expr)) : Prop :=
  ∃ arm ∈ arms, x ≠ arm.1.name ∧ Free x s arm.2

section Rules

variable {x name : String} {s span : Span}

theorem free_ident : Free x s (.ident span name) ↔ span = s ∧ name = x := by
  constructor
  · intro h
    cases h with
    | ident => exact ⟨rfl, rfl⟩
    | part hpart => cases hpart
  · rintro ⟨rfl, rfl⟩
    exact .ident

theorem free_assign {value : Expr} : Free x s (.assign span name value) ↔
    Free x s value ∨ x ≠ selfName ∧ span = s ∧ name = x := by
  constructor
  · intro h
    cases h with
    | target hself => exact .inr ⟨hself, rfl, rfl⟩
    | part hpart h => exact .inl (List.mem_singleton.mp hpart ▸ h)
  · rintro (h | ⟨hself, rfl, rfl⟩)
    · exact .part List.mem_cons_self h
    · exact .target hself

theorem free_letIn {bindings : List (Binder × Option Expr)} {body : Expr} :
    Free x s (.letIn span bindings body) ↔
      FreeInits x s bindings ∨ x ∉ bindings.map (·.1.name) ∧ Free x s body := by
  constructor
  · intro h
    cases h with
    | part hpart => cases hpart
    | init hbefore h => exact .inl ⟨_, _, _, _, rfl, hbefore, h⟩
    | body hbindings h => exact .inr ⟨hbindings, h⟩
  · rintro (⟨before, b, init, after, rfl, hbefore, h⟩ | ⟨hbindings, h⟩)
    · exact .init hbefore h
    · exact .body hbindings h

theorem free_caseOf {scrutinee : Expr} {arms : List (Binder × Expr)} :
    Free x s (.caseOf span scrutinee arms) ↔ Free x s scrutinee ∨ FreeArms x s arms := by
  constructor
  · intro h
    cases h with
    | part hpart h => exact .inl (List.mem_singleton.mp hpart ▸ h)
    | arm hmem hname h => exact .inr ⟨_, hmem, hname, h⟩
  · rintro (h | ⟨arm, hmem, hname, h⟩)
    · exact .part List.mem_cons_self h
    · exact .arm hmem hname h

/-- An expression of another kind neither names a variable nor binds one. -/
def Neutral : Expr → Prop
  | assign .. | ident .. | letIn .. | caseOf .. => False
  | _ => True

theorem free_neutral (e : Expr) (he : e.Neutral) : Free x s e ↔ ∃ part ∈ e.children, Free x s part := by
  have hparts : e.openParts = e.children := by
    cases e with
    | letIn span bindings body => cases he
    | caseOf span scrutinee arms => cases he
    | _ => rfl
  rw [← hparts]
  constructor
  · intro h
    cases h with
    | part hpart h => exact ⟨_, hpart, h⟩
    | ident => cases he
    | target hself => cases he
    | init hbefore h => cases he
    | body hbindings h => cases he
    | arm hmem hname h => cases he
  · rintro ⟨part, hpart, h⟩
    exact .part hpart h

theorem freeInits_cons {b : Binder} {init : Option Expr} {bindings : List (Binder × Option Expr)} :
    FreeInits x s ((b, init) :: bindings) ↔
      (∃ e, init = some e ∧ Free x s e) ∨ x ≠ b.name ∧ FreeInits x s bindings := by
  constructor
  · rintro ⟨_ | ⟨d, before⟩, b', init', after, heq, hbefore, h⟩
    · obtain ⟨heq, -⟩ := List.cons.inj heq
      exact .inl ⟨init', (Prod.mk.inj heq).2, h⟩
    · obtain ⟨rfl, rfl⟩ := List.cons.inj heq
      rw [List.map_cons, List.mem_cons, not_or] at hbefore
      exact .inr ⟨hbefore.1, before, b', init', after, rfl, hbefore.2, h⟩
  · rintro (⟨e, rfl, h⟩ | ⟨hname, before, b', init', after, rfl, hbefore, h⟩)
    · exact ⟨[], b, e, bindings, rfl, List.not_mem_nil, h⟩
    · exact ⟨(b, init) :: before, b', init', after, rfl, by simp [hname, hbefore], h⟩

theorem freeArms_cons {b : Binder} {body : Expr} {arms : List (Binder × Expr)} :
    FreeArms x s ((b, body) :: arms) ↔ x ≠ b.name ∧ Free x s body ∨ FreeArms x s arms :=
  List.exists_mem_cons_iff ..

end Rules

end Expr

/-! ## Expressions -/

namespace Names

variable {N : Names} {x name place : String} {s span : Span} {ty : TypeName}

theorem undefined_typeReports : ⟨.variableNotDefined x place, s⟩ ∉ N.typeReports ty span := by
  unfold typeReports
  split <;> simp

theorem undefined_variableReports : ⟨.variableNotDefined x place, s⟩ ∈ N.variableReports name span ↔
    place = N.place ∧ x ∉ N.bound ∧ span = s ∧ name = x := by
  unfold variableReports
  grind

theorem undefined_targetReports : ⟨.variableNotDefined x place, s⟩ ∈ N.targetReports name span ↔
    place = N.place ∧ x ∉ N.bound ∧ x ≠ selfName ∧ span = s ∧ name = x := by
  unfold targetReports variableReports
  grind

theorem place_declareAll (names : List String) : (N.declareAll names).place = N.place := by
  induction names generalizing N with
  | nil => rfl
  | cons name names ih => exact ih

end Names

mutual

/-- The names that the check misses in an expression are those that occur free in it and are not bound around
it. -/
theorem undefined_nameReports {N : Names} {x place : String} {s : Span} : (e : Expr) →
    (⟨.variableNotDefined x place, s⟩ ∈ nameReports N e ↔ place = N.place ∧ x ∉ N.bound ∧ e.Free x s)
  | .assign span name value => by
      rw [nameReports, List.mem_append, undefined_nameReports value, Names.undefined_targetReports,
        Expr.free_assign]
      tauto
  | .ident span name => by rw [nameReports, Names.undefined_variableReports, Expr.free_ident]
  | .letIn span bindings body => by
      rw [nameReports, List.mem_append, undefined_nameReportsInits bindings, undefined_nameReports body,
        Expr.free_letIn, Names.place_declareAll, Names.mem_declareAll]
      tauto
  | .caseOf span scrutinee arms => by
      rw [nameReports, List.mem_append, undefined_nameReports scrutinee, undefined_nameReportsArms arms,
        Expr.free_caseOf]
      tauto
  | .dispatch span receiver method args => by
      rw [nameReports, List.mem_append, undefined_nameReportsOpt receiver, undefined_nameReportsAll args,
        Expr.free_neutral (.dispatch ..) trivial]
      simp only [Expr.children, List.mem_append, Option.mem_toList, or_and_right, exists_or, and_or_left]
  | .staticDispatch span receiver ancestor method args => by
      rw [nameReports, List.mem_append, List.mem_append, undefined_nameReports receiver,
        undefined_nameReportsAll args, Expr.free_neutral (.staticDispatch ..) trivial]
      simp [Expr.children, Names.undefined_typeReports, and_or_left]
  | .cond span test thenBranch elseBranch => by
      rw [nameReports, List.mem_append, List.mem_append, undefined_nameReports test,
        undefined_nameReports thenBranch, undefined_nameReports elseBranch,
        Expr.free_neutral (.cond ..) trivial]
      simp [Expr.children, and_or_left]
  | .loop span test body => by
      rw [nameReports, List.mem_append, undefined_nameReports test, undefined_nameReports body,
        Expr.free_neutral (.loop ..) trivial]
      simp [Expr.children, and_or_left]
  | .block span body => by
      rw [nameReports, undefined_nameReportsAll body, Expr.free_neutral (.block ..) trivial]
      rfl
  | .binary span op left right => by
      rw [nameReports, List.mem_append, undefined_nameReports left, undefined_nameReports right,
        Expr.free_neutral (.binary ..) trivial]
      simp [Expr.children, and_or_left]
  | .unary span op operand => by
      rw [nameReports, undefined_nameReports operand, Expr.free_neutral (.unary ..) trivial]
      simp [Expr.children]
  | .paren span inner => by
      rw [nameReports, undefined_nameReports inner, Expr.free_neutral (.paren ..) trivial]
      simp [Expr.children]
  | .new span ty => by
      rw [nameReports, Expr.free_neutral (.new ..) trivial]
      simp [Expr.children, Names.undefined_typeReports]
  | .int span value => by
      rw [nameReports, Expr.free_neutral (.int ..) trivial]
      simp [Expr.children]
  | .str span value => by
      rw [nameReports, Expr.free_neutral (.str ..) trivial]
      simp [Expr.children]
  | .bool span value => by
      rw [nameReports, Expr.free_neutral (.bool ..) trivial]
      simp [Expr.children]

theorem undefined_nameReportsOpt {N : Names} {x place : String} {s : Span} : (o : Option Expr) →
    (⟨.variableNotDefined x place, s⟩ ∈ nameReportsOpt N o ↔
      place = N.place ∧ x ∉ N.bound ∧ ∃ e, o = some e ∧ e.Free x s)
  | none => by simp [nameReportsOpt]
  | some e => by
      rw [nameReportsOpt, undefined_nameReports e]
      simp

theorem undefined_nameReportsAll {N : Names} {x place : String} {s : Span} : (es : List Expr) →
    (⟨.variableNotDefined x place, s⟩ ∈ nameReportsAll N es ↔
      place = N.place ∧ x ∉ N.bound ∧ ∃ e ∈ es, e.Free x s)
  | [] => by simp [nameReportsAll]
  | e :: es => by
      rw [nameReportsAll, List.mem_append, undefined_nameReports e, undefined_nameReportsAll es]
      simp [and_or_left]

theorem undefined_nameReportsInits {N : Names} {x place : String} {s : Span} :
    (bindings : List (Binder × Option Expr)) →
    (⟨.variableNotDefined x place, s⟩ ∈ nameReportsInits N bindings ↔
      place = N.place ∧ x ∉ N.bound ∧ Expr.FreeInits x s bindings)
  | [] => by simp [nameReportsInits, Expr.FreeInits]
  | (b, init) :: bindings => by
      rw [nameReportsInits, List.mem_append, List.mem_append, undefined_nameReportsOpt init,
        undefined_nameReportsInits bindings, Expr.freeInits_cons]
      simp only [Names.undefined_typeReports, false_or, Names.declare, List.mem_cons, not_or, ne_eq]
      grind

theorem undefined_nameReportsArms {N : Names} {x place : String} {s : Span} :
    (arms : List (Binder × Expr)) →
    (⟨.variableNotDefined x place, s⟩ ∈ nameReportsArms N arms ↔
      place = N.place ∧ x ∉ N.bound ∧ Expr.FreeArms x s arms)
  | [] => by simp [nameReportsArms, Expr.FreeArms]
  | (b, body) :: arms => by
      rw [nameReportsArms, List.mem_append, List.mem_append, undefined_nameReports body,
        undefined_nameReportsArms arms, Expr.freeArms_cons]
      simp only [Names.undefined_typeReports, false_or, Names.declare, List.mem_cons, not_or, ne_eq]
      tauto

end

/-! ## Classes -/

/-- The names that a feature binds in its expression. -/
def Feature.bound : Feature → List String
  | attr _ => []
  | method m => m.params.map (·.name)

/-- Where a variable is said to be missing in a feature of the class `c`. -/
def Feature.place (c : TypeName) : Feature → String
  | attr _ => c
  | method m => m.name

namespace ClassTable

/-- The name `x` stands at the place `span` in a class without being bound there: not by the expression around
it, not as `self`, not as a parameter and not as an attribute that the class or an ancestor declares. -/
def Undefined (t : ClassTable) (x place : String) (span : Span) : Prop :=
  ∃ c ∈ t.classes, ∃ f ∈ c.features, ∃ e, f.expr? = some e ∧ e.Free x span ∧
    x ≠ selfName ∧ x ∉ f.bound ∧
    (∀ d ∈ t.classes, d.name ∈ t.context.ancestors c.name → x ∉ d.attributes.map (·.name)) ∧
    place = f.place c.name

theorem undefined_feature {N : Names} {f : Feature} {x place : String} {s : Span} :
    ⟨.variableNotDefined x place, s⟩ ∈ f.nameReports N ↔ place = f.place N.place ∧ x ∉ f.bound ∧
      x ∉ N.bound ∧ ∃ e, f.expr? = some e ∧ e.Free x s := by
  cases f with
  | attr a =>
      rw [Feature.nameReports, undefined_nameReportsOpt]
      simp [Feature.place, Feature.bound, Feature.expr?]
  | method m =>
      rw [Feature.nameReports, undefined_nameReports, Names.inMethod, Names.place_declareAll,
        Names.mem_declareAll]
      simp [Feature.place, Feature.bound, Feature.expr?, and_assoc]

/-- What is reported about the class table is not about variables. -/
theorem not_undefined_build {p : Program} {x place : String} {s : Span} :
    ⟨.variableNotDefined x place, s⟩ ∉ (build p).reports := by
  obtain ⟨before, after, hreports, hbefore, hafter⟩ := build_reports p
  rw [hreports, List.mem_append, List.mem_append, List.mem_flatMap]
  rintro ((hr | ⟨c, -, hr⟩) | hr)
  · cases hbefore _ hr
  · obtain ⟨-, ho⟩ | ⟨q, -, ⟨-, ho⟩ | ⟨-, ⟨-, ho⟩ | ⟨-, ⟨-, ho⟩ | ⟨-, ho⟩⟩⟩⟩ :=
      outcome_cases (build p).value.classes c
    all_goals simp [ho] at hr
  · cases hafter _ hr

/-- Undefined variables are reported exactly. -/
theorem typecheck_undefined (p : Program) (x place : String) (span : Span) :
    ⟨.variableNotDefined x place, span⟩ ∈ (typecheck p).diagnostics ↔
      (build p).value.Undefined x place span := by
  have hcheck : ⟨.variableNotDefined x place, span⟩ ∈ (typecheck p).diagnostics ↔
      ⟨.variableNotDefined x place, span⟩ ∈ (build p).value.check.nominal := by
    rw [Reporting.diagnostics, Diagnostics.mem_ofReports, typecheck, Reporting.nominal, List.mem_filter]
    simp [not_undefined_build, SemanticError.aboutTypes]
  have hplace : ∀ c : ClassDecl, ((build p).value.context.namesIn c.name).place = c.name :=
    fun c => Names.place_declareAll _
  have hbound : ∀ c : ClassDecl, x ∉ ((build p).value.context.namesIn c.name).bound ↔ x ≠ selfName ∧
      ∀ d ∈ (build p).value.classes, d.name ∈ (build p).value.context.ancestors c.name →
        x ∉ d.attributes.map (·.name) := by
    intro c
    rw [mem_namesIn_build]
    simp [Context.mem_ancestors]
  rw [hcheck, nominal_check, Undefined]
  simp only [List.mem_flatMap, ClassDecl.nameReports, undefined_feature, hbound, hplace]
  constructor
  · rintro ⟨c, hc, f, hf, hplace, hparams, ⟨hself, hattributes⟩, e, he, hfree⟩
    exact ⟨c, hc, f, hf, e, he, hfree, hself, hparams, hattributes, hplace⟩
  · rintro ⟨c, hc, f, hf, e, he, hfree, hself, hparams, hattributes, hplace⟩
    exact ⟨c, hc, f, hf, hplace, hparams, ⟨hself, hattributes⟩, e, he, hfree⟩

end ClassTable

end CoolTyping
