import CoolTyping.Proofs.Lexing
import CoolTyping.Proofs.ParserLogic

/-!
# The types that a program writes

A type name that stands in a program was read from a token, and the tokens that name types start with
a capital letter. So the name `<error>` stands in no program that was read from a text.
-/

namespace CoolTyping

namespace Expr

/-- The types that the expression itself names, not counting its parts. -/
def ownTypes : Expr → List TypeName
  | new _ ty => [ty]
  | staticDispatch _ _ ancestor _ _ => [ancestor]
  | e => e.ownBinders.map (·.ty)

/-- All types that are named in the expression are in `Q`. -/
def Writes (Q : TypeName → Prop) (e : Expr) : Prop := ∀ x ∈ e.walk, ∀ ty ∈ x.ownTypes, Q ty

variable {Q : TypeName → Prop}

instance [DecidablePred Q] (e : Expr) : Decidable (e.Writes Q) :=
  inferInstanceAs (Decidable (∀ x ∈ e.walk, ∀ ty ∈ x.ownTypes, Q ty))

attribute [local simp] walk walkAll walkInits walkArms ownTypes ownBinders

theorem forall_walkAll {A : Expr → Prop} {es : List Expr} :
    (∀ x ∈ walkAll es, A x) ↔ ∀ e ∈ es, ∀ x ∈ e.walk, A x := by
  induction es with
  | nil => simp
  | cons e es ih => simp [or_imp, forall_and, ih]

theorem forall_walkInits {A : Expr → Prop} {bindings : List (Binder × Option Expr)} :
    (∀ x ∈ walkInits bindings, A x) ↔ ∀ b ∈ bindings, ∀ e ∈ b.2, ∀ x ∈ e.walk, A x := by
  induction bindings with
  | nil => simp
  | cons b bindings ih =>
      obtain ⟨b, init⟩ := b
      cases init with
      | none => rw [walkInits, ih]; simp
      | some e => rw [walkInits, List.forall_mem_append, ih]; simp

theorem forall_walkArms {A : Expr → Prop} {arms : List (Binder × Expr)} :
    (∀ x ∈ walkArms arms, A x) ↔ ∀ a ∈ arms, ∀ x ∈ a.2.walk, A x := by
  induction arms with
  | nil => simp
  | cons a arms ih => rw [walkArms, List.forall_mem_append, ih, List.forall_mem_cons]

/-! One rule for each kind of expression. -/

section Rules

variable {span : Span}

@[simp] theorem writes_assign {name value} :
    Writes Q (.assign span name value) ↔ Writes Q value := by
  simp [Writes]

@[simp] theorem writes_dispatch {receiver method args} :
    Writes Q (.dispatch span receiver method args) ↔
      (∀ e ∈ receiver, Writes Q e) ∧ ∀ e ∈ args, Writes Q e := by
  cases receiver <;> simp [Writes, forall_walkAll, or_imp, forall_and]

@[simp] theorem writes_staticDispatch {receiver ancestor method args} :
    Writes Q (.staticDispatch span receiver ancestor method args) ↔
      Q ancestor ∧ Writes Q receiver ∧ ∀ e ∈ args, Writes Q e := by
  simp [Writes, forall_walkAll, or_imp, forall_and]

@[simp] theorem writes_cond {test thenBranch elseBranch} :
    Writes Q (.cond span test thenBranch elseBranch) ↔
      Writes Q test ∧ Writes Q thenBranch ∧ Writes Q elseBranch := by
  simp [Writes, or_imp, forall_and]

@[simp] theorem writes_loop {test body} :
    Writes Q (.loop span test body) ↔ Writes Q test ∧ Writes Q body := by
  simp [Writes, or_imp, forall_and]

@[simp] theorem writes_letIn {bindings body} :
    Writes Q (.letIn span bindings body) ↔
      (∀ b ∈ bindings, Q b.1.ty ∧ ∀ e ∈ b.2, Writes Q e) ∧ Writes Q body := by
  have hown : (∀ ty ∈ ownTypes (.letIn span bindings body), Q ty) ↔ ∀ b ∈ bindings, Q b.1.ty := by
    simp only [ownTypes, ownBinders, List.forall_mem_map]
  simp only [Writes, walk, List.forall_mem_cons, List.forall_mem_append, forall_walkInits, hown,
    imp_and, forall_and, and_assoc]

@[simp] theorem writes_caseOf {scrutinee arms} :
    Writes Q (.caseOf span scrutinee arms) ↔
      Writes Q scrutinee ∧ ∀ a ∈ arms, Q a.1.ty ∧ Writes Q a.2 := by
  have hown : (∀ ty ∈ ownTypes (.caseOf span scrutinee arms), Q ty) ↔ ∀ a ∈ arms, Q a.1.ty := by
    simp only [ownTypes, ownBinders, List.forall_mem_map]
  simp only [Writes, walk, List.forall_mem_cons, List.forall_mem_append, forall_walkArms, hown,
    imp_and, forall_and]
  exact and_left_comm

@[simp] theorem writes_block {body} : Writes Q (.block span body) ↔ ∀ e ∈ body, Writes Q e := by
  simp [Writes, forall_walkAll, or_imp, forall_and]

@[simp] theorem writes_binary {op left right} :
    Writes Q (.binary span op left right) ↔ Writes Q left ∧ Writes Q right := by
  simp [Writes, or_imp, forall_and]

@[simp] theorem writes_unary {op operand} :
    Writes Q (.unary span op operand) ↔ Writes Q operand := by
  simp [Writes]

@[simp] theorem writes_new {ty} : Writes Q (.new span ty) ↔ Q ty := by
  simp [Writes]

@[simp] theorem writes_paren {inner} : Writes Q (.paren span inner) ↔ Writes Q inner := by
  simp [Writes]

@[simp] theorem writes_ident {name} : Writes Q (.ident span name) := by
  simp [Writes]

@[simp] theorem writes_int {value} : Writes Q (.int span value) := by
  simp [Writes]

@[simp] theorem writes_str {value} : Writes Q (.str span value) := by
  simp [Writes]

@[simp] theorem writes_bool {value} : Writes Q (.bool span value) := by
  simp [Writes]

end Rules

end Expr

/-! ## Expressions as they are read -/

namespace Parser

variable {I : State → Prop} {Q : TypeName → Prop} {e : Parser Expr}

/-- The tokens that are left name only types in `Q`. -/
def NamesIn (Q : TypeName → Prop) (s : State) : Prop :=
  ∀ t ∈ s.rest, ∀ name, t.kind = .typeName name → Q name

theorem NamesIn.invariant : Invariant (NamesIn Q) where
  advance hrest hs := fun t ht => hs t (hrest ▸ List.mem_cons_of_mem _ ht)
  fresh hs := hs

theorem NamesIn.typeName (expected : String) : Ensures (NamesIn Q) (Parser.typeName expected) Q :=
  .typeName NamesIn.invariant (fun hs hrest => hs _ (hrest ▸ List.mem_cons_self) _ rfl) expected

section Parts

variable (he : Ensures (NamesIn Q) e (Expr.Writes Q))
include he

theorem arguments_writes : Ensures (NamesIn Q) (arguments e) (fun es => ∀ x ∈ es, x.Writes Q) := by
  refine (Ensures.expectSymbol NamesIn.invariant _ _).bind fun _ _ => ?_
  refine (Ensures.sepByBefore NamesIn.invariant he _ _).bind fun es hes => ?_
  exact (Ensures.expectSymbol NamesIn.invariant _ _).bind fun _ _ => .pure hes

theorem binding_writes :
    Ensures (NamesIn Q) (binding e) (fun b => Q b.1.ty ∧ ∀ x ∈ b.2, x.Writes Q) := by
  refine (Ensures.identifier NamesIn.invariant _).bind fun _ _ => ?_
  refine (Ensures.expectSymbol NamesIn.invariant _ _).bind fun _ _ => ?_
  refine (NamesIn.typeName _).bind fun ty hty => ?_
  refine (Ensures.optionalAfter NamesIn.invariant _ he).bind fun init hinit => ?_
  refine (Ensures.freshId NamesIn.invariant).bind fun _ _ => ?_
  exact (Ensures.spanFrom _).bind fun _ _ => .pure ⟨hty, hinit⟩

theorem arm_writes : Ensures (NamesIn Q) (arm e) (fun a => Q a.1.ty ∧ a.2.Writes Q) := by
  refine (Ensures.identifier NamesIn.invariant _).bind fun _ _ => ?_
  refine (Ensures.expectSymbol NamesIn.invariant _ _).bind fun _ _ => ?_
  refine (NamesIn.typeName _).bind fun ty hty => ?_
  refine (Ensures.expectSymbol NamesIn.invariant _ _).bind fun _ _ => ?_
  refine he.bind fun body hbody => ?_
  refine (Ensures.expectSymbol NamesIn.invariant _ _).bind fun _ _ => ?_
  refine (Ensures.freshId NamesIn.invariant).bind fun _ _ => ?_
  exact (Ensures.spanFrom _).bind fun _ _ => .pure ⟨hty, hbody⟩

theorem statement_writes : Ensures (NamesIn Q) (statement e) (Expr.Writes Q) := by
  refine he.bind fun x hx => ?_
  exact (Ensures.expectSymbol NamesIn.invariant _ _).bind fun _ _ => .pure hx

theorem conditional_writes (start : Nat) :
    Ensures (NamesIn Q) (conditional e start) (Expr.Writes Q) := by
  refine he.bind fun test htest => ?_
  refine (Ensures.expectKeyword NamesIn.invariant _ _).bind fun _ _ => ?_
  refine he.bind fun thenBranch hthen => ?_
  refine (Ensures.expectKeyword NamesIn.invariant _ _).bind fun _ _ => ?_
  refine he.bind fun elseBranch helse => ?_
  refine (Ensures.expectKeyword NamesIn.invariant _ _).bind fun _ _ => ?_
  exact (Ensures.spanFrom _).bind fun _ _ => .pure (Expr.writes_cond.mpr ⟨htest, hthen, helse⟩)

theorem whileLoop_writes (start : Nat) :
    Ensures (NamesIn Q) (whileLoop e start) (Expr.Writes Q) := by
  refine he.bind fun test htest => ?_
  refine (Ensures.expectKeyword NamesIn.invariant _ _).bind fun _ _ => ?_
  refine he.bind fun body hbody => ?_
  refine (Ensures.expectKeyword NamesIn.invariant _ _).bind fun _ _ => ?_
  exact (Ensures.spanFrom _).bind fun _ _ => .pure (Expr.writes_loop.mpr ⟨htest, hbody⟩)

theorem letExpr_writes (start : Nat) : Ensures (NamesIn Q) (letExpr e start) (Expr.Writes Q) := by
  refine (Ensures.sepBy NamesIn.invariant (binding_writes he) _).bind fun bindings hbindings => ?_
  refine (Ensures.expectKeyword NamesIn.invariant _ _).bind fun _ _ => ?_
  refine he.bind fun body hbody => ?_
  exact (Ensures.spanFrom _).bind fun _ _ => .pure (Expr.writes_letIn.mpr ⟨hbindings, hbody⟩)

theorem caseExpr_writes (start : Nat) : Ensures (NamesIn Q) (caseExpr e start) (Expr.Writes Q) := by
  refine he.bind fun scrutinee hscrutinee => ?_
  refine (Ensures.expectKeyword NamesIn.invariant _ _).bind fun _ _ => ?_
  refine (Ensures.someUntil NamesIn.invariant (arm_writes he) _).bind fun arms harms => ?_
  exact (Ensures.spanFrom _).bind fun _ _ => .pure (Expr.writes_caseOf.mpr ⟨hscrutinee, harms⟩)

omit he in
theorem newExpr_writes (start : Nat) : Ensures (NamesIn Q) (newExpr start) (Expr.Writes Q) := by
  refine (NamesIn.typeName _).bind fun ty hty => ?_
  exact (Ensures.spanFrom _).bind fun _ _ => .pure (Expr.writes_new.mpr hty)

theorem parenthesized_writes (start : Nat) :
    Ensures (NamesIn Q) (parenthesized e start) (Expr.Writes Q) := by
  refine he.bind fun inner hinner => ?_
  refine (Ensures.expectSymbol NamesIn.invariant _ _).bind fun _ _ => ?_
  exact (Ensures.spanFrom _).bind fun _ _ => .pure (Expr.writes_paren.mpr hinner)

theorem blockExpr_writes (start : Nat) :
    Ensures (NamesIn Q) (blockExpr e start) (Expr.Writes Q) := by
  refine (Ensures.someUntil NamesIn.invariant (statement_writes he) _).bind fun body hbody => ?_
  exact (Ensures.spanFrom _).bind fun _ _ => .pure (Expr.writes_block.mpr hbody)

theorem nameOrCall_writes (name : String) (span : Span) :
    Ensures (NamesIn Q) (nameOrCall e name span) (Expr.Writes Q) := by
  refine Ensures.peek.bind fun _ _ => .ite (fun _ => ?_) fun _ => .pure Expr.writes_ident
  refine (arguments_writes he).bind fun args hargs => ?_
  refine (Ensures.spanFrom _).bind fun _ _ => .pure ?_
  exact Expr.writes_dispatch.mpr ⟨by simp, hargs⟩

theorem atom_writes : Ensures (NamesIn Q) (atom e) (Expr.Writes Q) := by
  intro s a s' hs h
  rw [atom_eq] at h
  split at h
  · cases h
  rename_i t rest hrest
  have hnext : NamesIn Q (s.advance t rest) := NamesIn.invariant.advance hrest hs
  dsimp only at h
  split at h
  · exact conditional_writes he _ hnext h
  · exact whileLoop_writes he _ hnext h
  · exact letExpr_writes he _ hnext h
  · exact caseExpr_writes he _ hnext h
  · exact newExpr_writes _ hnext h
  · cases h; exact ⟨hnext, Expr.writes_bool⟩
  · cases h; exact ⟨hnext, Expr.writes_bool⟩
  · exact parenthesized_writes he _ hnext h
  · exact blockExpr_writes he _ hnext h
  · exact nameOrCall_writes he _ _ hnext h
  · cases h; exact ⟨hnext, Expr.writes_int⟩
  · cases h; exact ⟨hnext, Expr.writes_str⟩
  · cases h

theorem callsN_writes (fuel : Nat) {receiver : Expr} (hr : receiver.Writes Q) :
    Ensures (NamesIn Q) (callsN e fuel receiver) (Expr.Writes Q) := by
  induction fuel generalizing receiver with
  | zero => exact .pure hr
  | succ fuel ih =>
      refine (Ensures.accept NamesIn.invariant _).bind fun _ _ => .ite (fun _ => ?_) fun _ => ?_
      · refine (Ensures.identifier NamesIn.invariant _).bind fun _ _ => ?_
        refine (arguments_writes he).bind fun args hargs => ?_
        refine (Ensures.spanFrom _).bind fun _ _ => ih ?_
        exact Expr.writes_dispatch.mpr ⟨by simpa using hr, hargs⟩
      refine (Ensures.accept NamesIn.invariant _).bind fun _ _ => .ite (fun _ => ?_) fun _ => .pure hr
      refine (NamesIn.typeName _).bind fun ancestor hancestor => ?_
      refine (Ensures.expectSymbol NamesIn.invariant _ _).bind fun _ _ => ?_
      refine (Ensures.identifier NamesIn.invariant _).bind fun _ _ => ?_
      refine (arguments_writes he).bind fun args hargs => ?_
      refine (Ensures.spanFrom _).bind fun _ _ => ih ?_
      exact Expr.writes_staticDispatch.mpr ⟨hancestor, hr, hargs⟩

theorem postfixed_writes : Ensures (NamesIn Q) (postfixed e) (Expr.Writes Q) := by
  refine (atom_writes he).bind fun x hx => ?_
  intro s a s' hs h
  exact callsN_writes he _ hx hs h

theorem unary_writes (kind : TokenKind) (op : UnaryOp) :
    Ensures (NamesIn Q) (unary kind op e) (Expr.Writes Q) := by
  intro s a s' hs h
  rw [unary_eq] at h
  generalize s.rest.length = fuel at h
  induction fuel generalizing s a s' with
  | zero => exact he hs h
  | succ fuel ih =>
      rw [unaryN_succ_eq] at h
      split at h
      · exact he hs h
      rename_i t rest hrest
      split at h
      · cases hr : unaryN kind op e fuel (s.advance t rest) with
        | error err => rw [hr] at h; cases h
        | ok r =>
            obtain ⟨x, s₁⟩ := r
            obtain ⟨hs₁, hx⟩ := ih (NamesIn.invariant.advance hrest hs) hr
            rw [hr] at h
            cases h
            exact ⟨hs₁, Expr.writes_unary.mpr hx⟩
      · exact he hs h

theorem chainN_writes (ops : List BinaryOp) (fuel : Nat) {left : Expr} (hl : left.Writes Q) :
    Ensures (NamesIn Q) (chainN ops e fuel left) (Expr.Writes Q) := by
  induction fuel generalizing left with
  | zero => exact .pure hl
  | succ fuel ih =>
      refine (Ensures.operator? NamesIn.invariant ops).bind fun op _ => ?_
      cases op with
      | none => exact .pure hl
      | some op => exact he.bind fun right hright => ih (Expr.writes_binary.mpr ⟨hl, hright⟩)

theorem chain_writes (ops : List BinaryOp) :
    Ensures (NamesIn Q) (chain ops e) (Expr.Writes Q) := by
  refine he.bind fun left hleft => ?_
  intro s a s' hs h
  exact chainN_writes he ops _ hleft hs h

theorem sum_writes : Ensures (NamesIn Q) (sum e) (Expr.Writes Q) :=
  chain_writes (chain_writes (unary_writes (unary_writes (postfixed_writes he) _ _) _ _) _) _

theorem comparison_writes : Ensures (NamesIn Q) (comparison e) (Expr.Writes Q) := by
  refine (sum_writes he).bind fun left hleft => ?_
  refine (Ensures.operator? NamesIn.invariant _).bind fun op _ => ?_
  cases op with
  | none => exact .pure hleft
  | some op =>
      exact (sum_writes he).bind fun right hright => .pure (Expr.writes_binary.mpr ⟨hleft, hright⟩)

theorem assignment_writes : Ensures (NamesIn Q) (assignment e) (Expr.Writes Q) := by
  intro s a s' hs h
  rw [assignment_eq] at h
  split at h
  · rename_i name place sign rest hrest
    have hnext := NamesIn.invariant.advance (t := ⟨.identifier name, place⟩) hrest hs
    have hnext' : NamesIn Q (s.advance ⟨.symbol .assign, sign⟩ rest) :=
      fun t ht => hnext t (List.mem_cons_of_mem _ ht)
    have hvalue : Ensures (NamesIn Q) (do
        let value ← e
        return .assign (← spanFrom place.start) name value) (Expr.Writes Q) :=
      he.bind fun value hvalue =>
        (Ensures.spanFrom _).bind fun _ _ => .pure (Expr.writes_assign.mpr hvalue)
    exact hvalue hnext' h
  · exact unary_writes (comparison_writes he) _ _ hs h

end Parts

theorem expr_writes : Ensures (NamesIn Q) expr (Expr.Writes Q) := by
  have hN : ∀ fuel, Ensures (NamesIn Q) (exprN fuel) (Expr.Writes Q) := by
    intro fuel
    induction fuel with
    | zero => exact .fail _ _
    | succ fuel ih => exact assignment_writes ih
  intro s a s' hs h
  exact hN _ hs h

end Parser

/-! ## Programs as they are read -/

/-- All types that are named in the feature are in `Q`. -/
def Feature.Writes (Q : TypeName → Prop) : Feature → Prop
  | .attr a => Q a.ty ∧ ∀ e ∈ a.init, e.Writes Q
  | .method m => (∀ p ∈ m.params, Q p.ty) ∧ Q m.ret ∧ m.body.Writes Q

theorem Expr.Writes.mono {Q Q' : TypeName → Prop} {e : Expr} (h : e.Writes Q)
    (hQ : ∀ ty, Q ty → Q' ty) : e.Writes Q' := fun x hx ty hty => hQ ty (h x hx ty hty)

theorem Expr.Writes.and {Q Q' : TypeName → Prop} {e : Expr} (h : e.Writes Q) (h' : e.Writes Q') :
    e.Writes fun ty => Q ty ∧ Q' ty := fun x hx ty hty => ⟨h x hx ty hty, h' x hx ty hty⟩

theorem Expr.Writes.binders {Q : TypeName → Prop} {e : Expr} (h : e.Writes Q) :
    ∀ b ∈ e.binders, Q b.ty := by
  intro b hb
  obtain ⟨x, hx, hb⟩ := List.mem_flatMap.mp hb
  have hty : b.ty ∈ x.ownBinders.map (·.ty) := List.mem_map_of_mem hb
  refine h x hx b.ty ?_
  cases x with
  | letIn | caseOf => exact hty
  | _ => cases hb

namespace Feature

variable {Q Q' : TypeName → Prop} {f : Feature}

theorem Writes.mono (h : f.Writes Q) (hQ : ∀ ty, Q ty → Q' ty) : f.Writes Q' := by
  cases f with
  | attr a => exact ⟨hQ _ h.1, fun e he => (h.2 e he).mono hQ⟩
  | method m => exact ⟨fun p hp => hQ _ (h.1 p hp), hQ _ h.2.1, h.2.2.mono hQ⟩

theorem Writes.and (h : f.Writes Q) (h' : f.Writes Q') : f.Writes fun ty => Q ty ∧ Q' ty := by
  cases f with
  | attr a => exact ⟨⟨h.1, h'.1⟩, fun e he => (h.2 e he).and (h'.2 e he)⟩
  | method m =>
      exact ⟨fun p hp => ⟨h.1 p hp, h'.1 p hp⟩, ⟨h.2.1, h'.2.1⟩, h.2.2.and h'.2.2⟩

theorem writes_of_forall (f : Feature) (hQ : ∀ ty, Q ty) : f.Writes Q := by
  cases f with
  | attr a => exact ⟨hQ _, fun e _ x _ ty _ => hQ ty⟩
  | method m => exact ⟨fun p _ => hQ _, hQ _, fun x _ ty _ => hQ ty⟩

theorem Writes.declaredTypes (h : f.Writes Q) : ∀ ty ∈ f.declaredTypes, Q ty := by
  cases f with
  | attr a =>
      refine List.forall_mem_cons.mpr ⟨h.1, List.forall_mem_map.mpr fun b hb => ?_⟩
      cases ha : a.init with
      | none => rw [ha] at hb; cases hb
      | some e => rw [ha] at hb; exact (h.2 e ha).binders b hb
  | method m =>
      refine List.forall_mem_append.mpr ⟨List.forall_mem_map.mpr h.1, ?_⟩
      exact List.forall_mem_cons.mpr ⟨h.2.1, List.forall_mem_map.mpr h.2.2.binders⟩

end Feature

structure ClassDecl.Writes (Q : TypeName → Prop) (c : ClassDecl) : Prop where
  name : Q c.name
  parent : ∀ parent ∈ c.parent, Q parent
  features : ∀ f ∈ c.features, f.Writes Q

theorem ClassDecl.Writes.mono {Q Q' : TypeName → Prop} {c : ClassDecl} (h : c.Writes Q)
    (hQ : ∀ ty, Q ty → Q' ty) : c.Writes Q' :=
  ⟨hQ _ h.name, fun parent hparent => hQ _ (h.parent parent hparent), fun f hf => (h.features f hf).mono hQ⟩

instance {Q : TypeName → Prop} [DecidablePred Q] (f : Feature) : Decidable (f.Writes Q) :=
  match f with
  | .attr a => inferInstanceAs (Decidable (Q a.ty ∧ ∀ e ∈ a.init, e.Writes Q))
  | .method m => inferInstanceAs (Decidable ((∀ p ∈ m.params, Q p.ty) ∧ Q m.ret ∧ m.body.Writes Q))

instance {Q : TypeName → Prop} [DecidablePred Q] (c : ClassDecl) : Decidable (c.Writes Q) :=
  decidable_of_iff (Q c.name ∧ (∀ parent ∈ c.parent, Q parent) ∧ ∀ f ∈ c.features, f.Writes Q)
    ⟨fun h => ⟨h.1, h.2.1, h.2.2⟩, fun h => ⟨h.name, h.parent, h.features⟩⟩

namespace Parser

variable {Q : TypeName → Prop}

theorem param_writes : Ensures (NamesIn Q) param (fun p => Q p.ty) := by
  refine (Ensures.identifier NamesIn.invariant _).bind fun _ _ => ?_
  refine (Ensures.expectSymbol NamesIn.invariant _ _).bind fun _ _ => ?_
  refine (NamesIn.typeName _).bind fun ty hty => ?_
  exact (Ensures.spanFrom _).bind fun _ _ => .pure hty

theorem methodDecl_writes (name : String) (start : Nat) :
    Ensures (NamesIn Q) (methodDecl name start) (fun m => (Feature.method m).Writes Q) := by
  refine (Ensures.freshId NamesIn.invariant).bind fun _ _ => ?_
  refine (Ensures.sepByBefore NamesIn.invariant param_writes _ _).bind fun params hparams => ?_
  refine (Ensures.expectSymbol NamesIn.invariant _ _).bind fun _ _ => ?_
  refine (Ensures.expectSymbol NamesIn.invariant _ _).bind fun _ _ => ?_
  refine (NamesIn.typeName _).bind fun ret hret => ?_
  refine (Ensures.expectSymbol NamesIn.invariant _ _).bind fun _ _ => ?_
  refine expr_writes.bind fun body hbody => ?_
  refine (Ensures.expectSymbol NamesIn.invariant _ _).bind fun _ _ => ?_
  exact (Ensures.spanFrom _).bind fun _ _ => .pure ⟨hparams, hret, hbody⟩

theorem attrDecl_writes (name : String) (start : Nat) :
    Ensures (NamesIn Q) (attrDecl name start) (fun a => (Feature.attr a).Writes Q) := by
  refine (Ensures.expectSymbol NamesIn.invariant _ _).bind fun _ _ => ?_
  refine (NamesIn.typeName _).bind fun ty hty => ?_
  refine (Ensures.optionalAfter NamesIn.invariant _ expr_writes).bind fun init hinit => ?_
  exact (Ensures.spanFrom _).bind fun _ _ => .pure ⟨hty, hinit⟩

theorem member_writes : Ensures (NamesIn Q) member (Feature.Writes Q) := by
  have hfeature : Ensures (NamesIn Q) feature (Feature.Writes Q) := by
    refine (Ensures.identifier NamesIn.invariant _).bind fun _ _ => ?_
    refine (Ensures.accept NamesIn.invariant _).bind fun _ _ => .ite (fun _ => ?_) fun _ => ?_
    · exact (methodDecl_writes _ _).bind fun m hm => .pure hm
    · exact (attrDecl_writes _ _).bind fun a ha => .pure ha
  refine hfeature.bind fun f hf => ?_
  exact (Ensures.withHelp (Ensures.expectSymbol NamesIn.invariant _ _)).bind fun _ _ => .pure hf

theorem classDecl_writes : Ensures (NamesIn Q) classDecl (ClassDecl.Writes Q) := by
  refine (Ensures.expectKeyword NamesIn.invariant _ _).bind fun _ _ => ?_
  refine (Ensures.freshId NamesIn.invariant).bind fun _ _ => ?_
  refine (NamesIn.typeName _).bind fun name hname => ?_
  refine (Ensures.optionalAfter NamesIn.invariant _ (NamesIn.typeName _)).bind fun parent hparent => ?_
  refine (Ensures.expectSymbol NamesIn.invariant _ _).bind fun _ _ => ?_
  refine (Ensures.manyBefore member_writes _).bind fun features hfeatures => ?_
  refine (Ensures.expectSymbol NamesIn.invariant _ _).bind fun _ _ => ?_
  refine (Ensures.withHelp (Ensures.expectSymbol NamesIn.invariant _ _)).bind fun _ _ => ?_
  exact (Ensures.spanFrom _).bind fun _ _ => .pure ⟨hname, hparent, hfeatures⟩

theorem ClassRun.writes {n : Nat} {s : State} {cs : List ClassDecl} (h : ClassRun n s cs)
    (hs : NamesIn Q s) : ∀ c ∈ cs, c.Writes Q := by
  induction h with
  | done _ => simp
  | next _ hc _ ih =>
      obtain ⟨hs', hwrites⟩ := classDecl_writes hs hc
      exact List.forall_mem_cons.mpr ⟨hwrites, ih hs'⟩

theorem program_writes {input : TokenStream} {p : Program}
    (hin : ∀ t ∈ input.tokens, ∀ name, t.kind = .typeName name → Q name)
    (h : program input = .ok p) : ∀ c ∈ p.classes, c.Writes Q :=
  (program_eq_ok.mp h).1.writes hin

end Parser

/-! ## Names of types in a text -/

/-- The name starts with a capital letter. -/
def TypeName.Capitalized (name : TypeName) : Prop := ∃ c cs, name.toList = c :: cs ∧ c.isUpper = true

theorem TypeName.Capitalized.ne_error {name : TypeName} (h : name.Capitalized) :
    name ≠ TypeName.error := by
  rintro rfl
  obtain ⟨c, cs, hcs, hc⟩ := h
  have hlist : TypeName.error.toList = ['<', 'e', 'r', 'r', 'o', 'r', '>'] := by decide
  rw [hlist] at hcs
  cases hcs
  revert hc
  decide

namespace Lexer

theorem wordKind_capitalized {word : List Char} {name : String}
    (h : wordKind word = .typeName name) : TypeName.Capitalized name := by
  unfold wordKind at h
  split at h
  · cases h
  split at h
  · rename_i c cs _
    split at h
    · rename_i hc
      cases h
      exact ⟨c, cs, by simp, hc⟩
    · cases h
  · cases h

theorem CutsTo.capitalized {c : Char} {cs : List Char} {next : Cut} (h : CutsTo c cs next) {name : String}
    (hname : next.lexeme = .token (.typeName name)) : TypeName.Capitalized name := by
  cases h with
  | word => exact wordKind_capitalized (Lexeme.token.inj hname)
  | _ => cases hname

end Lexer

theorem lex_capitalized {source : String} {input : TokenStream} (h : lex source = .ok input) :
    ∀ t ∈ input.tokens, ∀ name, t.kind = .typeName name → TypeName.Capitalized name := by
  intro t ht name hk
  obtain ⟨c, cs, hcut⟩ := lex_mem h ht
  rw [hk] at hcut
  exact (Lexer.cut_cutsTo c cs).capitalized hcut

/-- Every type that a program names starts with a capital letter. -/
theorem parse_capitalized {source : String} {p : Program} (h : parse source = .ok p) :
    ∀ c ∈ p.classes, c.Writes TypeName.Capitalized := by
  unfold parse at h
  cases hl : lex source with
  | error errors => rw [hl] at h; cases h
  | ok input =>
      rw [hl] at h
      exact Parser.program_writes (lex_capitalized hl) h

end CoolTyping
