import CoolTyping.Proofs.Derivations
import CoolTyping.Program.Printer

/-!
# Places do not matter

Two texts with the same words are read as the same program, apart from the places in it, and a program
is printed without regard to its places.
-/

namespace CoolTyping

/-! ## Programs without places -/

def Binder.eraseSpan (b : Binder) : Binder := { b with span := default }

namespace Expr

mutual

/-- The expression with all its places forgotten. -/
def eraseSpans : Expr → Expr
  | assign _ x value => assign default x value.eraseSpans
  | dispatch _ none method args => dispatch default none method (eraseAll args)
  | dispatch _ (some receiver) method args =>
    dispatch default (some receiver.eraseSpans) method (eraseAll args)
  | staticDispatch _ receiver ancestor method args =>
    staticDispatch default receiver.eraseSpans ancestor method (eraseAll args)
  | cond _ test thenBranch elseBranch =>
    cond default test.eraseSpans thenBranch.eraseSpans elseBranch.eraseSpans
  | loop _ test body => loop default test.eraseSpans body.eraseSpans
  | letIn _ bindings body => letIn default (eraseBindings bindings) body.eraseSpans
  | caseOf _ scrutinee arms => caseOf default scrutinee.eraseSpans (eraseArms arms)
  | block _ body => block default (eraseAll body)
  | binary _ op left right => binary default op left.eraseSpans right.eraseSpans
  | unary _ op operand => unary default op operand.eraseSpans
  | new _ ty => new default ty
  | paren _ inner => paren default inner.eraseSpans
  | ident _ x => ident default x
  | int _ value => int default value
  | str _ value => str default value
  | bool _ value => bool default value
termination_by structural e => e

def eraseAll : List Expr → List Expr
  | [] => []
  | e :: es => e.eraseSpans :: eraseAll es
termination_by structural es => es

def eraseOption : Option Expr → Option Expr
  | none => none
  | some e => some e.eraseSpans
termination_by structural init => init

def eraseBindings : List (Binder × Option Expr) → List (Binder × Option Expr)
  | [] => []
  | (b, init) :: bindings => (b.eraseSpan, eraseOption init) :: eraseBindings bindings
termination_by structural bindings => bindings

def eraseArms : List (Binder × Expr) → List (Binder × Expr)
  | [] => []
  | (b, body) :: arms => (b.eraseSpan, body.eraseSpans) :: eraseArms arms
termination_by structural arms => arms

end

theorem eraseAll_eq (es : List Expr) : eraseAll es = es.map eraseSpans := by
  induction es with
  | nil => simp [eraseAll]
  | cons e es ih => simp [eraseAll, ih]

theorem eraseOption_eq (init : Option Expr) : eraseOption init = init.map eraseSpans := by
  cases init <;> simp [eraseOption]

theorem eraseBindings_eq (bindings : List (Binder × Option Expr)) :
    eraseBindings bindings = bindings.map fun b => (b.1.eraseSpan, b.2.map eraseSpans) := by
  induction bindings with
  | nil => simp [eraseBindings]
  | cons b bindings ih => simp [eraseBindings, eraseOption_eq, ih]

theorem eraseArms_eq (arms : List (Binder × Expr)) :
    eraseArms arms = arms.map fun a => (a.1.eraseSpan, a.2.eraseSpans) := by
  induction arms with
  | nil => simp [eraseArms]
  | cons a arms ih => simp [eraseArms, ih]

end Expr

def Param.eraseSpan (p : Param) : Param := { p with span := default }

def AttrDecl.eraseSpans (a : AttrDecl) : AttrDecl :=
  { a with init := a.init.map Expr.eraseSpans, span := default }

def MethodDecl.eraseSpans (m : MethodDecl) : MethodDecl :=
  { m with params := m.params.map Param.eraseSpan, body := m.body.eraseSpans, span := default }

def Feature.eraseSpans : Feature → Feature
  | .attr a => .attr a.eraseSpans
  | .method m => .method m.eraseSpans

def ClassDecl.eraseSpans (c : ClassDecl) : ClassDecl :=
  { c with features := c.features.map Feature.eraseSpans, span := default }

/-- The program with all its places forgotten. -/
def Program.eraseSpans (p : Program) : Program := ⟨p.classes.map ClassDecl.eraseSpans⟩

/-! ## Printing -/

namespace Printer

mutual

theorem expr_eraseSpans : ∀ n e, expr n (Expr.eraseSpans e) = expr n e
  | n, .assign _ _ value => by simp [Expr.eraseSpans, expr, expr_eraseSpans n value]
  | n, .dispatch _ none _ args => by simp [Expr.eraseSpans, expr, arguments_eraseAll n args]
  | n, .dispatch _ (some receiver) _ args => by
      simp [Expr.eraseSpans, expr, expr_eraseSpans n receiver, arguments_eraseAll n args]
  | n, .staticDispatch _ receiver _ _ args => by
      simp [Expr.eraseSpans, expr, expr_eraseSpans n receiver, arguments_eraseAll n args]
  | n, .cond _ test thenBranch elseBranch => by
      simp [Expr.eraseSpans, expr, expr_eraseSpans n test, expr_eraseSpans n thenBranch,
        expr_eraseSpans n elseBranch]
  | n, .loop _ test body => by
      simp [Expr.eraseSpans, expr, expr_eraseSpans n test, expr_eraseSpans n body]
  | n, .letIn _ bindings body => by
      simp [Expr.eraseSpans, expr, bindingList_eraseBindings n bindings, expr_eraseSpans n body]
  | n, .caseOf _ scrutinee arms => by
      simp [Expr.eraseSpans, expr, expr_eraseSpans n scrutinee, armList_eraseArms n arms]
  | n, .block _ body => by simp [Expr.eraseSpans, expr, statements_eraseAll n body]
  | n, .binary _ _ left right => by
      simp [Expr.eraseSpans, expr, expr_eraseSpans n left, expr_eraseSpans n right]
  | n, .unary _ _ operand => by simp [Expr.eraseSpans, expr, expr_eraseSpans n operand]
  | n, .paren _ inner => by simp [Expr.eraseSpans, expr, expr_eraseSpans n inner]
  | n, .new .. | n, .ident .. | n, .int .. | n, .str .. | n, .bool .. => by
      simp [Expr.eraseSpans, expr]

theorem arguments_eraseAll : ∀ n es, arguments n (Expr.eraseAll es) = arguments n es
  | n, [] => by simp [Expr.eraseAll]
  | n, e :: es => by
      simp [Expr.eraseAll, arguments, expr_eraseSpans n e, moreArguments_eraseAll n es]

theorem moreArguments_eraseAll : ∀ n es, moreArguments n (Expr.eraseAll es) = moreArguments n es
  | n, [] => by simp [Expr.eraseAll]
  | n, e :: es => by
      simp [Expr.eraseAll, moreArguments, expr_eraseSpans n e, moreArguments_eraseAll n es]

theorem initial_eraseOption : ∀ n init, initial n (Expr.eraseOption init) = initial n init
  | n, none => by simp [Expr.eraseOption]
  | n, some e => by simp [Expr.eraseOption, initial, expr_eraseSpans n e]

theorem bindingList_eraseBindings : ∀ n bindings,
    bindingList n (Expr.eraseBindings bindings) = bindingList n bindings
  | n, [] => by simp [Expr.eraseBindings]
  | n, (b, init) :: bindings => by
      simp [Expr.eraseBindings, bindingList, Binder.eraseSpan, initial_eraseOption n init,
        moreBindings_eraseBindings n bindings]

theorem moreBindings_eraseBindings : ∀ n bindings,
    moreBindings n (Expr.eraseBindings bindings) = moreBindings n bindings
  | n, [] => by simp [Expr.eraseBindings]
  | n, (b, init) :: bindings => by
      simp [Expr.eraseBindings, moreBindings, Binder.eraseSpan, initial_eraseOption n init,
        moreBindings_eraseBindings n bindings]

theorem armList_eraseArms : ∀ n arms, armList n (Expr.eraseArms arms) = armList n arms
  | n, [] => by simp [Expr.eraseArms]
  | n, (b, body) :: arms => by
      simp [Expr.eraseArms, armList, Binder.eraseSpan, expr_eraseSpans (n + 2) body,
        armList_eraseArms n arms]

theorem statements_eraseAll : ∀ n es, statements n (Expr.eraseAll es) = statements n es
  | n, [] => by simp [Expr.eraseAll]
  | n, e :: es => by
      simp [Expr.eraseAll, statements, expr_eraseSpans (n + 2) e, statements_eraseAll n es]

end

theorem feature_eraseSpans (f : Feature) : feature f.eraseSpans = feature f := by
  cases f with
  | attr a =>
      simp [Feature.eraseSpans, feature, attrDecl, AttrDecl.eraseSpans, ← Expr.eraseOption_eq,
        initial_eraseOption]
  | method m =>
      have hparams : params (m.params.map Param.eraseSpan) = params m.params := by
        cases m.params with
        | nil => rfl
        | cons p ps => simp [params, Param.eraseSpan, List.flatMap_map]
      simp [Feature.eraseSpans, feature, methodDecl, MethodDecl.eraseSpans, hparams, expr_eraseSpans]

theorem classDecl_eraseSpans (c : ClassDecl) : classDecl c.eraseSpans = classDecl c := by
  simp [classDecl, ClassDecl.eraseSpans, List.flatMap_map, feature_eraseSpans]

end Printer

theorem Program.format_eraseSpans (p : Program) : p.eraseSpans.format = p.format := by
  have hprogram : Printer.program p.eraseSpans = Printer.program p := by
    unfold Printer.program Program.eraseSpans
    cases p.classes with
    | nil => rfl
    | cons c cs => simp [List.flatMap_map, Printer.classDecl_eraseSpans]
  rw [format, format, hprogram]

/-! ## Parsing -/

namespace Parser

open Grammar

variable {α β γ δ : Type}

/-- The same words are left, and the same numbers. -/
def Alike (s t : State) : Prop := s.words = t.words ∧ s.nextId = t.nextId

theorem Alike.length_eq {s t : State} (h : Alike s t) : s.rest.length = t.rest.length := by
  have := congrArg List.length h.1
  simpa [State.words] using this

theorem Alike.nil {s t : State} (h : Alike s t) (hs : s.rest = []) : t.rest = [] := by
  simpa [State.words, hs] using h.1.symm

theorem Alike.cons {s t : State} (h : Alike s t) {a : Token} {rest : List Token}
    (hs : s.rest = a :: rest) :
    ∃ b rest', t.rest = b :: rest' ∧ b.kind = a.kind ∧ Alike (s.advance a rest) (t.advance b rest') := by
  have hwords := h.1
  cases ht : t.rest with
  | nil => simp [State.words, hs, ht] at hwords
  | cons b rest' =>
      simp only [State.words, hs, ht, List.map_cons, List.cons.injEq] at hwords
      exact ⟨b, rest', rfl, hwords.1.symm, hwords.2, h.2⟩

/-- Where `p` succeeds, `q` succeeds with the same result in the eyes of `f`. -/
def Mirrors (f : α → β) (p q : Parser α) : Prop :=
  ∀ ⦃s t⦄, Alike s t → ∀ ⦃a s'⦄, p s = .ok (a, s') → ∃ b t', q t = .ok (b, t') ∧ f a = f b ∧ Alike s' t'

namespace Mirrors

variable {f : α → β} {g : γ → δ}

theorem pure {a b : α} (h : f a = f b) :
    Mirrors f (Pure.pure a : Parser α) (Pure.pure b : Parser α) := by
  intro s t hst a' s' hp
  cases hp
  exact ⟨b, t, rfl, h, hst⟩

theorem bind {p q : Parser α} {k l : α → Parser γ} (hp : Mirrors f p q)
    (hk : ∀ a b, f a = f b → Mirrors g (k a) (l b)) : Mirrors g (p >>= k) (q >>= l) := by
  intro s t hst c s'' h
  obtain ⟨a, s', ha, hc⟩ := bind_eq_ok.mp h
  obtain ⟨b, t', hb, hab, hst'⟩ := hp hst ha
  obtain ⟨d, t'', hd, hcd, hst''⟩ := hk a b hab hst' hc
  exact ⟨d, t'', bind_eq_ok.mpr ⟨b, t', hb, hd⟩, hcd, hst''⟩

theorem bindEq {p q : Parser α} {k l : α → Parser γ} (hp : Mirrors id p q)
    (hk : ∀ a, Mirrors g (k a) (l a)) : Mirrors g (p >>= k) (q >>= l) := by
  refine hp.bind ?_
  rintro a _ ⟨⟩
  exact hk a

theorem ofFuel {p q : Nat → Parser α} (h : ∀ n, Mirrors f (p n) (q n)) :
    Mirrors f (fun s => p s.rest.length s) (fun s => q s.rest.length s) := by
  intro s t hst a s' hp
  have := h _ hst hp
  rw [hst.length_eq] at this
  exact this

theorem withHelp {help help' : String} {p q : Parser α} (hp : Mirrors f p q) :
    Mirrors f (Parser.withHelp help p) (Parser.withHelp help' q) := by
  intro s t hst a s' h
  rw [withHelp_eq] at h
  split at h
  · cases h
    rename_i hr
    obtain ⟨b, t', hb, hab, hst'⟩ := hp hst hr
    exact ⟨b, t', by simp [withHelp_eq, hb], hab, hst'⟩
  · cases h

/-- A parser that looks at the kind of the next token only. -/
theorem ofHead {p q : Parser α}
    (hnil : ∀ ⦃s t⦄, Alike s t → s.rest = [] → t.rest = [] → ∀ ⦃a s'⦄, p s = .ok (a, s') →
      ∃ b t', q t = .ok (b, t') ∧ f a = f b ∧ Alike s' t')
    (hcons : ∀ ⦃s t⦄, Alike s t → ∀ ⦃x y rest rest'⦄, s.rest = x :: rest → t.rest = y :: rest' →
      y.kind = x.kind → Alike (s.advance x rest) (t.advance y rest') → ∀ ⦃a s'⦄, p s = .ok (a, s') →
      ∃ b t', q t = .ok (b, t') ∧ f a = f b ∧ Alike s' t') : Mirrors f p q := by
  intro s t hst a s' h
  cases hs : s.rest with
  | nil => exact hnil hst hs (hst.nil hs) h
  | cons x rest =>
      obtain ⟨y, rest', ht, hkind, hnext⟩ := hst.cons hs
      exact hcons hst hs ht hkind hnext h

theorem peek : Mirrors id Parser.peek Parser.peek := by
  intro s t hst a s' h
  cases h
  refine ⟨_, t, rfl, ?_, hst⟩
  simpa [State.words] using congrArg List.head? hst.1

theorem accept (kind : TokenKind) : Mirrors id (Parser.accept kind) (Parser.accept kind) := by
  refine ofHead ?_ ?_
  · intro s t hst hs ht a s' h
    simp only [accept_eq, hs] at h
    cases h
    exact ⟨false, t, by simp [accept_eq, ht], rfl, hst⟩
  · intro s t hst x y rest rest' hs ht hkind hnext a s' h
    simp only [accept_eq, hs] at h
    by_cases hx : x.kind = kind
    · rw [if_pos hx] at h
      cases h
      exact ⟨true, _, by simp [accept_eq, ht, hkind, hx], rfl, hnext⟩
    · rw [if_neg hx] at h
      cases h
      exact ⟨false, t, by simp [accept_eq, ht, hkind, hx], rfl, hst⟩

theorem expect (kind : TokenKind) (expected : String) :
    Mirrors (fun _ => ()) (Parser.expect kind expected) (Parser.expect kind expected) := by
  refine ofHead ?_ ?_
  · intro s t hst hs ht a s' h
    simp [expect_eq, hs] at h
  · intro s t hst x y rest rest' hs ht hkind hnext a s' h
    simp only [expect_eq, hs] at h
    by_cases hx : x.kind = kind
    · rw [if_pos hx] at h
      cases h
      exact ⟨y.span, _, by simp [expect_eq, ht, hkind, hx], rfl, hnext⟩
    · rw [if_neg hx] at h
      cases h

theorem expectSymbol (sign : Symbol) (expected : String) :
    Mirrors (fun _ => ()) (Parser.expectSymbol sign expected) (Parser.expectSymbol sign expected) :=
  expect _ _

theorem expectKeyword (word : Keyword) (expected : String) :
    Mirrors (fun _ => ()) (Parser.expectKeyword word expected) (Parser.expectKeyword word expected) :=
  expect _ _

theorem identifier (expected : String) :
    Mirrors Prod.fst (Parser.identifier expected) (Parser.identifier expected) := by
  refine ofHead ?_ ?_
  · intro s t hst hs ht a s' h
    simp [identifier_eq, hs] at h
  · rintro s t hst ⟨kind, span⟩ ⟨kind', span'⟩ rest rest' hs ht ⟨⟩ hnext a s' h
    rw [identifier_eq] at h
    split at h
    · rename_i name _ _ hs'
      rw [hs] at hs'
      cases hs'
      cases h
      exact ⟨(name, span'), _, by simp [identifier_eq, ht], rfl, hnext⟩
    · cases h

theorem typeName (expected : String) :
    Mirrors id (Parser.typeName expected) (Parser.typeName expected) := by
  refine ofHead ?_ ?_
  · intro s t hst hs ht a s' h
    simp [typeName_eq, hs] at h
  · rintro s t hst ⟨kind, span⟩ ⟨kind', span'⟩ rest rest' hs ht ⟨⟩ hnext a s' h
    rw [typeName_eq] at h
    split at h
    · rename_i hs'
      rw [hs] at hs'
      cases hs'
      cases h
      exact ⟨a, _, by simp [typeName_eq, ht], rfl, hnext⟩
    · cases h
    · cases h

theorem freshId : Mirrors id Parser.freshId Parser.freshId := by
  intro s t hst a s' h
  cases h
  exact ⟨_, _, rfl, hst.2, hst.1, congrArg (· + 1) hst.2⟩

theorem spanFrom (start start' : Nat) :
    Mirrors (fun _ => ()) (Parser.spanFrom start) (Parser.spanFrom start') := by
  intro s t hst a s' h
  cases h
  exact ⟨_, t, rfl, rfl, hst⟩

theorem operator? (ops : List BinaryOp) :
    Mirrors id (Parser.operator? ops) (Parser.operator? ops) := by
  refine ofHead ?_ ?_
  · intro s t hst hs ht a s' h
    simp only [operator?_eq, hs] at h
    cases h
    exact ⟨none, t, by simp [operator?_eq, ht], rfl, hst⟩
  · intro s t hst x y rest rest' hs ht hkind hnext a s' h
    simp only [operator?_eq, hs] at h
    cases hop : ops.find? fun op => x.kind = .symbol op.symbol with
    | some op =>
        rw [hop] at h
        cases h
        exact ⟨some op, _, by simp [operator?_eq, ht, hkind, hop], rfl, hnext⟩
    | none =>
        rw [hop] at h
        cases h
        exact ⟨none, t, by simp only [operator?_eq, ht, hkind, hop], rfl, hst⟩

/-! ### Repetition -/

variable {p q : Parser α}

theorem optionalAfter (kind : TokenKind) (hp : Mirrors f p q) :
    Mirrors (Option.map f) (Parser.optionalAfter kind p) (Parser.optionalAfter kind q) := by
  refine (accept kind).bindEq fun found => ?_
  cases found with
  | true => exact hp.bind fun a b h => pure (congrArg some h)
  | false => exact pure rfl

theorem sepBy (hp : Mirrors f p q) (sep : Symbol) :
    Mirrors (List.map f) (Parser.sepBy p sep) (Parser.sepBy q sep) := by
  refine ofFuel fun n => ?_
  induction n with
  | zero => exact hp.bind fun a b h => pure (by simp [h])
  | succ n ih =>
      refine hp.bind fun a b h => (accept _).bindEq fun found => ?_
      cases found with
      | true => exact ih.bind fun as bs hs => pure (by simp [h, hs])
      | false => exact pure (by simp [h])

theorem sepByBefore (hp : Mirrors f p q) (sep close : Symbol) :
    Mirrors (List.map f) (Parser.sepByBefore p sep close) (Parser.sepByBefore q sep close) := by
  refine peek.bindEq fun next => ?_
  split
  · exact pure rfl
  · exact sepBy hp sep

theorem someUntil (hp : Mirrors f p q) (close : TokenKind) :
    Mirrors (List.map f) (Parser.someUntil p close) (Parser.someUntil q close) := by
  refine ofFuel fun n => ?_
  induction n with
  | zero => exact hp.bind fun a b h => pure (by simp [h])
  | succ n ih =>
      refine hp.bind fun a b h => (accept _).bindEq fun found => ?_
      cases found with
      | true => exact pure (by simp [h])
      | false => exact ih.bind fun as bs hs => pure (by simp [h, hs])

theorem manyBefore (hp : Mirrors f p q) (close : TokenKind) :
    Mirrors (List.map f) (Parser.manyBefore p close) (Parser.manyBefore q close) := by
  refine ofFuel fun n => ?_
  induction n with
  | zero => exact pure rfl
  | succ n ih =>
      refine peek.bindEq fun next => ?_
      cases next with
      | none => exact pure rfl
      | some kind =>
          dsimp only
          split
          · exact pure rfl
          · exact hp.bind fun a b h => ih.bind fun as bs hs => pure (by simp [h, hs])

end Mirrors

/-! ### Expressions -/

section Parts

variable {e : Parser Expr} (he : Mirrors Expr.eraseSpans e e)
include he

theorem arguments_mirrors : Mirrors (List.map Expr.eraseSpans) (arguments e) (arguments e) :=
  (Mirrors.expectSymbol _ _).bind fun _ _ _ => (Mirrors.sepByBefore he _ _).bind fun _ _ hargs =>
    (Mirrors.expectSymbol _ _).bind fun _ _ _ => .pure hargs

theorem binding_mirrors :
    Mirrors (fun b => (b.1.eraseSpan, b.2.map Expr.eraseSpans)) (binding e) (binding e) := by
  refine (Mirrors.identifier _).bind ?_
  rintro ⟨name, place⟩ ⟨_, place'⟩ ⟨⟩
  refine (Mirrors.expectSymbol _ _).bind fun _ _ _ => (Mirrors.typeName _).bindEq fun ty => ?_
  refine (Mirrors.optionalAfter _ he).bind fun _ _ hinit => Mirrors.freshId.bindEq fun id => ?_
  exact (Mirrors.spanFrom _ _).bind fun _ _ _ => .pure (by simp [Binder.eraseSpan, hinit])

theorem arm_mirrors : Mirrors (fun a => (a.1.eraseSpan, a.2.eraseSpans)) (arm e) (arm e) := by
  refine (Mirrors.identifier _).bind ?_
  rintro ⟨name, place⟩ ⟨_, place'⟩ ⟨⟩
  refine (Mirrors.expectSymbol _ _).bind fun _ _ _ => (Mirrors.typeName _).bindEq fun ty => ?_
  refine (Mirrors.expectSymbol _ _).bind fun _ _ _ => he.bind fun _ _ hbody => ?_
  refine (Mirrors.expectSymbol _ _).bind fun _ _ _ => Mirrors.freshId.bindEq fun id => ?_
  exact (Mirrors.spanFrom _ _).bind fun _ _ _ => .pure (by simp [Binder.eraseSpan, hbody])

theorem statement_mirrors : Mirrors Expr.eraseSpans (statement e) (statement e) :=
  he.bind fun _ _ h => (Mirrors.expectSymbol _ _).bind fun _ _ _ => .pure h

theorem conditional_mirrors (start start' : Nat) :
    Mirrors Expr.eraseSpans (conditional e start) (conditional e start') := by
  refine he.bind fun _ _ ha => (Mirrors.expectKeyword _ _).bind fun _ _ _ => ?_
  refine he.bind fun _ _ hb => (Mirrors.expectKeyword _ _).bind fun _ _ _ => ?_
  refine he.bind fun _ _ hc => (Mirrors.expectKeyword _ _).bind fun _ _ _ => ?_
  exact (Mirrors.spanFrom _ _).bind fun _ _ _ => .pure (by simp [Expr.eraseSpans, ha, hb, hc])

theorem whileLoop_mirrors (start start' : Nat) :
    Mirrors Expr.eraseSpans (whileLoop e start) (whileLoop e start') := by
  refine he.bind fun _ _ ha => (Mirrors.expectKeyword _ _).bind fun _ _ _ => ?_
  refine he.bind fun _ _ hb => (Mirrors.expectKeyword _ _).bind fun _ _ _ => ?_
  exact (Mirrors.spanFrom _ _).bind fun _ _ _ => .pure (by simp [Expr.eraseSpans, ha, hb])

theorem letExpr_mirrors (start start' : Nat) :
    Mirrors Expr.eraseSpans (letExpr e start) (letExpr e start') := by
  refine (Mirrors.sepBy (binding_mirrors he) _).bind fun _ _ hbindings => ?_
  refine (Mirrors.expectKeyword _ _).bind fun _ _ _ => he.bind fun _ _ hbody => ?_
  exact (Mirrors.spanFrom _ _).bind fun _ _ _ =>
    .pure (by simp only [Expr.eraseSpans, Expr.eraseBindings_eq, hbindings, hbody])

theorem caseExpr_mirrors (start start' : Nat) :
    Mirrors Expr.eraseSpans (caseExpr e start) (caseExpr e start') := by
  refine he.bind fun _ _ hx => (Mirrors.expectKeyword _ _).bind fun _ _ _ => ?_
  refine (Mirrors.someUntil (arm_mirrors he) _).bind fun _ _ harms => ?_
  exact (Mirrors.spanFrom _ _).bind fun _ _ _ =>
    .pure (by simp only [Expr.eraseSpans, Expr.eraseArms_eq, harms, hx])

omit he in
theorem newExpr_mirrors (start start' : Nat) :
    Mirrors Expr.eraseSpans (newExpr start) (newExpr start') := by
  refine (Mirrors.typeName _).bindEq fun ty => ?_
  exact (Mirrors.spanFrom _ _).bind fun _ _ _ => .pure (by simp [Expr.eraseSpans])

theorem parenthesized_mirrors (start start' : Nat) :
    Mirrors Expr.eraseSpans (parenthesized e start) (parenthesized e start') := by
  refine he.bind fun _ _ hx => (Mirrors.expectSymbol _ _).bind fun _ _ _ => ?_
  exact (Mirrors.spanFrom _ _).bind fun _ _ _ => .pure (by simp [Expr.eraseSpans, hx])

theorem blockExpr_mirrors (start start' : Nat) :
    Mirrors Expr.eraseSpans (blockExpr e start) (blockExpr e start') := by
  refine (Mirrors.someUntil (statement_mirrors he) _).bind fun _ _ hes => ?_
  exact (Mirrors.spanFrom _ _).bind fun _ _ _ =>
    .pure (by simp only [Expr.eraseSpans, Expr.eraseAll_eq, hes])

theorem nameOrCall_mirrors (name : String) (span span' : Span) :
    Mirrors Expr.eraseSpans (nameOrCall e name span) (nameOrCall e name span') := by
  refine Mirrors.peek.bindEq fun next => ?_
  split
  · refine (arguments_mirrors he).bind fun _ _ hargs => (Mirrors.spanFrom _ _).bind fun _ _ _ => ?_
    exact .pure (by simp only [Expr.eraseSpans, Expr.eraseAll_eq, hargs])
  · exact .pure (by simp [Expr.eraseSpans])

theorem atom_mirrors : Mirrors Expr.eraseSpans (atom e) (atom e) := by
  refine Mirrors.ofHead ?_ ?_
  · intro s t hst hs ht a s' h
    simp [atom_eq, hs] at h
  · rintro s t hst ⟨kind, span⟩ ⟨_, span'⟩ rest rest' hs ht ⟨⟩ hnext a s' h
    simp only [atom_eq, hs, ht] at h ⊢
    cases kind with
    | keyword word =>
        cases word with
        | ifKw => exact conditional_mirrors he _ _ hnext h
        | whileKw => exact whileLoop_mirrors he _ _ hnext h
        | letKw => exact letExpr_mirrors he _ _ hnext h
        | caseKw => exact caseExpr_mirrors he _ _ hnext h
        | newKw => exact newExpr_mirrors _ _ hnext h
        | trueKw | falseKw =>
            cases h
            exact ⟨_, _, rfl, by simp [Expr.eraseSpans], hnext⟩
        | _ => cases h
    | symbol sign =>
        cases sign with
        | lparen => exact parenthesized_mirrors he _ _ hnext h
        | lbrace => exact blockExpr_mirrors he _ _ hnext h
        | _ => cases h
    | identifier name => exact nameOrCall_mirrors he _ _ _ hnext h
    | integer _ | string _ =>
        cases h
        exact ⟨_, _, rfl, by simp [Expr.eraseSpans], hnext⟩
    | typeName _ => cases h

theorem callsN_mirrors (n : Nat) {x y : Expr} (hxy : x.eraseSpans = y.eraseSpans) :
    Mirrors Expr.eraseSpans (callsN e n x) (callsN e n y) := by
  induction n generalizing x y with
  | zero => exact .pure hxy
  | succ n ih =>
      refine (Mirrors.accept _).bindEq fun dot => ?_
      cases dot with
      | true =>
          refine (Mirrors.identifier _).bind ?_
          rintro ⟨m, place⟩ ⟨_, place'⟩ ⟨⟩
          refine (arguments_mirrors he).bind fun _ _ hargs => (Mirrors.spanFrom _ _).bind fun _ _ _ => ?_
          exact ih (by simp only [Expr.eraseSpans, Expr.eraseAll_eq, hargs, hxy])
      | false =>
          refine (Mirrors.accept _).bindEq fun atSign => ?_
          cases atSign with
          | true =>
              refine (Mirrors.typeName _).bindEq fun ty => (Mirrors.expectSymbol _ _).bind fun _ _ _ => ?_
              refine (Mirrors.identifier _).bind ?_
              rintro ⟨m, place⟩ ⟨_, place'⟩ ⟨⟩
              refine (arguments_mirrors he).bind fun _ _ hargs => ?_
              refine (Mirrors.spanFrom _ _).bind fun _ _ _ => ?_
              exact ih (by simp only [Expr.eraseSpans, Expr.eraseAll_eq, hargs, hxy])
          | false => exact .pure hxy

theorem postfixed_mirrors : Mirrors Expr.eraseSpans (postfixed e) (postfixed e) :=
  (atom_mirrors he).bind fun x y hxy =>
    .ofFuel (p := fun n => callsN e n x) (q := fun n => callsN e n y) fun n => callsN_mirrors he n hxy

end Parts

theorem unary_mirrors {operand : Parser Expr} (kind : TokenKind) (op : UnaryOp)
    (hoperand : Mirrors Expr.eraseSpans operand operand) :
    Mirrors Expr.eraseSpans (unary kind op operand) (unary kind op operand) := by
  refine .ofFuel fun n => ?_
  induction n with
  | zero => exact hoperand
  | succ n ih =>
      refine Mirrors.ofHead ?_ ?_
      · intro s t hst hs ht a s' h
        simp only [unaryN_succ_eq, hs, ht] at h ⊢
        exact hoperand hst h
      · intro s t hst x y rest rest' hs ht hkind hnext a s' h
        simp only [unaryN_succ_eq, hs, ht, hkind] at h ⊢
        split at h
        · rename_i hx
          rw [if_pos hx]
          split at h
          · rename_i z s₁ hz
            cases h
            obtain ⟨b, t', hb, hab, hst'⟩ := ih hnext hz
            exact ⟨.unary ⟨y.span.start, b.span.stop⟩ op b, t', by rw [hb], by simp [Expr.eraseSpans, hab],
              hst'⟩
          · cases h
        · rename_i hx
          rw [if_neg hx]
          exact hoperand hst h

theorem chain_mirrors {operand : Parser Expr} (ops : List BinaryOp)
    (hoperand : Mirrors Expr.eraseSpans operand operand) :
    Mirrors Expr.eraseSpans (chain ops operand) (chain ops operand) := by
  have hN : ∀ n {x y : Expr}, x.eraseSpans = y.eraseSpans →
      Mirrors Expr.eraseSpans (chainN ops operand n x) (chainN ops operand n y) := by
    intro n
    induction n with
    | zero => exact fun hxy => .pure hxy
    | succ n ih =>
        intro x y hxy
        refine (Mirrors.operator? ops).bindEq fun op => ?_
        cases op with
        | none => exact .pure hxy
        | some op =>
            exact hoperand.bind fun a b hab => ih (by simp [mkBinary, Expr.eraseSpans, hab, hxy])
  exact hoperand.bind fun x y hxy =>
    .ofFuel (p := fun n => chainN ops operand n x) (q := fun n => chainN ops operand n y)
      fun n => hN n hxy

section Levels

variable {e : Parser Expr} (he : Mirrors Expr.eraseSpans e e)
include he

theorem sum_mirrors : Mirrors Expr.eraseSpans (sum e) (sum e) :=
  chain_mirrors _ (chain_mirrors _ (unary_mirrors _ _ (unary_mirrors _ _ (postfixed_mirrors he))))

theorem comparison_mirrors : Mirrors Expr.eraseSpans (comparison e) (comparison e) := by
  refine (sum_mirrors he).bind fun x y hxy => (Mirrors.operator? _).bindEq fun op => ?_
  cases op with
  | none => exact .pure hxy
  | some op =>
      exact (sum_mirrors he).bind fun a b hab => .pure (by simp [mkBinary, Expr.eraseSpans, hab, hxy])

theorem assignment_mirrors : Mirrors Expr.eraseSpans (assignment e) (assignment e) := by
  have hnegation : Mirrors Expr.eraseSpans (negation e) (negation e) :=
    unary_mirrors _ _ (comparison_mirrors he)
  intro s t hst a s' h
  rw [assignment_eq] at h
  split at h
  · rename_i name place sign rest hs
    obtain ⟨⟨_, place'⟩, rest', ht, ⟨⟩, hnext⟩ := hst.cons hs
    obtain ⟨⟨_, sign'⟩, rest'', ht', ⟨⟩, hnext'⟩ := hnext.cons rfl
    have hvalue : Mirrors Expr.eraseSpans
        (do let value ← e; return .assign (← spanFrom place.start) name value : Parser Expr)
        (do let value ← e; return .assign (← spanFrom place'.start) name value : Parser Expr) :=
      he.bind fun _ _ hv => (Mirrors.spanFrom _ _).bind fun _ _ _ => .pure (by simp [Expr.eraseSpans, hv])
    simp only [State.advance] at ht'
    rw [ht'] at ht
    simp only [assignment_eq, ht]
    exact hvalue hnext' h
  · rename_i hno
    rw [assignment_eq]
    split
    · rename_i name place' sign' rest' ht
      -- the words of `s` would be those of an assignment too
      have hts : Alike t s := ⟨hst.1.symm, hst.2.symm⟩
      obtain ⟨⟨_, place⟩, rest, hs, ⟨⟩, hnext⟩ := hts.cons ht
      obtain ⟨⟨_, sign⟩, rest'', hs', ⟨⟩, -⟩ := hnext.cons rfl
      simp only [State.advance] at hs'
      rw [hs'] at hs
      exact absurd hs (hno _ _ _ _)
    · exact hnegation hst h

end Levels

theorem expr_mirrors : Mirrors Expr.eraseSpans expr expr := by
  refine .ofFuel (p := fun n => exprN (n + 1)) (q := fun n => exprN (n + 1)) fun n => ?_
  have hN : ∀ n, Mirrors Expr.eraseSpans (exprN n) (exprN n) := by
    intro n
    induction n with
    | zero => exact fun _ _ _ _ _ h => by cases h
    | succ n ih => exact assignment_mirrors ih
  exact hN (n + 1)

/-! ### Programs -/

theorem param_mirrors : Mirrors Param.eraseSpan param param := by
  refine (Mirrors.identifier _).bind ?_
  rintro ⟨name, place⟩ ⟨_, place'⟩ ⟨⟩
  refine (Mirrors.expectSymbol _ _).bind fun _ _ _ => (Mirrors.typeName _).bindEq fun ty => ?_
  exact (Mirrors.spanFrom _ _).bind fun _ _ _ => .pure (by simp [Param.eraseSpan])

theorem methodDecl_mirrors (name : String) (start start' : Nat) :
    Mirrors MethodDecl.eraseSpans (methodDecl name start) (methodDecl name start') := by
  refine Mirrors.freshId.bindEq fun id => ?_
  refine (Mirrors.sepByBefore param_mirrors _ _).bind fun _ _ hparams => ?_
  refine (Mirrors.expectSymbol _ _).bind fun _ _ _ => (Mirrors.expectSymbol _ _).bind fun _ _ _ => ?_
  refine (Mirrors.typeName _).bindEq fun ret => (Mirrors.expectSymbol _ _).bind fun _ _ _ => ?_
  refine expr_mirrors.bind fun _ _ hbody => (Mirrors.expectSymbol _ _).bind fun _ _ _ => ?_
  exact (Mirrors.spanFrom _ _).bind fun _ _ _ => .pure (by simp [MethodDecl.eraseSpans, hparams, hbody])

theorem attrDecl_mirrors (name : String) (start start' : Nat) :
    Mirrors AttrDecl.eraseSpans (attrDecl name start) (attrDecl name start') := by
  refine (Mirrors.expectSymbol _ _).bind fun _ _ _ => (Mirrors.typeName _).bindEq fun ty => ?_
  refine (Mirrors.optionalAfter _ expr_mirrors).bind fun _ _ hinit => ?_
  exact (Mirrors.spanFrom _ _).bind fun _ _ _ => .pure (by simp [AttrDecl.eraseSpans, hinit])

theorem feature_mirrors : Mirrors Feature.eraseSpans feature feature := by
  refine (Mirrors.identifier _).bind ?_
  rintro ⟨name, place⟩ ⟨_, place'⟩ ⟨⟩
  refine (Mirrors.accept _).bindEq fun paren => ?_
  cases paren with
  | true => exact (methodDecl_mirrors _ _ _).bind fun _ _ h => .pure (congrArg Feature.method h)
  | false => exact (attrDecl_mirrors _ _ _).bind fun _ _ h => .pure (congrArg Feature.attr h)

theorem member_mirrors : Mirrors Feature.eraseSpans member member :=
  feature_mirrors.bind fun _ _ h =>
    (Mirrors.withHelp (Mirrors.expectSymbol _ _)).bind fun _ _ _ => .pure h

theorem classDecl_mirrors : Mirrors ClassDecl.eraseSpans classDecl classDecl := by
  refine (Mirrors.expectKeyword _ _).bind fun _ _ _ => Mirrors.freshId.bindEq fun id => ?_
  refine (Mirrors.typeName _).bindEq fun name => ?_
  refine (Mirrors.optionalAfter _ (Mirrors.typeName _)).bind fun parent parent' hparent => ?_
  simp only [Option.map_id_fun, id_eq] at hparent
  refine (Mirrors.expectSymbol _ _).bind fun _ _ _ => ?_
  refine (Mirrors.manyBefore member_mirrors _).bind fun _ _ hfeatures => ?_
  refine (Mirrors.expectSymbol _ _).bind fun _ _ _ => ?_
  refine (Mirrors.withHelp (Mirrors.expectSymbol _ _)).bind fun _ _ _ => ?_
  exact (Mirrors.spanFrom _ _).bind fun _ _ _ =>
    .pure (by simp [ClassDecl.eraseSpans, hparent, hfeatures])

theorem ClassRun.mirrors {n : Nat} {s t : State} {cs : List ClassDecl} (h : ClassRun n s cs)
    (hst : Alike s t) :
    ∃ ds, ClassRun n t ds ∧ cs.map ClassDecl.eraseSpans = ds.map ClassDecl.eraseSpans := by
  have hrest {s t : State} (hst : Alike s t) : s.rest = [] ↔ t.rest = [] := by
    have := congrArg (· = []) hst.1
    simpa [State.words] using this
  induction h generalizing t with
  | done hend => exact ⟨[], .done (hend.imp_right (hrest hst).mp), rfl⟩
  | next hne hc _ ih =>
      obtain ⟨d, t', hd, hcd, hst'⟩ := classDecl_mirrors hst hc
      obtain ⟨ds, hds, hcds⟩ := ih hst'
      exact ⟨d :: ds, .next (mt (hrest hst).mpr hne) hd hds, by simp [hcd, hcds]⟩

/-- Texts with the same words are read as the same program, apart from its places. -/
theorem program_mirrors {input input' : TokenStream} {p : Program}
    (hkinds : input.tokens.map (·.kind) = input'.tokens.map (·.kind)) (h : program input = .ok p) :
    ∃ p', program input' = .ok p' ∧ p'.eraseSpans = p.eraseSpans := by
  have hlen : input.tokens.length = input'.tokens.length := by
    simpa using congrArg List.length hkinds
  have hst : Alike ⟨input.tokens, 0, 0⟩ ⟨input'.tokens, 0, 0⟩ := ⟨hkinds, rfl⟩
  obtain ⟨hrun, hne⟩ := program_eq_ok.mp h
  obtain ⟨classes, hrun', hclasses⟩ := hrun.mirrors hst
  rw [hlen] at hrun'
  refine ⟨⟨classes⟩, program_eq_ok.mpr ⟨hrun', ?_⟩, ?_⟩
  · rintro rfl
    exact hne (List.map_eq_nil_iff.mp hclasses)
  · simp [Program.eraseSpans, hclasses]

end Parser

end CoolTyping
