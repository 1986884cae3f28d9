import CoolTyping.Proofs.Derivations
import CoolTyping.Proofs.Partition
import CoolTyping.Proofs.Seeding
import Mathlib.Data.List.Perm.Basic

/-!
# The numbers of scopes and the starts of declarations

`Draws held p marks`: where `p` succeeds, the marks of what it gives are those in `held` and the ones that it
drew, each of them once. A mark is the number of a scope, which comes from a counter, or the start of a
declaration, which is that of a token. So the scopes of a program that was read from a text are numbered from
zero on, without a gap and without a repetition, although a scope may get its number before or behind the
scopes that it contains, and no two declarations start at the same place.
-/

namespace CoolTyping

/-! ## Numbers and starts in a program -/

/-- The numbers of the scopes inside an expression. -/
def Expr.scopeIds (e : Expr) : List NodeId := e.binders.map (·.id)

def Feature.scopeIds : Feature → List NodeId
  | .attr a => a.init.elim [] Expr.scopeIds
  | .method m => m.id :: m.body.scopeIds

def ClassDecl.scopeIds (c : ClassDecl) : List NodeId := c.id :: c.features.flatMap Feature.scopeIds

/-- The numbers of all scopes of a program. -/
def Program.scopeIds (p : Program) : List NodeId := p.classes.flatMap ClassDecl.scopeIds

/-- Where the declarations inside an expression start. -/
def Expr.starts (e : Expr) : List Nat := e.binders.map (·.span.start)

def Feature.starts : Feature → List Nat
  | .attr a => a.span.start :: a.init.elim [] Expr.starts
  | .method m => m.span.start :: (m.params.map (·.span.start) ++ m.body.starts)

def ClassDecl.starts (c : ClassDecl) : List Nat := c.span.start :: c.features.flatMap Feature.starts

/-- Where the classes of a program and the declarations in them start. -/
def Program.starts (p : Program) : List Nat := p.classes.flatMap ClassDecl.starts

/-- What a scope or a declaration is told from others by: a number, or a start. -/
inductive Mark where
  | number (id : NodeId)
  | start (offset : Nat)

namespace Mark

def number? : Mark → Option NodeId
  | number id => some id
  | start _ => none

def start? : Mark → Option Nat
  | number _ => none
  | start offset => some offset

end Mark

def Binder.marks (b : Binder) : List Mark := [.number b.id, .start b.span.start]

def Expr.marks (e : Expr) : List Mark := e.binders.flatMap Binder.marks

def Feature.marks : Feature → List Mark
  | .attr a => .start a.span.start :: a.init.elim [] Expr.marks
  | .method m => .number m.id :: .start m.span.start ::
      (m.params.map (fun p => .start p.span.start) ++ m.body.marks)

def ClassDecl.marks (c : ClassDecl) : List Mark :=
  .number c.id :: .start c.span.start :: c.features.flatMap Feature.marks

section

open Mark

theorem Expr.filterMap_marks (e : Expr) :
    e.marks.filterMap number? = e.scopeIds ∧ e.marks.filterMap start? = e.starts := by
  simp only [marks, scopeIds, starts, List.filterMap_flatMap]
  exact ⟨List.map_eq_flatMap.symm, List.map_eq_flatMap.symm⟩

theorem Feature.filterMap_marks (f : Feature) :
    f.marks.filterMap number? = f.scopeIds ∧ f.marks.filterMap start? = f.starts := by
  cases f with
  | attr a =>
      cases hi : a.init <;>
        simp [marks, scopeIds, starts, hi, List.filterMap_cons, number?, start?, Expr.filterMap_marks]
  | method m =>
      simp [marks, scopeIds, starts, List.filterMap_cons, number?, start?, Expr.filterMap_marks,
        List.filterMap_map, Function.comp_def]

theorem ClassDecl.filterMap_marks (c : ClassDecl) :
    c.marks.filterMap number? = c.scopeIds ∧ c.marks.filterMap start? = c.starts := by
  simp [marks, scopeIds, starts, List.filterMap_cons, number?, start?, List.filterMap_flatMap,
    Feature.filterMap_marks]

end

namespace Expr

variable {span : Span}

theorem marks_dispatch {receiver method args} : marks (.dispatch span receiver method args) =
    receiver.elim [] marks ++ args.flatMap marks := by
  simp only [marks, binders_dispatch, List.flatMap_append, List.flatMap_assoc]
  cases receiver <;> rfl

theorem marks_staticDispatch {receiver ancestor method args} :
    marks (.staticDispatch span receiver ancestor method args) = receiver.marks ++ args.flatMap marks := by
  simp only [marks, binders_staticDispatch, List.flatMap_append, List.flatMap_assoc]
  rfl

theorem marks_block {body} : marks (.block span body) = body.flatMap marks := by
  simp only [marks, binders_block, List.flatMap_assoc]
  rfl

theorem marks_letIn {bindings body} : (marks (.letIn span bindings body)).Perm
    ((bindings.flatMap fun b => b.1.marks ++ b.2.elim [] marks) ++ body.marks) := by
  have hinits : ∀ init : Option Expr,
      (init.elim [] binders).flatMap Binder.marks = init.elim [] marks := fun init => by cases init <;> rfl
  simp only [marks, binders_letIn, List.flatMap_append, List.flatMap_map, List.flatMap_assoc, hinits]
  exact (List.flatMap_append_perm _ _ _).append_right _

theorem marks_caseOf {scrutinee arms} : (marks (.caseOf span scrutinee arms)).Perm
    (scrutinee.marks ++ arms.flatMap fun a => a.1.marks ++ a.2.marks) := by
  simp only [marks, binders_caseOf, List.flatMap_append, List.flatMap_map, List.flatMap_assoc]
  refine (List.perm_append_comm.append_right _).trans ?_
  rw [List.append_assoc]
  exact (List.flatMap_append_perm _ _ _).append_left _

end Expr

namespace Parser

variable {α β : Type}

/-- On the way from `s` to `s'`, the marks `drawn` were drawn: the next numbers in their order, and starts of
tokens that were read. -/
structure Drawn (s s' : State) (drawn : List Mark) : Prop where
  numbers : ∃ n, s'.nextId = s.nextId + n ∧ drawn.filterMap Mark.number? = List.range' s.nextId n
  starts : ∃ read, s.rest = read ++ s'.rest ∧
    (drawn.filterMap Mark.start?).Sublist (read.map (·.span.start))

namespace Drawn

variable {s s' s'' : State}

/-- Reading on draws no mark by itself. -/
theorem nothing (hid : s'.nextId = s.nextId) (hrest : s'.rest <:+ s.rest) : Drawn s s' [] := by
  obtain ⟨read, hread⟩ := hrest
  exact ⟨⟨0, hid, rfl⟩, read, hread.symm, List.nil_sublist _⟩

theorem trans {drawn drawn' : List Mark} (h : Drawn s s' drawn) (h' : Drawn s' s'' drawn') :
    Drawn s s'' (drawn ++ drawn') := by
  obtain ⟨⟨m, hm, hnumbers⟩, read, hread, hstarts⟩ := h
  obtain ⟨⟨n, hn, hnumbers'⟩, read', hread', hstarts'⟩ := h'
  refine ⟨⟨m + n, by rw [hn, hm, Nat.add_assoc], ?_⟩, read ++ read', ?_, ?_⟩
  · rw [List.filterMap_append, hnumbers, hnumbers', hm, List.range'_append_1]
  · rw [hread, hread', List.append_assoc]
  · rw [List.filterMap_append, List.map_append]
    exact hstarts.append hstarts'

end Drawn

/-- The marks of what `p` gives are those in `held` and the ones that `p` drew. -/
def Draws (held : List Mark) (p : Parser α) (marks : α → List Mark) : Prop :=
  ∀ ⦃s a s'⦄, p s = .ok (a, s') → ∃ drawn, Drawn s s' drawn ∧ (marks a).Perm (held ++ drawn)

namespace Draws

variable {held : List Mark} {marks : α → List Mark} {marks' : β → List Mark}

theorem pure {a : α} (h : (marks a).Perm held) : Draws held (Pure.pure a : Parser α) marks := by
  intro s b s' hp
  cases hp
  exact ⟨[], .nothing rfl (List.suffix_refl _), by simpa using h⟩

theorem bind {p : Parser α} {f : α → Parser β} (hp : Draws held p marks)
    (hf : ∀ a, Draws (marks a) (f a) marks') : Draws held (p >>= f) marks' := by
  intro s b s'' h
  obtain ⟨a, s', ha, hb⟩ := bind_eq_ok.mp h
  obtain ⟨drawn, hdrawn, hperm⟩ := hp ha
  obtain ⟨drawn', hdrawn', hperm'⟩ := hf a hb
  refine ⟨drawn ++ drawn', hdrawn.trans hdrawn', hperm'.trans ?_⟩
  rw [← List.append_assoc]
  exact hperm.append_right _

/-- What was held before stays held. -/
theorem after {p : Parser α} (hp : Draws [] p marks) (held : List Mark) :
    Draws held p fun a => held ++ marks a := by
  intro s a s' h
  obtain ⟨drawn, hdrawn, hperm⟩ := hp h
  exact ⟨drawn, hdrawn, hperm.append_left held⟩

/-- A parser that draws no mark. -/
theorem quiet {p : Parser α}
    (hp : ∀ ⦃s a s'⦄, p s = .ok (a, s') → s'.nextId = s.nextId ∧ s'.rest <:+ s.rest) :
    Draws held p fun _ => held := by
  intro s a s' h
  exact ⟨[], .nothing (hp h).1 (hp h).2, by simp⟩

theorem ite {c : Prop} [Decidable c] {p q : Parser α} (hp : c → Draws held p marks)
    (hq : ¬ c → Draws held q marks) : Draws held (if c then p else q) marks := by
  by_cases hc : c
  · rw [if_pos hc]; exact hp hc
  · rw [if_neg hc]; exact hq hc

theorem withHelp {help : String} {p : Parser α} (hp : Draws held p marks) :
    Draws held (Parser.withHelp help p) marks := by
  intro s a s' h
  rw [withHelp_eq] at h
  cases hr : p s with
  | error e => rw [hr] at h; cases h
  | ok r => rw [hr] at h; cases h; exact hp hr

/-- A token that was read before needs no mark. -/
theorem behind {p : Parser α} (hp : Draws held p marks) {s : State} {t : Token} {rest : List Token} {a : α}
    {s' : State} (hrest : rest <:+ s.rest) (h : p (s.advance t rest) = .ok (a, s')) :
    ∃ drawn, Drawn s s' drawn ∧ (marks a).Perm (held ++ drawn) := by
  obtain ⟨drawn, hdrawn, hperm⟩ := hp h
  have hread : Drawn s (s.advance t rest) [] := .nothing rfl hrest
  exact ⟨drawn, hread.trans hdrawn, hperm⟩

/-! ## Single tokens -/

theorem peek : Draws held Parser.peek fun _ => held := by
  refine quiet fun s a s' h => ?_
  cases h
  exact ⟨rfl, List.suffix_refl _⟩

theorem accept (kind : TokenKind) : Draws held (Parser.accept kind) fun _ => held := by
  refine quiet fun s a s' h => ?_
  rw [accept_eq] at h
  split at h
  · rename_i hrest
    split at h
    · cases h
      exact ⟨rfl, hrest ▸ List.suffix_cons _ _⟩
    · cases h
      exact ⟨rfl, List.suffix_refl _⟩
  · cases h
    exact ⟨rfl, List.suffix_refl _⟩

/-- The token that was expected may be where a declaration starts. -/
theorem expect_start (kind : TokenKind) (expected : String) :
    Draws held (Parser.expect kind expected) fun span => held ++ [.start span.start] := by
  intro s a s' h
  rw [expect_eq] at h
  split at h
  · rename_i t rest hrest
    split at h
    · cases h
      exact ⟨_, ⟨⟨0, rfl, rfl⟩, [t], hrest, .refl _⟩, .refl _⟩
    · cases h
  · cases h

theorem identifier_start (expected : String) :
    Draws held (Parser.identifier expected) fun x => held ++ [.start x.2.start] := by
  intro s a s' h
  rw [identifier_eq] at h
  split at h
  · rename_i name span rest hrest
    cases h
    exact ⟨_, ⟨⟨0, rfl, rfl⟩, [⟨.identifier name, span⟩], hrest, .refl _⟩, .refl _⟩
  · cases h

/-- A token that may be where a declaration starts need not be one. -/
theorem unmarked {p : Parser α} {start : α → Nat} (hp : Draws [] p fun a => [.start (start a)]) :
    Draws held p fun _ => held := by
  refine quiet fun s a s' h => ?_
  obtain ⟨drawn, ⟨⟨n, hn, hnumbers⟩, read, hread, _⟩, hperm⟩ := hp h
  obtain rfl := List.singleton_perm.mp hperm
  obtain rfl : n = 0 := List.range'_eq_nil_iff.mp hnumbers.symm
  exact ⟨hn, read, hread.symm⟩

theorem expect (kind : TokenKind) (expected : String) :
    Draws held (Parser.expect kind expected) fun _ => held :=
  unmarked (expect_start _ _)

theorem expectSymbol (sign : Symbol) (expected : String) :
    Draws held (Parser.expectSymbol sign expected) fun _ => held :=
  expect _ _

theorem expectKeyword (word : Keyword) (expected : String) :
    Draws held (Parser.expectKeyword word expected) fun _ => held :=
  expect _ _

theorem identifier (expected : String) : Draws held (Parser.identifier expected) fun _ => held :=
  unmarked (identifier_start _)

theorem typeName (expected : String) : Draws held (Parser.typeName expected) fun _ => held := by
  refine quiet fun s a s' h => ?_
  rw [typeName_eq] at h
  split at h
  · rename_i hrest
    cases h
    exact ⟨rfl, hrest ▸ List.suffix_cons _ _⟩
  · cases h
  · cases h

theorem freshId : Draws held Parser.freshId fun id => held ++ [.number id] := by
  intro s a s' h
  cases h
  exact ⟨_, ⟨⟨1, rfl, rfl⟩, [], rfl, .refl _⟩, .refl _⟩

theorem spanFrom (start : Nat) : Draws held (Parser.spanFrom start) fun _ => held := by
  refine quiet fun s a s' h => ?_
  cases h
  exact ⟨rfl, List.suffix_refl _⟩

/-- What is built last has the start that it was given. -/
theorem spanFrom_bind {start : Nat} {f : Span → Parser β}
    (hf : ∀ span, span.start = start → Draws held (f span) marks') :
    Draws held (Parser.spanFrom start >>= f) marks' :=
  fun s _ _ h => hf ⟨start, max s.lastStop start⟩ rfl h

theorem operator? (ops : List BinaryOp) : Draws held (Parser.operator? ops) fun _ => held := by
  refine quiet fun s a s' h => ?_
  rw [operator?_eq] at h
  split at h
  · cases h
    exact ⟨rfl, List.suffix_refl _⟩
  · rename_i hrest
    split at h
    · cases h
      exact ⟨rfl, hrest ▸ List.suffix_cons _ _⟩
    · cases h
      exact ⟨rfl, List.suffix_refl _⟩

/-! ## Repetition -/

variable {item : Parser α}

theorem optionalAfter (kind : TokenKind) (hitem : Draws [] item marks) :
    Draws held (Parser.optionalAfter kind item) fun o => held ++ o.elim [] marks := by
  refine (accept kind).bind fun found => .ite (fun _ => ?_) fun _ => pure (by simp)
  exact (hitem.after held).bind fun a => pure (.refl _)

theorem sepBy (hitem : Draws [] item marks) (sep : Symbol) :
    Draws [] (Parser.sepBy item sep) (·.flatMap marks) := by
  have hN : ∀ fuel, Draws [] (Parser.sepByN item sep fuel) (·.flatMap marks) := by
    intro fuel
    induction fuel with
    | zero => exact hitem.bind fun a => pure (by simp)
    | succ fuel ih =>
        refine hitem.bind fun a => (accept _).bind fun found => .ite (fun _ => ?_) fun _ => pure (by simp)
        exact (ih.after _).bind fun as => pure (by simp)
  exact fun _ _ _ h => hN _ h

theorem sepByBefore (hitem : Draws [] item marks) (sep close : Symbol) :
    Draws [] (Parser.sepByBefore item sep close) (·.flatMap marks) :=
  peek.bind fun _ => .ite (fun _ => pure (.refl _)) fun _ => sepBy hitem sep

theorem someUntil (hitem : Draws [] item marks) (close : TokenKind) :
    Draws [] (Parser.someUntil item close) (·.flatMap marks) := by
  have hN : ∀ fuel, Draws [] (Parser.someUntilN item close fuel) (·.flatMap marks) := by
    intro fuel
    induction fuel with
    | zero => exact hitem.bind fun a => pure (by simp)
    | succ fuel ih =>
        refine hitem.bind fun a => (accept _).bind fun found => .ite (fun _ => pure (by simp)) fun _ => ?_
        exact (ih.after _).bind fun as => pure (by simp)
  exact fun _ _ _ h => hN _ h

theorem manyBefore (hitem : Draws [] item marks) (close : TokenKind) :
    Draws [] (Parser.manyBefore item close) (·.flatMap marks) := by
  have hN : ∀ fuel, Draws [] (Parser.manyBeforeN item close fuel) (·.flatMap marks) := by
    intro fuel
    induction fuel with
    | zero => exact pure (.refl _)
    | succ fuel ih =>
        refine peek.bind fun next => ?_
        cases next with
        | none => exact pure (.refl _)
        | some kind =>
            refine .ite (fun _ => pure (.refl _)) fun _ => hitem.bind fun a => ?_
            exact (ih.after _).bind fun as => pure (by simp)
  exact fun _ _ _ h => hN _ h

end Draws

/-! ## Expressions -/

section Parts

variable {held : List Mark} {e : Parser Expr} (he : Draws [] e Expr.marks)
include he

theorem arguments_draws : Draws [] (arguments e) (·.flatMap Expr.marks) := by
  refine (Draws.expectSymbol _ _).bind fun _ => (Draws.sepByBefore he _ _).bind fun args => ?_
  exact (Draws.expectSymbol _ _).bind fun _ => .pure (.refl _)

theorem binding_draws : Draws [] (binding e) fun b => b.1.marks ++ b.2.elim [] Expr.marks := by
  refine (Draws.identifier_start _).bind fun x => (Draws.expectSymbol _ _).bind fun _ => ?_
  refine (Draws.typeName _).bind fun ty => (Draws.optionalAfter _ he).bind fun init => ?_
  refine Draws.freshId.bind fun id => Draws.spanFrom_bind fun span hspan => .pure ?_
  rw [Binder.marks, hspan]
  exact (List.perm_append_singleton (Mark.number id) _).symm

theorem arm_draws : Draws [] (arm e) fun a => a.1.marks ++ a.2.marks := by
  refine (Draws.identifier_start _).bind fun x => (Draws.expectSymbol _ _).bind fun _ => ?_
  refine (Draws.typeName _).bind fun ty => (Draws.expectSymbol _ _).bind fun _ => ?_
  refine (he.after _).bind fun body => (Draws.expectSymbol _ _).bind fun _ => ?_
  refine Draws.freshId.bind fun id => Draws.spanFrom_bind fun span hspan => .pure ?_
  rw [Binder.marks, hspan]
  exact (List.perm_append_singleton (Mark.number id) _).symm

theorem statement_draws : Draws [] (statement e) Expr.marks :=
  he.bind fun _ => (Draws.expectSymbol _ _).bind fun _ => .pure (.refl _)

theorem conditional_draws (start : Nat) : Draws [] (conditional e start) Expr.marks := by
  refine he.bind fun test => (Draws.expectKeyword _ _).bind fun _ => ?_
  refine (he.after _).bind fun a => (Draws.expectKeyword _ _).bind fun _ => ?_
  refine (he.after _).bind fun b => (Draws.expectKeyword _ _).bind fun _ => ?_
  exact (Draws.spanFrom _).bind fun _ => .pure (by simp [Expr.marks, Expr.binders_cond])

theorem whileLoop_draws (start : Nat) : Draws [] (whileLoop e start) Expr.marks := by
  refine he.bind fun test => (Draws.expectKeyword _ _).bind fun _ => ?_
  refine (he.after _).bind fun body => (Draws.expectKeyword _ _).bind fun _ => ?_
  exact (Draws.spanFrom _).bind fun _ => .pure (by simp [Expr.marks, Expr.binders_loop])

theorem letExpr_draws (start : Nat) : Draws [] (letExpr e start) Expr.marks := by
  refine (Draws.sepBy (binding_draws he) _).bind fun bindings => ?_
  refine (Draws.expectKeyword _ _).bind fun _ => (he.after _).bind fun body => ?_
  exact (Draws.spanFrom _).bind fun _ => .pure Expr.marks_letIn

theorem caseExpr_draws (start : Nat) : Draws [] (caseExpr e start) Expr.marks := by
  refine he.bind fun scrutinee => (Draws.expectKeyword _ _).bind fun _ => ?_
  refine ((Draws.someUntil (arm_draws he) _).after _).bind fun arms => ?_
  exact (Draws.spanFrom _).bind fun _ => .pure Expr.marks_caseOf

omit he in
theorem newExpr_draws (start : Nat) : Draws [] (newExpr start) Expr.marks :=
  (Draws.typeName _).bind fun _ => (Draws.spanFrom _).bind fun _ => .pure (.refl _)

theorem parenthesized_draws (start : Nat) : Draws [] (parenthesized e start) Expr.marks := by
  refine he.bind fun inner => (Draws.expectSymbol _ _).bind fun _ => ?_
  exact (Draws.spanFrom _).bind fun _ => .pure (by simp [Expr.marks, Expr.binders_paren])

theorem blockExpr_draws (start : Nat) : Draws [] (blockExpr e start) Expr.marks := by
  refine (Draws.someUntil (statement_draws he) _).bind fun body => ?_
  exact (Draws.spanFrom _).bind fun _ => .pure (by rw [Expr.marks_block])

theorem nameOrCall_draws (name : String) (span : Span) :
    Draws [] (nameOrCall e name span) Expr.marks := by
  refine Draws.peek.bind fun _ => .ite (fun _ => ?_) fun _ => .pure (.refl _)
  refine (arguments_draws he).bind fun args => (Draws.spanFrom _).bind fun _ => .pure ?_
  rw [Expr.marks_dispatch]
  exact .refl _

theorem atom_draws : Draws [] (atom e) Expr.marks := by
  intro s a s' h
  rw [atom_eq] at h
  split at h
  · cases h
  rename_i t rest hrest
  have hsuffix : rest <:+ s.rest := hrest ▸ List.suffix_cons t rest
  have hdone : Drawn s (s.advance t rest) [] := .nothing rfl hsuffix
  dsimp only at h
  split at h
  · exact (conditional_draws he _).behind hsuffix h
  · exact (whileLoop_draws he _).behind hsuffix h
  · exact (letExpr_draws he _).behind hsuffix h
  · exact (caseExpr_draws he _).behind hsuffix h
  · exact (newExpr_draws _).behind hsuffix h
  · cases h; exact ⟨[], hdone, .refl _⟩
  · cases h; exact ⟨[], hdone, .refl _⟩
  · exact (parenthesized_draws he _).behind hsuffix h
  · exact (blockExpr_draws he _).behind hsuffix h
  · exact (nameOrCall_draws he _ _).behind hsuffix h
  · cases h; exact ⟨[], hdone, .refl _⟩
  · cases h; exact ⟨[], hdone, .refl _⟩
  · cases h

theorem callsN_draws (fuel : Nat) (receiver : Expr) :
    Draws receiver.marks (callsN e fuel receiver) Expr.marks := by
  induction fuel generalizing receiver with
  | zero => exact .pure (.refl _)
  | succ fuel ih =>
      refine (Draws.accept _).bind fun _ => .ite (fun _ => ?_) fun _ => ?_
      · refine (Draws.identifier _).bind fun x => ((arguments_draws he).after _).bind fun args => ?_
        refine (Draws.spanFrom _).bind fun span => ?_
        have hcall : receiver.marks ++ args.flatMap Expr.marks =
            (Expr.dispatch span (some receiver) x.1 args).marks := by
          rw [Expr.marks_dispatch, Option.elim_some]
        rw [hcall]
        exact ih _
      refine (Draws.accept _).bind fun _ => .ite (fun _ => ?_) fun _ => .pure (.refl _)
      refine (Draws.typeName _).bind fun ty => (Draws.expectSymbol _ _).bind fun _ => ?_
      refine (Draws.identifier _).bind fun x => ((arguments_draws he).after _).bind fun args => ?_
      refine (Draws.spanFrom _).bind fun span => ?_
      rw [← Expr.marks_staticDispatch]
      exact ih _

theorem postfixed_draws : Draws [] (postfixed e) Expr.marks :=
  (atom_draws he).bind fun x _ _ _ h => callsN_draws he _ x h

theorem unary_draws (kind : TokenKind) (op : UnaryOp) : Draws [] (unary kind op e) Expr.marks := by
  intro s a s' h
  rw [unary_eq] at h
  generalize s.rest.length = fuel at h
  induction fuel generalizing s a s' with
  | zero => exact he h
  | succ fuel ih =>
      rw [unaryN_succ_eq] at h
      split at h
      · exact he h
      rename_i t rest hrest
      split at h
      · cases hr : unaryN kind op e fuel (s.advance t rest) with
        | error err => rw [hr] at h; cases h
        | ok r =>
            rw [hr] at h
            cases h
            obtain ⟨drawn, hdrawn, hperm⟩ := ih hr
            have hread : Drawn s (s.advance t rest) [] := .nothing rfl (hrest ▸ List.suffix_cons t rest)
            refine ⟨drawn, hread.trans hdrawn, ?_⟩
            rw [Expr.marks, Expr.binders_unary]
            exact hperm
      · exact he h

theorem chain_draws (ops : List BinaryOp) : Draws [] (chain ops e) Expr.marks := by
  have hbinary : ∀ op x y, (mkBinary op x y).marks = x.marks ++ y.marks := by
    simp [mkBinary, Expr.marks, Expr.binders_binary]
  have hN : ∀ fuel x, Draws x.marks (chainN ops e fuel x) Expr.marks := by
    intro fuel
    induction fuel with
    | zero => exact fun _ => .pure (.refl _)
    | succ fuel ih =>
        intro x
        refine (Draws.operator? ops).bind fun op => ?_
        cases op with
        | none => exact .pure (.refl _)
        | some op => exact (he.after _).bind fun y => hbinary op x y ▸ ih _
  exact he.bind fun x _ _ _ h => hN _ x h

theorem sum_draws : Draws [] (sum e) Expr.marks :=
  chain_draws (chain_draws (unary_draws (unary_draws (postfixed_draws he) _ _) _ _) _) _

theorem comparison_draws : Draws [] (comparison e) Expr.marks := by
  refine (sum_draws he).bind fun x => (Draws.operator? _).bind fun op => ?_
  cases op with
  | none => exact .pure (.refl _)
  | some op =>
      refine ((sum_draws he).after _).bind fun y => .pure ?_
      simp [mkBinary, Expr.marks, Expr.binders_binary]

theorem assignment_draws : Draws [] (assignment e) Expr.marks := by
  intro s a s' h
  rw [assignment_eq] at h
  split at h
  · rename_i name place sign rest hrest
    have hvalue : Draws [] (do
        let value ← e
        return .assign (← spanFrom place.start) name value) Expr.marks :=
      he.bind fun value => (Draws.spanFrom _).bind fun _ =>
        .pure (by simp [Expr.marks, Expr.binders_assign])
    exact hvalue.behind (hrest ▸ (List.suffix_cons _ _).trans (List.suffix_cons _ _)) h
  · exact unary_draws (comparison_draws he) _ _ h

end Parts

theorem expr_draws : Draws [] expr Expr.marks := by
  have hN : ∀ fuel, Draws [] (exprN fuel) Expr.marks := by
    intro fuel
    induction fuel with
    | zero => exact fun _ _ _ h => by cases h
    | succ fuel ih => exact assignment_draws ih
  exact fun _ _ _ h => hN _ h

/-! ## Programs -/

theorem param_draws : Draws [] param fun p => [.start p.span.start] := by
  refine (Draws.identifier_start _).bind fun x => (Draws.expectSymbol _ _).bind fun _ => ?_
  refine (Draws.typeName _).bind fun ty => Draws.spanFrom_bind fun span hspan => .pure ?_
  rw [hspan]
  exact .refl _

theorem methodDecl_draws (name : String) (start : Nat) :
    Draws [.start start] (methodDecl name start) fun m => (Feature.method m).marks := by
  refine Draws.freshId.bind fun id => ((Draws.sepByBefore param_draws _ _).after _).bind fun params => ?_
  refine (Draws.expectSymbol _ _).bind fun _ => (Draws.expectSymbol _ _).bind fun _ => ?_
  refine (Draws.typeName _).bind fun ret => (Draws.expectSymbol _ _).bind fun _ => ?_
  refine (expr_draws.after _).bind fun body => (Draws.expectSymbol _ _).bind fun _ => ?_
  refine Draws.spanFrom_bind fun span hspan => .pure ?_
  rw [Feature.marks, hspan, ← List.map_eq_flatMap]
  exact (List.Perm.swap ..).trans (by simp)

theorem attrDecl_draws (name : String) (start : Nat) :
    Draws [.start start] (attrDecl name start) fun a => (Feature.attr a).marks := by
  refine (Draws.expectSymbol _ _).bind fun _ => (Draws.typeName _).bind fun ty => ?_
  refine (Draws.optionalAfter _ expr_draws).bind fun init => ?_
  refine Draws.spanFrom_bind fun span hspan => .pure ?_
  rw [Feature.marks, hspan]
  exact .refl _

theorem member_draws : Draws [] member Feature.marks := by
  have hfeature : Draws [] feature Feature.marks := by
    refine (Draws.identifier_start _).bind fun x => (Draws.accept _).bind fun _ => ?_
    refine .ite (fun _ => ?_) fun _ => ?_
    · exact (methodDecl_draws _ _).bind fun m => .pure (.refl _)
    · exact (attrDecl_draws _ _).bind fun a => .pure (.refl _)
  exact hfeature.bind fun f => (Draws.withHelp (Draws.expectSymbol _ _)).bind fun _ => .pure (.refl _)

theorem classDecl_draws : Draws [] classDecl ClassDecl.marks := by
  refine (Draws.expect_start _ _).bind fun place => Draws.freshId.bind fun id => ?_
  refine (Draws.typeName _).bind fun name => ?_
  refine (Draws.optionalAfter _ (Draws.typeName _)).bind fun parent => ?_
  refine (Draws.expectSymbol _ _).bind fun _ => ?_
  refine ((Draws.manyBefore member_draws _).after _).bind fun features => ?_
  refine (Draws.expectSymbol _ _).bind fun _ => ?_
  refine (Draws.withHelp (Draws.expectSymbol _ _)).bind fun _ => ?_
  have hparent : (parent.elim [] fun _ => ([] : List Mark)) = [] := by cases parent <;> rfl
  refine Draws.spanFrom_bind fun span hspan => .pure ?_
  rw [ClassDecl.marks, hspan, hparent]
  exact (List.Perm.swap ..).trans (by simp)

/-- The marks of the classes are drawn one class after the other. -/
theorem ClassRun.draws {n : Nat} {s : State} {cs : List ClassDecl} (h : ClassRun n s cs) :
    ∃ s' drawn, Drawn s s' drawn ∧ (cs.flatMap ClassDecl.marks).Perm drawn := by
  induction h with
  | @done _ s _ => exact ⟨s, [], .nothing rfl (List.suffix_refl _), .refl _⟩
  | next _ hc _ ih =>
      obtain ⟨drawn, hdrawn, hmarks⟩ := classDecl_draws hc
      obtain ⟨s'', drawn', hdrawn', hclasses⟩ := ih
      exact ⟨s'', drawn ++ drawn', hdrawn.trans hdrawn', hmarks.append hclasses⟩

end Parser

/-- The marks of a program that was read from a text were drawn from its tokens. -/
theorem parse_draws {source : String} {p : Program} (h : parse source = .ok p) :
    ∃ input s drawn, lex source = .ok input ∧ Parser.Drawn ⟨input.tokens, 0, 0⟩ s drawn ∧
      (p.classes.flatMap ClassDecl.marks).Perm drawn := by
  unfold parse at h
  cases hl : lex source with
  | error errors => rw [hl] at h; cases h
  | ok input =>
      rw [hl] at h
      obtain ⟨s, drawn, hdrawn, hperm⟩ := (Parser.program_eq_ok.mp h).1.draws
      exact ⟨input, s, drawn, rfl, hdrawn, hperm⟩

/-- The scopes of a program that was read from a text are numbered from zero on, each with a number of its
own. -/
theorem parse_scopeIds {source : String} {p : Program} (h : parse source = .ok p) :
    p.scopeIds.Perm (List.range p.scopeIds.length) := by
  obtain ⟨input, s, drawn, -, ⟨⟨n, -, hnumbers⟩, -⟩, hperm⟩ := parse_draws h
  have hids : p.scopeIds.Perm (List.range' 0 n) := by
    rw [← hnumbers, Program.scopeIds, funext fun c => (ClassDecl.filterMap_marks c).1.symm,
      ← List.filterMap_flatMap]
    exact hperm.filterMap _
  have hlength : p.scopeIds.length = n := hids.length_eq.trans List.length_range'
  rw [hlength, List.range_eq_range']
  exact hids

/-- No two declarations of a program that was read from a text start at the same place. -/
theorem parse_starts {source : String} {p : Program} (h : parse source = .ok p) : p.starts.Nodup := by
  obtain ⟨input, s, drawn, hl, ⟨-, read, hread, hstarts⟩, hperm⟩ := parse_draws h
  have hperm : p.starts.Perm (drawn.filterMap Mark.start?) := by
    rw [Program.starts, funext fun c => (ClassDecl.filterMap_marks c).2.symm, ← List.filterMap_flatMap]
    exact hperm.filterMap _
  refine hperm.nodup_iff.mpr ((lex_laid hl).starts_nodup.sublist (hstarts.trans ?_))
  have htokens : input.tokens = read ++ s.rest := hread
  have hprefix : read.Sublist input.tokens := htokens ▸ List.sublist_append_left read s.rest
  exact hprefix.map _

end CoolTyping
