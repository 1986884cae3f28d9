import CoolTyping.Proofs.Constructs
import CoolTyping.Proofs.Numbering
import CoolTyping.Proofs.RoundTrip

/-!
# Places in a program that was read

Every construct of a program that was read from a text has the place of the tokens that it is written with,
from the start of the first to the end of the last. The parser finds a place in several ways: it takes that
of a token, it goes from a start that it remembered to the end of the token read last, it joins the places of
two operands, or it takes the end of an operand. `Fills` follows the number of tokens read, so that all of
these come to the same.
-/

namespace CoolTyping

namespace Parser

open Component

variable {α β : Type} {ts : List Token} {k : Nat}

/-- The first `k` tokens have been read. -/
structure State.Behind (ts : List Token) (k : Nat) (s : State) : Prop where
  le : k ≤ ts.length
  rest : s.rest = ts.drop k
  lastStop : s.lastStop = stopAt ts k

/-- Where `p` succeeds behind the first `k` tokens, it gives a result that `R` allows behind as many tokens as
it has come to. -/
def Fills (ts : List Token) (k : Nat) (p : Parser α) (R : Nat → α → Prop) : Prop :=
  ∀ ⦃s⦄, s.Behind ts k → ∀ ⦃a s'⦄, p s = .ok (a, s') → ∃ m, s'.Behind ts m ∧ R m a

theorem State.Behind.length_rest {s : State} (h : s.Behind ts k) : s.rest.length = ts.length - k := by
  rw [h.rest, List.length_drop]

theorem State.Behind.cons {s : State} {t : Token} {rest : List Token} (h : s.Behind ts k)
    (hrest : s.rest = t :: rest) : Occupies ts (.word t.kind) k (k + 1) ∧
      t.span = ⟨startAt ts k, stopAt ts (k + 1)⟩ ∧ (s.advance t rest).Behind ts (k + 1) := by
  have ht : ts[k]? = some t := by rw [← List.head?_drop, ← h.rest, hrest, List.head?_cons]
  refine ⟨.word ht, ?_, (List.getElem?_eq_some_iff.mp ht).1, ?_, ?_⟩
  · simp [startAt, stopAt, ht]
  · rw [State.advance, ← List.tail_drop, ← h.rest, hrest, List.tail_cons]
  · simp [State.advance, stopAt, ht]

namespace Fills

variable {R R' : Nat → α → Prop} {S : Nat → β → Prop} {p : Parser α}

theorem mono (hp : Fills ts k p R) (h : ∀ m a, R m a → R' m a) : Fills ts k p R' := by
  intro s hs a s' hr
  obtain ⟨m, hs', hR⟩ := hp hs hr
  exact ⟨m, hs', h m a hR⟩

theorem ofFuel {p : Nat → Parser α} (h : ∀ n, Fills ts k (p n) R) : Fills ts k (fun s => p s.rest.length s) R :=
  fun _ hs _ _ hr => h _ hs hr

theorem pure {a : α} (h : R k a) : Fills ts k (Pure.pure a) R := by
  intro s hs b s' hp
  cases hp
  exact ⟨k, hs, h⟩

theorem bind {f : α → Parser β} (hp : Fills ts k p R) (hf : ∀ m a, R m a → Fills ts m (f a) S) :
    Fills ts k (p >>= f) S := by
  intro s hs b s'' h
  obtain ⟨a, s', ha, hb⟩ := bind_eq_ok.mp h
  obtain ⟨m, hs', hR⟩ := hp hs ha
  exact hf m a hR hs' hb

theorem ite {c : Prop} [Decidable c] {q : Parser α} (hp : c → Fills ts k p R) (hq : ¬ c → Fills ts k q R) :
    Fills ts k (if c then p else q) R := by
  by_cases hc : c
  · rw [if_pos hc]; exact hp hc
  · rw [if_neg hc]; exact hq hc

theorem withHelp {help : String} (hp : Fills ts k p R) : Fills ts k (Parser.withHelp help p) R := by
  intro s hs a s' h
  rw [withHelp_eq] at h
  cases hr : p s with
  | error e => rw [hr] at h; cases h
  | ok r => rw [hr] at h; cases h; exact hp hs hr

/-! ## Single tokens -/

theorem peek : Fills ts k Parser.peek fun m _ => m = k := by
  intro s hs a s' h
  cases h
  exact ⟨k, hs, rfl⟩

theorem freshId : Fills ts k Parser.freshId fun m _ => m = k := by
  intro s hs a s' h
  cases h
  exact ⟨k, ⟨hs.le, hs.rest, hs.lastStop⟩, rfl⟩

theorem accept (kind : TokenKind) : Fills ts k (Parser.accept kind) fun m b =>
    (b = true → Occupies ts (.word kind) k m) ∧ (¬ b = true → m = k) := by
  intro s hs a s' h
  rw [accept_eq] at h
  split at h
  · rename_i t rest hrest
    obtain ⟨hword, -, hnext⟩ := hs.cons hrest
    split at h
    · rename_i hkind
      cases h
      exact ⟨k + 1, hnext, fun _ => hkind ▸ hword, fun hb => absurd rfl hb⟩
    · cases h
      exact ⟨k, hs, nofun, fun _ => rfl⟩
  · cases h
    exact ⟨k, hs, nofun, fun _ => rfl⟩

theorem expect (kind : TokenKind) (expected : String) : Fills ts k (Parser.expect kind expected) fun m span =>
    Occupies ts (.word kind) k m ∧ span.start = startAt ts k := by
  intro s hs a s' h
  rw [expect_eq] at h
  split at h
  · rename_i t rest hrest
    obtain ⟨hword, hspan, hnext⟩ := hs.cons hrest
    split at h
    · rename_i hkind
      cases h
      exact ⟨k + 1, hnext, hkind ▸ hword, by rw [hspan]⟩
    · cases h
  · cases h

theorem expectSymbol (s : Symbol) (expected : String) : Fills ts k (Parser.expectSymbol s expected) fun m _ =>
    Occupies ts (sign s) k m :=
  (expect _ _).mono fun _ _ h => h.1

theorem expectKeyword (w : Keyword) (expected : String) :
    Fills ts k (Parser.expectKeyword w expected) fun m span =>
      Occupies ts (keyword w) k m ∧ span.start = startAt ts k :=
  expect _ _

theorem identifier (expected : String) : Fills ts k (Parser.identifier expected) fun m a =>
    Occupies ts (name a.1) k m ∧ a.2.start = startAt ts k := by
  intro s hs a s' h
  rw [identifier_eq] at h
  split at h
  · rename_i x span rest hrest
    obtain ⟨hword, hspan, hnext⟩ := hs.cons hrest
    cases h
    exact ⟨k + 1, hnext, hword, congrArg Span.start hspan⟩
  · cases h

theorem typeName (expected : String) : Fills ts k (Parser.typeName expected) fun m t =>
    Occupies ts (type t) k m := by
  intro s hs a s' h
  rw [typeName_eq] at h
  split at h
  · rename_i x span rest hrest
    obtain ⟨hword, -, hnext⟩ := hs.cons hrest
    cases h
    exact ⟨k + 1, hnext, hword⟩
  · cases h
  · cases h

theorem operator? (ops : List BinaryOp) : Fills ts k (Parser.operator? ops) fun m o =>
    (o = none → m = k) ∧ ∀ op, o = some op → Occupies ts (sign op.symbol) k m := by
  intro s hs a s' h
  rw [operator?_eq] at h
  split at h
  · cases h
    exact ⟨k, hs, fun _ => rfl, nofun⟩
  · rename_i t rest hrest
    obtain ⟨hword, -, hnext⟩ := hs.cons hrest
    split at h
    · rename_i op hop
      have hkind : t.kind = .symbol op.symbol := by simpa using List.find?_some hop
      rw [hkind] at hword
      cases h
      refine ⟨k + 1, hnext, nofun, ?_⟩
      rintro _ ⟨⟩
      exact hword
    · cases h
      exact ⟨k, hs, fun _ => rfl, nofun⟩

theorem spanFrom (hts : Laid ts) {i : Nat} (hi : i < k) : Fills ts k (Parser.spanFrom (startAt ts i))
    fun m span => m = k ∧ span = ⟨startAt ts i, stopAt ts k⟩ := by
  intro s hs a s' h
  cases h
  refine ⟨k, hs, rfl, ?_⟩
  rw [hs.lastStop, Nat.max_eq_left (hts.start_le_stop hi hs.le)]

/-- A construct whose parts have been read gets its place. -/
theorem placed (hts : Laid ts) {i : Nat} {f : Span → α} {g : α → Construct}
    (hparts : ∀ span, OccupyAll ts (g (f span)).parts i k) (hspan : ∀ span, (g (f span)).span = span) :
    Fills ts k (do return f (← Parser.spanFrom (startAt ts i))) fun m a => Occupies ts (.node (g a)) i m := by
  have hi : i < k := ((hparts default).bounds.resolve_left fun h => Construct.parts_ne_nil _ h.1).1
  refine (spanFrom hts hi).bind ?_
  rintro _ _ ⟨rfl, rfl⟩
  exact pure (.node (hparts _) (hspan _))

/-! ## Repetition -/

section Repetition

variable {item : Parser α} {x : α → Component} {g : α → List Component}

theorem optionalAfter (kind : TokenKind) (h : ∀ k, Fills ts k item fun m a => Occupies ts (x a) k m) :
    Fills ts k (Parser.optionalAfter kind item) fun m o =>
      OccupyAll ts (o.elim [] fun a => [.word kind, x a]) k m := by
  refine (accept kind).bind fun m b hb => ite (fun hc => ?_) fun hc => ?_
  · exact (h m).bind fun m' a ha => pure (.cons (hb.1 hc) (.single ha))
  · obtain rfl := hb.2 hc
    exact pure .nil

theorem sepBy (h : ∀ k, Fills ts k item fun m a => Occupies ts (x a) k m) :
    Fills ts k (Parser.sepBy item .comma) fun m as => as ≠ [] ∧ OccupyAll ts (listed (as.map x)) k m := by
  refine ofFuel fun n => ?_
  induction n generalizing k with
  | zero => exact (h k).bind fun m a ha => pure ⟨nofun, .single ha⟩
  | succ n ih =>
      refine (h k).bind fun m a ha => (accept _).bind fun m' b hb => ite (fun hc => ?_) fun hc => ?_
      · refine ih.bind fun m'' as has => pure ⟨nofun, ?_⟩
        obtain ⟨a', as, rfl⟩ := List.exists_cons_of_ne_nil has.1
        exact .cons ha (.cons (hb.1 hc) has.2)
      · obtain rfl := hb.2 hc
        exact pure ⟨nofun, .single ha⟩

theorem sepByBefore (close : Symbol) (h : ∀ k, Fills ts k item fun m a => Occupies ts (x a) k m) :
    Fills ts k (Parser.sepByBefore item .comma close) fun m as => OccupyAll ts (listed (as.map x)) k m := by
  refine peek.bind ?_
  rintro _ kind rfl
  exact ite (fun _ => pure .nil) fun _ => (sepBy h).mono fun _ _ has => has.2

/-- The fuel lasts, since every item takes a token. -/
theorem someUntil (close : TokenKind) (h : ∀ k, Fills ts k item fun m a => OccupyAll ts (g a) k m)
    (hne : ∀ a, g a ≠ []) : Fills ts k (Parser.someUntil item close) fun m as =>
      OccupyAll ts (as.flatMap g ++ [.word close]) k m := by
  have hN : ∀ n k, ts.length ≤ k + n → Fills ts k (someUntilN item close n) fun m as =>
      OccupyAll ts (as.flatMap g ++ [.word close]) k m := by
    intro n
    induction n with
    | zero =>
        refine fun k hk => (h k).bind fun m a ha => ?_
        have := ha.bounds.resolve_left fun hnil => hne a hnil.1
        omega
    | succ n ih =>
        refine fun k hk => (h k).bind fun m a ha => (accept close).bind fun m' b hb =>
          ite (fun hc => pure ?_) fun hc => ?_
        · rw [List.flatMap_singleton]
          exact ha.append (.single (hb.1 hc))
        · obtain rfl := hb.2 hc
          have := ha.bounds.resolve_left fun hnil => hne a hnil.1
          refine (ih _ (by omega)).bind fun m as has => pure ?_
          rw [List.flatMap_cons, List.append_assoc]
          exact ha.append has
  intro s hs a s' hp
  exact hN _ k (by rw [hs.length_rest]; omega) hs hp

theorem manyBefore (close : TokenKind) (h : ∀ k, Fills ts k item fun m a => OccupyAll ts (g a) k m) :
    Fills ts k (Parser.manyBefore item close) fun m as => OccupyAll ts (as.flatMap g) k m := by
  refine ofFuel fun n => ?_
  induction n generalizing k with
  | zero => exact pure .nil
  | succ n ih =>
      refine peek.bind ?_
      rintro _ kind rfl
      cases kind with
      | none => exact pure .nil
      | some kind =>
          refine ite (fun _ => pure .nil) fun _ => (h _).bind fun m a ha => ?_
          exact ih.bind fun m' as has => pure (ha.append has)

end Repetition

end Fills

/-! ## Expressions -/

section Expressions

variable (hts : Laid ts) {e : Parser Expr} (he : ∀ k, Fills ts k e fun m x => Occupies ts (.expr x) k m)
include he

theorem arguments_fills : Fills ts k (arguments e) fun m args =>
    OccupyAll ts (Component.arguments args) k m := by
  refine (Fills.expectSymbol _ _).bind fun m₁ _ hopen => ?_
  refine (Fills.sepByBefore _ he).bind fun m₂ args hargs => ?_
  refine (Fills.expectSymbol _ _).bind fun m₃ _ hclose => ?_
  exact .pure (.cons hopen (hargs.append (.single hclose)))

theorem statement_fills : Fills ts k (statement e) fun m x => OccupyAll ts (ended (.expr x)) k m := by
  refine (he k).bind fun m₁ x hx => ?_
  refine (Fills.expectSymbol _ _).bind fun m₂ _ hend => ?_
  exact .pure (.cons hx (.single hend))

include hts

theorem binding_fills : Fills ts k (binding e) fun m b => Occupies ts (.node (.binding b)) k m := by
  refine (Fills.identifier _).bind ?_
  rintro m₁ ⟨x, place⟩ ⟨hname, hstart⟩
  refine (Fills.expectSymbol _ _).bind fun m₂ _ hcolon => ?_
  refine (Fills.typeName _).bind fun m₃ ty hty => ?_
  refine (Fills.optionalAfter _ he).bind fun m₄ init hinit => ?_
  refine Fills.freshId.bind ?_
  rintro _ id rfl
  dsimp only at hstart ⊢
  rw [hstart]
  exact Fills.placed hts (fun _ => .cons hname (.cons hcolon (.cons hty hinit))) fun _ => rfl

theorem arm_fills : Fills ts k (arm e) fun m a => Occupies ts (.node (.arm a)) k m := by
  refine (Fills.identifier _).bind ?_
  rintro m₁ ⟨x, place⟩ ⟨hname, hstart⟩
  refine (Fills.expectSymbol _ _).bind fun m₂ _ hcolon => ?_
  refine (Fills.typeName _).bind fun m₃ ty hty => ?_
  refine (Fills.expectSymbol _ _).bind fun m₄ _ harrow => ?_
  refine (he _).bind fun m₅ body hbody => ?_
  refine (Fills.expectSymbol _ _).bind fun m₆ _ hend => ?_
  refine Fills.freshId.bind ?_
  rintro _ id rfl
  dsimp only at hstart ⊢
  rw [hstart]
  exact Fills.placed hts
    (fun _ => .cons hname (.cons hcolon (.cons hty (.cons harrow (.cons hbody (.single hend)))))) fun _ => rfl

variable {i : Nat}

theorem conditional_fills (h : Occupies ts (keyword .ifKw) i k) :
    Fills ts k (conditional e (startAt ts i)) fun m x => Occupies ts (.expr x) i m := by
  refine (he _).bind fun m₁ test htest => ?_
  refine (Fills.expectKeyword _ _).bind fun m₂ _ hthen => ?_
  refine (he _).bind fun m₃ a ha => ?_
  refine (Fills.expectKeyword _ _).bind fun m₄ _ helse => ?_
  refine (he _).bind fun m₅ b hb => ?_
  refine (Fills.expectKeyword _ _).bind fun m₆ _ hfi => ?_
  exact Fills.placed hts
    (fun _ => .cons h (.cons htest (.cons hthen.1 (.cons ha (.cons helse.1 (.cons hb (.single hfi.1)))))))
    fun _ => rfl

theorem whileLoop_fills (h : Occupies ts (keyword .whileKw) i k) :
    Fills ts k (whileLoop e (startAt ts i)) fun m x => Occupies ts (.expr x) i m := by
  refine (he _).bind fun m₁ test htest => ?_
  refine (Fills.expectKeyword _ _).bind fun m₂ _ hloop => ?_
  refine (he _).bind fun m₃ body hbody => ?_
  refine (Fills.expectKeyword _ _).bind fun m₄ _ hpool => ?_
  exact Fills.placed hts (fun _ => .cons h (.cons htest (.cons hloop.1 (.cons hbody (.single hpool.1)))))
    fun _ => rfl

theorem letExpr_fills (h : Occupies ts (keyword .letKw) i k) :
    Fills ts k (letExpr e (startAt ts i)) fun m x => Occupies ts (.expr x) i m := by
  refine (Fills.sepBy fun _ => binding_fills hts he).bind fun m₁ bindings hbindings => ?_
  refine (Fills.expectKeyword _ _).bind fun m₂ _ hin => ?_
  refine (he _).bind fun m₃ body hbody => ?_
  exact Fills.placed hts (fun _ => .cons h (hbindings.2.append (.cons hin.1 (.single hbody)))) fun _ => rfl

theorem caseExpr_fills (h : Occupies ts (keyword .caseKw) i k) :
    Fills ts k (caseExpr e (startAt ts i)) fun m x => Occupies ts (.expr x) i m := by
  have harm (k : Nat) : Fills ts k (arm e) fun m a => OccupyAll ts [.node (.arm a)] k m :=
    (arm_fills hts he).mono fun _ _ ha => .single ha
  refine (he _).bind fun m₁ scrutinee hscrutinee => ?_
  refine (Fills.expectKeyword _ _).bind fun m₂ _ hof => ?_
  refine (Fills.someUntil _ harm fun _ => nofun).bind fun m₃ arms harms => ?_
  rw [← List.map_eq_flatMap] at harms
  exact Fills.placed hts (fun _ => .cons h (.cons hscrutinee (.cons hof.1 harms))) fun _ => rfl

theorem parenthesized_fills (h : Occupies ts (sign .lparen) i k) :
    Fills ts k (parenthesized e (startAt ts i)) fun m x => Occupies ts (.expr x) i m := by
  refine (he _).bind fun m₁ inner hinner => ?_
  refine (Fills.expectSymbol _ _).bind fun m₂ _ hclose => ?_
  exact Fills.placed hts (fun _ => .cons h (.cons hinner (.single hclose))) fun _ => rfl

theorem blockExpr_fills (h : Occupies ts (sign .lbrace) i k) :
    Fills ts k (blockExpr e (startAt ts i)) fun m x => Occupies ts (.expr x) i m := by
  refine (Fills.someUntil _ (fun _ => statement_fills he) fun _ => nofun).bind fun m₁ body hbody => ?_
  exact Fills.placed hts (fun _ => .cons h hbody) fun _ => rfl

theorem nameOrCall_fills {x : String} (h : Occupies ts (name x) i k) :
    Fills ts k (nameOrCall e x ⟨startAt ts i, stopAt ts k⟩) fun m x => Occupies ts (.expr x) i m := by
  refine Fills.peek.bind ?_
  rintro _ kind rfl
  refine .ite (fun _ => ?_) fun _ => .pure (.node (.single h) rfl)
  refine (arguments_fills he).bind fun m₁ args hargs => ?_
  exact Fills.placed hts (fun _ => .cons h hargs) fun _ => rfl

omit he in
theorem newExpr_fills (h : Occupies ts (keyword .newKw) i k) :
    Fills ts k (newExpr (startAt ts i)) fun m x => Occupies ts (.expr x) i m := by
  refine (Fills.typeName _).bind fun m₁ ty hty => ?_
  exact Fills.placed hts (fun _ => .cons h (.single hty)) fun _ => rfl

theorem atom_fills : Fills ts k (atom e) fun m x => Occupies ts (.expr x) k m := by
  intro s hs a s' h
  rw [atom_eq] at h
  split at h
  · cases h
  · rename_i t rest hrest
    obtain ⟨hword, hspan, hnext⟩ := hs.cons hrest
    have first {kind : TokenKind} (hkind : t.kind = kind) : Occupies ts (.word kind) k (k + 1) := hkind ▸ hword
    dsimp only at h
    rw [hspan] at h
    split at h <;> rename_i hkind
    · exact conditional_fills hts he (first hkind) hnext h
    · exact whileLoop_fills hts he (first hkind) hnext h
    · exact letExpr_fills hts he (first hkind) hnext h
    · exact caseExpr_fills hts he (first hkind) hnext h
    · exact newExpr_fills hts (first hkind) hnext h
    · cases h
      exact ⟨k + 1, hnext, .node (.single (first hkind)) rfl⟩
    · cases h
      exact ⟨k + 1, hnext, .node (.single (first hkind)) rfl⟩
    · exact parenthesized_fills hts he (first hkind) hnext h
    · exact blockExpr_fills hts he (first hkind) hnext h
    · exact nameOrCall_fills hts he (first hkind) hnext h
    · cases h
      exact ⟨k + 1, hnext, .node (.single (first hkind)) rfl⟩
    · cases h
      exact ⟨k + 1, hnext, .node (.single (first hkind)) rfl⟩
    · cases h

/-- A call takes the start of its receiver. -/
theorem calls_fills {x : Expr} (hx : Occupies ts (.expr x) i k) :
    Fills ts k (calls e x) fun m y => Occupies ts (.expr y) i m := by
  refine Fills.ofFuel (p := fun n => callsN e n x) fun n => ?_
  induction n generalizing k x with
  | zero => exact .pure hx
  | succ n ih =>
      have hstart : x.span.start = startAt ts i := congrArg Span.start hx.span_eq
      refine (Fills.accept _).bind fun m₁ b hdot => .ite (fun hc => ?_) fun hc => ?_
      · refine (Fills.identifier _).bind ?_
        rintro m₂ ⟨method, place⟩ ⟨hname, -⟩
        refine (arguments_fills he).bind fun m₃ args hargs => ?_
        have hparts := OccupyAll.cons hx (.cons (hdot.1 hc) (.cons hname hargs))
        rw [hstart]
        refine (Fills.spanFrom hts (hparts.bounds.resolve_left nofun).1).bind ?_
        rintro _ span ⟨rfl, rfl⟩
        exact ih (.node hparts rfl)
      · obtain rfl := hdot.2 hc
        refine (Fills.accept _).bind fun m₂ b hat => .ite (fun hc => ?_) fun hc => ?_
        · refine (Fills.typeName _).bind fun m₃ ancestor hancestor => ?_
          refine (Fills.expectSymbol _ _).bind fun m₄ _ hdot => ?_
          refine (Fills.identifier _).bind ?_
          rintro m₅ ⟨method, place⟩ ⟨hname, -⟩
          refine (arguments_fills he).bind fun m₆ args hargs => ?_
          have hparts :=
            OccupyAll.cons hx (.cons (hat.1 hc) (.cons hancestor (.cons hdot (.cons hname hargs))))
          rw [hstart]
          refine (Fills.spanFrom hts (hparts.bounds.resolve_left nofun).1).bind ?_
          rintro _ span ⟨rfl, rfl⟩
          exact ih (.node hparts rfl)
        · obtain rfl := hat.2 hc
          exact .pure hx

theorem postfixed_fills : Fills ts k (postfixed e) fun m x => Occupies ts (.expr x) k m :=
  (atom_fills hts he).bind fun _ _ hx => calls_fills hts he hx

omit hts in
/-- An operator in front takes the end of its operand. -/
theorem unary_fills (op : UnaryOp) : Fills ts k (unary op.word op e) fun m x => Occupies ts (.expr x) k m := by
  refine Fills.ofFuel fun n => ?_
  induction n generalizing k with
  | zero => exact he k
  | succ n ih =>
      intro s hs x s' h
      rw [unaryN_succ_eq] at h
      split at h
      · exact he k hs h
      · rename_i t rest hrest
        obtain ⟨hword, hspan, hnext⟩ := hs.cons hrest
        split at h
        · rename_i hkind
          rw [hkind] at hword
          split at h
          · rename_i y s'' hr
            obtain ⟨m, hs', hy⟩ := ih hnext hr
            cases h
            refine ⟨m, hs', .node (.cons hword (.single hy)) ?_⟩
            have hstart : t.span.start = startAt ts k := congrArg Span.start hspan
            have hstop : y.span.stop = stopAt ts m := congrArg Span.stop hy.span_eq
            change Span.mk t.span.start y.span.stop = _
            rw [hstart, hstop]
          · cases h
        · exact he k hs h

omit he in
/-- The place of a binary operation is the join of those of its operands. -/
theorem mkBinary_occupies {op : BinaryOp} {left right : Expr} {j m : Nat} (hleft : Occupies ts (.expr left) i j)
    (hop : Occupies ts (sign op.symbol) j k) (hright : Occupies ts (.expr right) k m) :
    Occupies ts (.expr (mkBinary op left right)) i m := by
  have hl : left.span = _ := hleft.span_eq
  have hr : right.span = _ := hright.span_eq
  refine .node (.cons hleft (.cons hop (.single hright))) ?_
  change left.span.join right.span = _
  rw [hl, hr]
  exact hts.join_eq hleft.bounds.1 (Nat.le_of_lt hop.bounds.1) hright.bounds.1 hright.bounds.2

theorem chain_fills (ops : List BinaryOp) : Fills ts k (chain ops e) fun m x => Occupies ts (.expr x) k m := by
  refine (he k).bind fun m left hleft => Fills.ofFuel (p := fun n => chainN ops e n left) fun n => ?_
  induction n generalizing m left with
  | zero => exact .pure hleft
  | succ n ih =>
      refine (Fills.operator? _).bind fun m₁ o ho => ?_
      cases o with
      | none =>
          obtain rfl := ho.1 rfl
          exact .pure hleft
      | some op =>
          refine (he _).bind fun m₂ right hright => ?_
          exact ih _ _ (mkBinary_occupies hts hleft (ho.2 op rfl) hright)

theorem sum_fills : Fills ts k (sum e) fun m x => Occupies ts (.expr x) k m := by
  have hnegated (k : Nat) := unary_fills (k := k) (fun _ => postfixed_fills hts he) .negate
  have hfactor (k : Nat) := unary_fills (k := k) hnegated .isvoid
  have hterm (k : Nat) := chain_fills (k := k) hts hfactor [.mul, .div]
  exact chain_fills hts hterm [.add, .sub]

theorem comparison_fills : Fills ts k (comparison e) fun m x => Occupies ts (.expr x) k m := by
  refine (sum_fills hts he).bind fun m₁ left hleft => (Fills.operator? _).bind fun m₂ o ho => ?_
  cases o with
  | none =>
      obtain rfl := ho.1 rfl
      exact .pure hleft
  | some op =>
      refine (sum_fills hts he).bind fun m₃ right hright => ?_
      exact .pure (mkBinary_occupies hts hleft (ho.2 op rfl) hright)

theorem assignment_fills : Fills ts k (assignment e) fun m x => Occupies ts (.expr x) k m := by
  intro s hs x s' h
  rw [assignment_eq] at h
  split at h
  · rename_i y place sign rest hrest
    obtain ⟨hname, hspan, hnext⟩ := hs.cons hrest
    obtain ⟨hassign, -, hnext⟩ := hnext.cons rfl
    obtain rfl : place = _ := hspan
    have hvalue : Fills ts (k + 1 + 1)
        (do let value ← e; return .assign (← spanFrom (startAt ts k)) y value)
        fun m x => Occupies ts (.expr x) k m :=
      (he _).bind fun m value hvalue =>
        Fills.placed hts (fun _ => .cons hname (.cons hassign (.single hvalue))) fun _ => rfl
    exact hvalue hnext h
  · exact unary_fills (fun _ => comparison_fills hts he) .not hs h

end Expressions

/-! ## Programs -/

section Programs

variable (hts : Laid ts)
include hts

theorem expr_fills : Fills ts k expr fun m x => Occupies ts (.expr x) k m := by
  refine Fills.ofFuel (p := fun n => exprN (n + 1)) fun n => ?_
  induction n generalizing k with
  | zero => exact assignment_fills hts fun _ _ _ _ _ h => nomatch h
  | succ n ih => exact assignment_fills hts fun _ => ih

theorem param_fills : Fills ts k param fun m p => Occupies ts (.node (.param p)) k m := by
  refine (Fills.identifier _).bind ?_
  rintro m₁ ⟨x, place⟩ ⟨hname, hstart⟩
  refine (Fills.expectSymbol _ _).bind fun m₂ _ hcolon => ?_
  refine (Fills.typeName _).bind fun m₃ ty hty => ?_
  dsimp only at hstart ⊢
  rw [hstart]
  exact Fills.placed hts (fun _ => .cons hname (.cons hcolon (.single hty))) fun _ => rfl

theorem methodDecl_fills {x : String} {i j : Nat} (hname : Occupies ts (name x) i j)
    (hopen : Occupies ts (sign .lparen) j k) :
    Fills ts k (methodDecl x (startAt ts i)) fun m d => Occupies ts (.node (.feature (.method d))) i m := by
  refine Fills.freshId.bind ?_
  rintro _ id rfl
  refine (Fills.sepByBefore _ fun _ => param_fills hts).bind fun m₁ params hparams => ?_
  refine (Fills.expectSymbol _ _).bind fun m₂ _ hclose => ?_
  refine (Fills.expectSymbol _ _).bind fun m₃ _ hcolon => ?_
  refine (Fills.typeName _).bind fun m₄ ret hret => ?_
  refine (Fills.expectSymbol _ _).bind fun m₅ _ hlbrace => ?_
  refine (expr_fills hts).bind fun m₆ body hbody => ?_
  refine (Fills.expectSymbol _ _).bind fun m₇ _ hrbrace => ?_
  have htail :=
    OccupyAll.cons hclose (.cons hcolon (.cons hret (.cons hlbrace (.cons hbody (.single hrbrace)))))
  exact Fills.placed hts (g := fun d => .feature (.method d))
    (fun _ => .cons hname (.cons hopen (hparams.append htail))) fun _ => rfl

theorem attrDecl_fills {x : String} {i : Nat} (hname : Occupies ts (name x) i k) :
    Fills ts k (attrDecl x (startAt ts i)) fun m d => Occupies ts (.node (.feature (.attr d))) i m := by
  refine (Fills.expectSymbol _ _).bind fun m₁ _ hcolon => ?_
  refine (Fills.typeName _).bind fun m₂ ty hty => ?_
  refine (Fills.optionalAfter _ fun _ => expr_fills hts).bind fun m₃ init hinit => ?_
  exact Fills.placed hts (g := fun d => .feature (.attr d))
    (fun _ => .cons hname (.cons hcolon (.cons hty hinit))) fun _ => rfl

theorem feature_fills : Fills ts k feature fun m f => Occupies ts (.node (.feature f)) k m := by
  refine (Fills.identifier _).bind ?_
  rintro m₁ ⟨x, place⟩ ⟨hname, hstart⟩
  dsimp only at hstart ⊢
  rw [hstart]
  refine (Fills.accept _).bind fun m₂ b hopen => .ite (fun hc => ?_) fun hc => ?_
  · exact (methodDecl_fills hts hname (hopen.1 hc)).bind fun _ _ hd => .pure hd
  · obtain rfl := hopen.2 hc
    exact (attrDecl_fills hts hname).bind fun _ _ hd => .pure hd

theorem member_fills : Fills ts k member fun m f => OccupyAll ts (ended (.node (.feature f))) k m := by
  refine (feature_fills hts).bind fun m₁ f hf => ?_
  refine (Fills.expectSymbol _ _).withHelp.bind fun m₂ _ hend => ?_
  exact .pure (.cons hf (.single hend))

theorem classDecl_fills : Fills ts k classDecl fun m c => Occupies ts (.node (.classDecl c)) k m := by
  refine (Fills.expectKeyword _ _).bind ?_
  rintro m₁ place ⟨hclass, hstart⟩
  refine Fills.freshId.bind ?_
  rintro _ id rfl
  refine (Fills.typeName _).bind fun m₂ x hx => ?_
  refine (Fills.optionalAfter _ fun _ => Fills.typeName _).bind fun m₃ parent hparent => ?_
  refine (Fills.expectSymbol _ _).bind fun m₄ _ hlbrace => ?_
  refine (Fills.manyBefore _ fun _ => member_fills hts).bind fun m₅ features hfeatures => ?_
  refine (Fills.expectSymbol _ _).bind fun m₆ _ hrbrace => ?_
  refine (Fills.expectSymbol _ _).withHelp.bind fun m₇ _ hend => ?_
  have htail := hfeatures.append (OccupyAll.cons hrbrace (.single hend))
  rw [hstart]
  exact Fills.placed hts (fun _ => .cons hclass (.cons hx (hparent.append (.cons hlbrace htail)))) fun _ => rfl

/-- With enough fuel, the classes are written with all tokens. -/
theorem ClassRun.occupy {n : Nat} {s : State} {cs : List ClassDecl} (h : ClassRun n s cs)
    (hs : s.Behind ts k) (hn : ts.length ≤ k + n) :
    OccupyAll ts (cs.map fun c => .node (.classDecl c)) k ts.length := by
  induction h generalizing k with
  | done hend =>
      have hle := hs.le
      have hlen := hs.length_rest
      obtain rfl : k = ts.length := by
        rcases hend with rfl | hrest
        · exact Nat.le_antisymm hle hn
        · rw [hrest, List.length_nil] at hlen
          omega
      exact .nil
  | next _ hc _ ih =>
      obtain ⟨m, hs', hoccupies⟩ := classDecl_fills hts hs hc
      exact .cons hoccupies (ih hs' (by have := hoccupies.bounds; omega))

end Programs

theorem program_occupies {input : TokenStream} {p : Program} (hts : Laid input.tokens)
    (h : program input = .ok p) :
    OccupyAll input.tokens (p.classes.map fun c => .node (.classDecl c)) 0 input.tokens.length := by
  have hs : State.Behind input.tokens 0 ⟨input.tokens, 0, 0⟩ := ⟨Nat.zero_le _, rfl, rfl⟩
  exact (program_eq_ok.mp h).1.occupy hts hs (by omega)

end Parser

/-! ## Texts -/

theorem Tokenized.stopAt_le {source : String} {input : TokenStream} (h : Tokenized source input) {j : Nat}
    (hj : j ≤ input.tokens.length) : stopAt input.tokens j ≤ source.utf8ByteSize := by
  cases j with
  | zero => exact Nat.zero_le _
  | succ j =>
      rw [stopAt_succ_of_lt hj]
      obtain ⟨text, ⟨before, after, rfl, hspan⟩, -⟩ := h.alone _ (List.get_mem input.tokens ⟨j, hj⟩)
      rw [hspan, String.utf8ByteSize_append, String.utf8ByteSize_append]
      exact Nat.le_add_right _ _

/-- The place of a construct of a program that was read from `source`, which has the tokens `ts`. -/
structure Construct.Faithful (source : String) (ts : List Token) (c : Construct) : Prop where
  /-- It goes from the start of the first token that the construct is written with to the end of the last. -/
  tokens : ∃ i j, i < j ∧ j ≤ ts.length ∧ OccupyAll ts c.parts i j ∧ c.span = ⟨startAt ts i, stopAt ts j⟩
  nonempty : c.span.start < c.span.stop
  inside : c.span.stop ≤ source.utf8ByteSize
  /-- It contains the places of the constructs inside, which follow one another. -/
  contains : ∀ d ∈ c.inner, c.span.start ≤ d.span.start ∧ d.span.stop ≤ c.span.stop
  apart : c.inner.Pairwise fun d d' => d.span.stop ≤ d'.span.start
  /-- So do those of the children of an expression, which may stand in a binding or an arm. -/
  contains_child : ∀ e, c = .expr e → ∀ x ∈ e.children,
    e.span.start ≤ x.span.start ∧ x.span.stop ≤ e.span.stop
  children_apart : ∀ e, c = .expr e → e.children.Pairwise fun x y => x.span.stop ≤ y.span.start

theorem Occupies.faithful {source : String} {input : TokenStream} {c : Construct} {i j : Nat}
    (h : Occupies input.tokens (.node c) i j) (ht : Tokenized source input) :
    c.Faithful source input.tokens := by
  obtain ⟨hij, hj⟩ := h.bounds
  have hcontains {cs : List Construct} (hcs : InOrder input.tokens cs i j) (d : Construct) (hd : d ∈ cs) :
      c.span.start ≤ d.span.start ∧ d.span.stop ≤ c.span.stop := by
    obtain ⟨a, b, ha, hd, hb⟩ := hcs.exists_mem d hd
    exact h.contains ht.laid hd ha hb
  refine
    { tokens := ⟨i, j, hij, hj, h.parts, h.span_eq⟩
      nonempty := ?_
      inside := ?_
      contains := hcontains h.inOrder_inner
      apart := h.inOrder_inner.pairwise ht.laid
      contains_child := ?_
      children_apart := ?_ }
  · rw [h.span_eq]
    exact ht.laid.start_lt_stop_of_lt hij hj
  · rw [h.span_eq]
    exact ht.stopAt_le hj
  · rintro e rfl x hx
    exact hcontains h.inOrder_children _ (List.mem_map_of_mem hx)
  · rintro e rfl
    exact List.pairwise_map.mp (h.inOrder_children.pairwise ht.laid)

theorem Program.Has.occupies {p : Program} {ts : List Token} {k : Nat}
    (hp : OccupyAll ts (p.classes.map fun c => .node (.classDecl c)) 0 k) {c : Construct} (h : p.Has c) :
    ∃ i j, Occupies ts (.node c) i j := by
  induction h with
  | classDecl hc =>
      obtain ⟨i, j, -, hc, -⟩ := hp.inOrder.exists_mem (.classDecl _) (by simpa using hc)
      exact ⟨i, j, hc⟩
  | inner _ hd ih =>
      obtain ⟨i, j, hc⟩ := ih
      obtain ⟨a, b, -, hd, -⟩ := hc.inOrder_inner.exists_mem _ hd
      exact ⟨a, b, hd⟩

/-- In a program that was read from a text, every class, feature, parameter, binding, arm and expression has the
place of the tokens that it is written with. Places of parts are contained in the place of the whole and follow
one another, and no two declarations start at the same offset. -/
theorem parse_faithful {source : String} {p : Program} (h : parse source = .ok p) :
    ∃ input, lex source = .ok input ∧
      OccupyAll input.tokens (p.classes.map fun c => .node (.classDecl c)) 0 input.tokens.length ∧
      p.EachConstruct (Construct.Faithful source input.tokens) ∧
      (p.classes.Pairwise fun c d => c.span.stop ≤ d.span.start) ∧ p.starts.Nodup := by
  obtain ⟨input, hlex, hprogram⟩ := parse_eq_ok.mp h
  have ht := lex_tokenized hlex
  have hclasses := Parser.program_occupies ht.laid hprogram
  have heach : p.EachConstruct (Construct.Faithful source input.tokens) := by
    refine Program.eachConstruct_of_has fun c hc => ?_
    obtain ⟨i, j, hc⟩ := hc.occupies hclasses
    exact hc.faithful ht
  have hapart := hclasses.inOrder.pairwise ht.laid
  rw [List.filterMap_map, Component.construct?_comp_node, List.filterMap_eq_map', List.pairwise_map] at hapart
  exact ⟨input, hlex, hclasses, heach, hapart, parse_starts h⟩

/-- Operators, calls on calls, and a comment with a letter that takes two bytes. -/
def spacedText : String :=
  "class A \x7b\n f(x : Int) : Int \x7b\n  let y : Int <- ~x + 1 in (* é *) case y of z : Int => " ++
    "self.f(z)@A.f(x * 2); esac\n \x7d;\n\x7d;"

def spaced : Program :=
  ⟨[⟨0, "A", none, [
      .method ⟨1, "f", [⟨"x", TypeName.int, ⟨13, 20⟩⟩], TypeName.int,
        .letIn ⟨32, 113⟩ [
          (⟨2, "y", TypeName.int, ⟨36, 53⟩⟩,
            some (.binary ⟨47, 53⟩ .add (.unary ⟨47, 49⟩ .negate (.ident ⟨48, 49⟩ "x")) (.int ⟨52, 53⟩ 1)))]
          (.caseOf ⟨66, 113⟩ (.ident ⟨71, 72⟩ "y") [
            (⟨3, "z", TypeName.int, ⟨76, 108⟩⟩,
              .staticDispatch ⟨87, 107⟩
                (.dispatch ⟨87, 96⟩ (some (.ident ⟨87, 91⟩ "self")) "f" [.ident ⟨94, 95⟩ "z"]) "A" "f"
                [.binary ⟨101, 106⟩ .mul (.ident ⟨101, 102⟩ "x") (.int ⟨105, 106⟩ 2)])]),
        ⟨11, 116⟩⟩], ⟨0, 120⟩⟩]⟩

theorem spaced_faithful : ∃ p input, parse spacedText = .ok p ∧ lex spacedText = .ok input ∧
    p.starts = [0, 11, 13, 36, 76] ∧ p.starts.Nodup ∧
    p.EachConstruct (Construct.Faithful spacedText input.tokens) := by
  have hp : parse spacedText = .ok spaced := by
    set_option maxRecDepth 2048 in cbv
  obtain ⟨input, hlex, -, heach, -, hstarts⟩ := parse_faithful hp
  exact ⟨spaced, input, hp, hlex, by decide +kernel, hstarts, heach⟩

end CoolTyping
