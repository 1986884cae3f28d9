import CoolTyping.Proofs.Grammar
import CoolTyping.Proofs.ParserLogic

/-!
# What the parser reads is in the grammar

`Reads p D`: where `p` succeeds, its result and the words that it took are related by `D`. Each
combinator has one lemma, and each parser of the language reads what the grammar derives.
-/

namespace CoolTyping.Parser

open Grammar

variable {α β : Type}

/-- The kinds of the tokens that are left. -/
def State.words (s : State) : Words := s.rest.map (·.kind)

theorem State.words_of_rest {s : State} {t : Token} {rest : List Token} (h : s.rest = t :: rest) :
    s.words = t.kind :: (s.advance t rest).words := by
  simp [words, h, advance]

theorem bind_eq_ok {p : Parser α} {f : α → Parser β} {s s'' : State} {b : β} :
    (p >>= f) s = .ok (b, s'') ↔ ∃ a s', p s = .ok (a, s') ∧ f a s' = .ok (b, s'') := by
  change Parser.bind p f s = .ok (b, s'') ↔ _
  unfold Parser.bind
  cases hr : p s with
  | error e => simp
  | ok r =>
      obtain ⟨a, s'⟩ := r
      constructor
      · exact fun h => ⟨a, s', rfl, h⟩
      · rintro ⟨_, _, ⟨⟩, h⟩
        exact h

def Reads (p : Parser α) (D : α → Words → Prop) : Prop :=
  ∀ ⦃s a s'⦄, p s = .ok (a, s') → ∃ w, s.words = w ++ s'.words ∧ D a w

namespace Reads

variable {D : α → Words → Prop} {E : β → Words → Prop}

theorem pure {a : α} (h : D a []) : Reads (Pure.pure a : Parser α) D := by
  intro s b s' hp
  cases hp
  exact ⟨[], rfl, h⟩

theorem bind {p : Parser α} {f : α → Parser β} (hp : Reads p D)
    (hf : ∀ a u, D a u → Reads (f a) fun b v => E b (u ++ v)) : Reads (p >>= f) E := by
  intro s b s'' h
  obtain ⟨a, s', ha, hb⟩ := bind_eq_ok.mp h
  obtain ⟨u, hu, hD⟩ := hp ha
  obtain ⟨v, hv, hE⟩ := hf a u hD hb
  exact ⟨u ++ v, by rw [hu, hv, List.append_assoc], hE⟩

theorem ite {c : Prop} [Decidable c] {p q : Parser α} (hp : c → Reads p D) (hq : ¬ c → Reads q D) :
    Reads (if c then p else q) D := by
  by_cases hc : c
  · rw [if_pos hc]; exact hp hc
  · rw [if_neg hc]; exact hq hc

theorem withHelp {help : String} {p : Parser α} (hp : Reads p D) :
    Reads (Parser.withHelp help p) D := by
  intro s a s' h
  rw [withHelp_eq] at h
  cases hr : p s with
  | error e => rw [hr] at h; cases h
  | ok r => rw [hr] at h; cases h; exact hp hr

/-! ## Single tokens -/

theorem peek : Reads Parser.peek (fun _ w => w = []) := by
  intro s a s' h
  cases h
  exact ⟨[], rfl, rfl⟩

theorem accept (kind : TokenKind) :
    Reads (Parser.accept kind) (fun b w => w = if b then [kind] else []) := by
  intro s a s' h
  rw [accept_eq] at h
  split at h
  · rename_i t rest hrest
    split at h
    · rename_i hkind
      cases h
      exact ⟨[kind], by rw [State.words_of_rest hrest, hkind]; rfl, rfl⟩
    · cases h
      exact ⟨[], rfl, rfl⟩
  · cases h
    exact ⟨[], rfl, rfl⟩

theorem expect (kind : TokenKind) (expected : String) :
    Reads (Parser.expect kind expected) (fun _ w => w = [kind]) := by
  intro s a s' h
  rw [expect_eq] at h
  split at h
  · rename_i t rest hrest
    split at h
    · rename_i hkind
      cases h
      exact ⟨[kind], by rw [State.words_of_rest hrest, hkind]; rfl, rfl⟩
    · cases h
  · cases h

theorem expectSymbol (sign : Symbol) (expected : String) :
    Reads (Parser.expectSymbol sign expected) (fun _ w => w = [.symbol sign]) :=
  expect _ _

theorem expectKeyword (word : Keyword) (expected : String) :
    Reads (Parser.expectKeyword word expected) (fun _ w => w = [.keyword word]) :=
  expect _ _

theorem identifier (expected : String) :
    Reads (Parser.identifier expected) (fun x w => w = [.identifier x.1]) := by
  intro s a s' h
  rw [identifier_eq] at h
  split at h
  · rename_i hrest
    cases h
    exact ⟨_, State.words_of_rest hrest, rfl⟩
  · cases h

theorem typeName (expected : String) : Reads (Parser.typeName expected) DerivesType := by
  intro s a s' h
  rw [typeName_eq] at h
  split at h
  · rename_i hrest
    cases h
    exact ⟨_, State.words_of_rest hrest, .mk⟩
  · cases h
  · cases h

theorem freshId : Reads Parser.freshId (fun _ w => w = []) := by
  intro s a s' h
  cases h
  exact ⟨[], rfl, rfl⟩

theorem spanFrom (start : Nat) : Reads (Parser.spanFrom start) (fun _ w => w = []) := by
  intro s a s' h
  cases h
  exact ⟨[], rfl, rfl⟩

theorem operator? (ops : List BinaryOp) :
    Reads (Parser.operator? ops) (fun o w =>
      (o = none ∧ w = []) ∨ ∃ op ∈ ops, o = some op ∧ w = [.symbol op.symbol]) := by
  intro s a s' h
  rw [operator?_eq] at h
  split at h
  · cases h
    exact ⟨[], rfl, .inl ⟨rfl, rfl⟩⟩
  · rename_i t rest hrest
    split at h
    · rename_i op hop
      cases h
      have hkind : t.kind = .symbol op.symbol := by simpa using List.find?_some hop
      refine ⟨[.symbol op.symbol], ?_, .inr ⟨op, List.mem_of_find?_eq_some hop, rfl, rfl⟩⟩
      rw [State.words_of_rest hrest, hkind]
      rfl
    · cases h
      exact ⟨[], rfl, .inl ⟨rfl, rfl⟩⟩

/-! ## Repetition -/

theorem optionalAfter (kind : TokenKind) {p : Parser α} (hp : Reads p D) :
    Reads (Parser.optionalAfter kind p) (OptionalAfter kind D) := by
  refine (accept kind).bind fun b u hu => ?_
  cases b with
  | false =>
      subst hu
      exact pure .none
  | true =>
      subst hu
      exact hp.bind fun a w ha => pure (by simpa using OptionalAfter.some ha)

theorem sepByN {item : Parser α} (hitem : Reads item D) (sep : Symbol) (fuel : Nat) :
    Reads (Parser.sepByN item sep fuel) (SepBy D (.symbol sep)) := by
  induction fuel with
  | zero => exact hitem.bind fun a w ha => pure (by simpa using SepBy.one ha)
  | succ fuel ih =>
      refine hitem.bind fun a w ha => (accept _).bind fun b u hu => ?_
      cases b with
      | false =>
          subst hu
          exact pure (by simpa using SepBy.one ha)
      | true =>
          subst hu
          exact ih.bind fun as v has => pure (by simpa using SepBy.more ha has)

theorem sepBy {item : Parser α} (hitem : Reads item D) (sep : Symbol) :
    Reads (Parser.sepBy item sep) (SepBy D (.symbol sep)) :=
  fun _ _ _ h => sepByN hitem sep _ h

theorem sepByBefore {item : Parser α} (hitem : Reads item D) (close : Symbol) :
    Reads (Parser.sepByBefore item .comma close) (Listed D) := by
  refine peek.bind fun _ u hu => ?_
  subst hu
  exact ite (fun _ => pure .none) fun _ s as s' h =>
    (sepBy hitem .comma h).imp fun w hw => ⟨hw.1, .some hw.2⟩

/-- An item ends with a semicolon, so it takes a word, and the fuel lasts up to the closing word. -/
theorem someUntil {item : Parser α}
    (hitem : Reads item fun a w => ∃ u, D a u ∧ w = u ++ [.symbol .semi]) (close : TokenKind) :
    Reads (Parser.someUntil item close) fun as w =>
      ∃ u, Ended D as u ∧ as ≠ [] ∧ w = u ++ [close] := by
  have hN : ∀ fuel s as s', s.words.length ≤ fuel →
      Parser.someUntilN item close fuel s = .ok (as, s') →
      ∃ u, Ended D as u ∧ as ≠ [] ∧ s.words = u ++ close :: s'.words := by
    intro fuel
    induction fuel with
    | zero =>
        intro s as s' hlen h
        obtain ⟨a, s₁, ha, _⟩ := bind_eq_ok.mp h
        obtain ⟨_, hw, u, _, rfl⟩ := hitem ha
        simp [hw] at hlen
    | succ fuel ih =>
        intro s as s' hlen h
        obtain ⟨a, s₁, ha, h⟩ := bind_eq_ok.mp h
        obtain ⟨b, s₂, hb, h⟩ := bind_eq_ok.mp h
        obtain ⟨_, hw, u, hu, rfl⟩ := hitem ha
        obtain ⟨_, hw₁, rfl⟩ := accept close hb
        cases b with
        | true =>
            cases h
            exact ⟨u ++ [.symbol .semi], .cons hu .nil, by simp, by simp [hw, hw₁]⟩
        | false =>
            obtain ⟨as', _, has, h⟩ := bind_eq_ok.mp h
            cases h
            obtain ⟨v, hv, _, hw₂⟩ := ih s₂ as' s' (by simp_all; omega) has
            exact ⟨u ++ .symbol .semi :: v, .cons hu hv, by simp, by simp [hw, hw₁, hw₂]⟩
  intro s as s' h
  obtain ⟨u, hu, hne, hw⟩ := hN _ s as s' (by simp [State.words]) h
  exact ⟨u ++ [close], by simp [hw], u, hu, hne, rfl⟩

theorem manyBefore {item : Parser α}
    (hitem : Reads item fun a w => ∃ u, D a u ∧ w = u ++ [.symbol .semi]) (close : TokenKind) :
    Reads (Parser.manyBefore item close) (Ended D) := by
  have hN : ∀ fuel, Reads (Parser.manyBeforeN item close fuel) (Ended D) := by
    intro fuel
    induction fuel with
    | zero => exact pure .nil
    | succ fuel ih =>
        refine peek.bind fun kind _ hnil => ?_
        subst hnil
        cases kind with
        | none => exact pure .nil
        | some kind =>
            refine ite (fun _ => pure .nil) fun _ => hitem.bind ?_
            rintro a _ ⟨u, hu, rfl⟩
            exact ih.bind fun as v hv => pure (by simpa using Ended.cons hu hv)
  exact fun _ _ _ h => hN _ h

end Reads

/-! ## Parts of expressions -/

section Parts

variable {e : Parser Expr} (he : Reads e (Derives .expr))
include he

theorem arguments_reads : Reads (arguments e) fun args w =>
    ∃ u, Listed (Derives .expr) args u ∧ w = .symbol .lparen :: u ++ [.symbol .rparen] := by
  refine (Reads.expectSymbol _ _).bind ?_
  rintro _ _ rfl
  refine (Reads.sepByBefore he _).bind fun args u hu => (Reads.expectSymbol _ _).bind ?_
  rintro _ _ rfl
  exact .pure ⟨u, hu, by simp⟩

theorem binding_reads : Reads (binding e) (Binding (Derives .expr)) := by
  refine (Reads.identifier _).bind ?_
  rintro ⟨name, place⟩ _ rfl
  refine (Reads.expectSymbol _ _).bind ?_
  rintro _ _ rfl
  refine (Reads.typeName _).bind ?_
  rintro ty _ ⟨⟩
  refine (Reads.optionalAfter _ he).bind fun init u hu => Reads.freshId.bind ?_
  rintro id _ rfl
  refine (Reads.spanFrom _).bind ?_
  rintro span _ rfl
  exact .pure (by simpa using Binding.mk (b := ⟨id, name, ty, span⟩) hu)

theorem arm_reads : Reads (arm e) fun a w =>
    ∃ u, Arm (Derives .expr) a u ∧ w = u ++ [.symbol .semi] := by
  refine (Reads.identifier _).bind ?_
  rintro ⟨name, place⟩ _ rfl
  refine (Reads.expectSymbol _ _).bind ?_
  rintro _ _ rfl
  refine (Reads.typeName _).bind ?_
  rintro ty _ ⟨⟩
  refine (Reads.expectSymbol _ _).bind ?_
  rintro _ _ rfl
  refine he.bind fun body u hu => (Reads.expectSymbol _ _).bind ?_
  rintro _ _ rfl
  refine Reads.freshId.bind ?_
  rintro id _ rfl
  refine (Reads.spanFrom _).bind ?_
  rintro span _ rfl
  exact .pure ⟨_, Arm.mk (b := ⟨id, name, ty, span⟩) hu, by simp⟩

theorem statement_reads : Reads (statement e) fun x w =>
    ∃ u, Derives .expr x u ∧ w = u ++ [.symbol .semi] := by
  refine he.bind fun x u hu => (Reads.expectSymbol _ _).bind ?_
  rintro _ _ rfl
  exact .pure ⟨u, hu, by simp⟩

/-! ## Atoms -/

theorem conditional_reads (start : Nat) :
    Reads (conditional e start) fun x w => Derives .atom x (.keyword .ifKw :: w) := by
  refine he.bind fun a u hu => (Reads.expectKeyword _ _).bind ?_
  rintro _ _ rfl
  refine he.bind fun b v hv => (Reads.expectKeyword _ _).bind ?_
  rintro _ _ rfl
  refine he.bind fun c w hw => (Reads.expectKeyword _ _).bind ?_
  rintro _ _ rfl
  refine (Reads.spanFrom _).bind ?_
  rintro span _ rfl
  exact .pure (by simpa using Derives.cond (s := span) hu hv hw)

theorem whileLoop_reads (start : Nat) :
    Reads (whileLoop e start) fun x w => Derives .atom x (.keyword .whileKw :: w) := by
  refine he.bind fun a u hu => (Reads.expectKeyword _ _).bind ?_
  rintro _ _ rfl
  refine he.bind fun b v hv => (Reads.expectKeyword _ _).bind ?_
  rintro _ _ rfl
  refine (Reads.spanFrom _).bind ?_
  rintro span _ rfl
  exact .pure (by simpa using Derives.loop (s := span) hu hv)

theorem letExpr_reads (start : Nat) :
    Reads (letExpr e start) fun x w => Derives .atom x (.keyword .letKw :: w) := by
  refine (Reads.sepBy (binding_reads he) _).bind fun bindings u hu => ?_
  refine (Reads.expectKeyword _ _).bind ?_
  rintro _ _ rfl
  refine he.bind fun body v hv => (Reads.spanFrom _).bind ?_
  rintro span _ rfl
  exact .pure (by simpa using Derives.letIn (s := span) hu hv)

theorem caseExpr_reads (start : Nat) :
    Reads (caseExpr e start) fun x w => Derives .atom x (.keyword .caseKw :: w) := by
  refine he.bind fun a u hu => (Reads.expectKeyword _ _).bind ?_
  rintro _ _ rfl
  refine (Reads.someUntil (arm_reads he) _).bind ?_
  rintro arms _ ⟨v, hv, hne, rfl⟩
  refine (Reads.spanFrom _).bind ?_
  rintro span _ rfl
  exact .pure (by simpa using Derives.caseOf (s := span) hu hv hne)

omit he in
theorem newExpr_reads (start : Nat) :
    Reads (newExpr start) fun x w => Derives .atom x (.keyword .newKw :: w) := by
  refine (Reads.typeName _).bind ?_
  rintro ty _ ⟨⟩
  refine (Reads.spanFrom _).bind ?_
  rintro span _ rfl
  exact .pure .new

theorem parenthesized_reads (start : Nat) :
    Reads (parenthesized e start) fun x w => Derives .atom x (.symbol .lparen :: w) := by
  refine he.bind fun a u hu => (Reads.expectSymbol _ _).bind ?_
  rintro _ _ rfl
  refine (Reads.spanFrom _).bind ?_
  rintro span _ rfl
  exact .pure (by simpa using Derives.paren (s := span) hu)

theorem blockExpr_reads (start : Nat) :
    Reads (blockExpr e start) fun x w => Derives .atom x (.symbol .lbrace :: w) := by
  refine (Reads.someUntil (statement_reads he) _).bind ?_
  rintro es _ ⟨u, hu, hne, rfl⟩
  refine (Reads.spanFrom _).bind ?_
  rintro span _ rfl
  exact .pure (by simpa using Derives.block (s := span) hu hne)

theorem nameOrCall_reads (name : String) (span : Span) :
    Reads (nameOrCall e name span) fun x w => Derives .atom x (.identifier name :: w) := by
  refine Reads.peek.bind ?_
  rintro _ _ rfl
  refine .ite (fun _ => ?_) fun _ => .pure .ident
  refine (arguments_reads he).bind ?_
  rintro args _ ⟨u, hu, rfl⟩
  refine (Reads.spanFrom _).bind ?_
  rintro span _ rfl
  exact .pure (by simpa using Derives.selfCall (s := span) hu)

theorem atom_reads : Reads (atom e) (Derives .atom) := by
  -- The first token was taken off before; what `p` reads behind it completes the atom.
  have hfirst : ∀ {s s' : State} {t : Token} {rest x} {p : Parser Expr}, s.rest = t :: rest →
      (Reads p fun x w => Derives .atom x (t.kind :: w)) → p (s.advance t rest) = .ok (x, s') →
      ∃ w, s.words = w ++ s'.words ∧ Derives .atom x w := by
    intro s s' t rest x p hrest hp h
    obtain ⟨w, hw, hx⟩ := hp h
    exact ⟨t.kind :: w, by rw [State.words_of_rest hrest, hw]; rfl, hx⟩
  intro s x s' h
  rw [atom_eq] at h
  split at h
  · cases h
  rename_i t rest hrest
  dsimp only at h
  split at h
  all_goals rename_i hkind
  · exact hfirst hrest (hkind ▸ conditional_reads he _) h
  · exact hfirst hrest (hkind ▸ whileLoop_reads he _) h
  · exact hfirst hrest (hkind ▸ letExpr_reads he _) h
  · exact hfirst hrest (hkind ▸ caseExpr_reads he _) h
  · exact hfirst hrest (hkind ▸ newExpr_reads _) h
  · exact hfirst hrest (Reads.pure (hkind ▸ Derives.bool)) h
  · exact hfirst hrest (Reads.pure (hkind ▸ Derives.bool)) h
  · exact hfirst hrest (hkind ▸ parenthesized_reads he _) h
  · exact hfirst hrest (hkind ▸ blockExpr_reads he _) h
  · exact hfirst hrest (hkind ▸ nameOrCall_reads he _ _) h
  · exact hfirst hrest (Reads.pure (hkind ▸ Derives.int)) h
  · exact hfirst hrest (Reads.pure (hkind ▸ Derives.str)) h
  · cases h

/-! ## Levels of binding strength -/

theorem callsN_reads (fuel : Nat) {x : Expr} {u : Words} (hx : Derives .postfixed x u) :
    Reads (callsN e fuel x) fun y w => Derives .postfixed y (u ++ w) := by
  induction fuel generalizing x u with
  | zero => exact .pure (by simpa using hx)
  | succ fuel ih =>
      refine (Reads.accept _).bind fun dot _ hdot => ?_
      subst hdot
      cases dot with
      | true =>
          refine (Reads.identifier _).bind ?_
          rintro ⟨m, place⟩ _ rfl
          refine (arguments_reads he).bind ?_
          rintro args _ ⟨v, hv, rfl⟩
          refine (Reads.spanFrom _).bind ?_
          rintro span _ rfl
          simpa using ih (Derives.call (s := span) (m := m) hx hv)
      | false =>
          refine (Reads.accept _).bind fun atSign _ hat => ?_
          subst hat
          cases atSign with
          | true =>
              refine (Reads.typeName _).bind ?_
              rintro ty _ ⟨⟩
              refine (Reads.expectSymbol _ _).bind ?_
              rintro _ _ rfl
              refine (Reads.identifier _).bind ?_
              rintro ⟨m, place⟩ _ rfl
              refine (arguments_reads he).bind ?_
              rintro args _ ⟨v, hv, rfl⟩
              refine (Reads.spanFrom _).bind ?_
              rintro span _ rfl
              simpa using ih (Derives.staticCall (s := span) (t := ty) (m := m) hx hv)
          | false => exact .pure (by simpa using hx)

theorem postfixed_reads : Reads (postfixed e) (Derives .postfixed) :=
  (atom_reads he).bind fun _ _ hx _ _ _ h => callsN_reads he _ (.ofAtom hx) h

end Parts

/-- An operator in front of its operand, where `l` is the level of the operand as well. -/
theorem unary_reads {kind : TokenKind} {op : UnaryOp} {operand : Parser Expr} {l : Level}
    (hoperand : Reads operand (Derives l))
    (hop : ∀ {s x w}, Derives l x w → Derives l (.unary s op x) (kind :: w)) :
    Reads (unary kind op operand) (Derives l) := by
  have hN : ∀ fuel, Reads (unaryN kind op operand fuel) (Derives l) := by
    intro fuel
    induction fuel with
    | zero => exact hoperand
    | succ fuel ih =>
        intro s x s' h
        rw [unaryN_succ_eq] at h
        split at h
        · exact hoperand h
        rename_i t rest hrest
        split at h
        · rename_i hkind
          split at h
          · rename_i y s₁ hy
            cases h
            obtain ⟨w, hw, hd⟩ := ih hy
            exact ⟨kind :: w, by rw [State.words_of_rest hrest, hw, hkind]; rfl, hop hd⟩
          · cases h
        · exact hoperand h
  exact fun _ _ _ h => hN _ h

/-- A chain of operators, where `l` is the level of the chain and `l'` that of its operands. -/
theorem chain_reads {ops : List BinaryOp} {operand : Parser Expr} {l l' : Level}
    (hoperand : Reads operand (Derives l')) (hlift : ∀ {x w}, Derives l' x w → Derives l x w)
    (hop : ∀ {s op x y u v}, op ∈ ops → Derives l x u → Derives l' y v →
      Derives l (.binary s op x y) (u ++ .symbol op.symbol :: v)) :
    Reads (chain ops operand) (Derives l) := by
  have hN : ∀ fuel x u, Derives l x u →
      Reads (chainN ops operand fuel x) fun y w => Derives l y (u ++ w) := by
    intro fuel
    induction fuel with
    | zero => exact fun x u hx => .pure (by simpa using hx)
    | succ fuel ih =>
        intro x u hx
        refine (Reads.operator? ops).bind ?_
        rintro _ _ (⟨rfl, rfl⟩ | ⟨op, hmem, rfl, rfl⟩)
        · exact .pure (by simpa using hx)
        · refine hoperand.bind fun y v hy => ?_
          simpa [mkBinary] using ih _ _ (hop (s := x.span.join y.span) hmem hx hy)
  exact hoperand.bind fun x u hx _ _ _ h => hN _ x u (hlift hx) h

section Levels

variable {e : Parser Expr} (he : Reads e (Derives .expr))
include he

theorem factor_reads : Reads (factor e) (Derives .factor) := by
  have hnegated : Reads (negated e) (Derives .negated) :=
    unary_reads (fun _ _ _ h => (postfixed_reads he h).imp fun _ hw => ⟨hw.1, .ofPostfixed hw.2⟩)
      .negate
  exact unary_reads (fun _ _ _ h => (hnegated h).imp fun _ hw => ⟨hw.1, .ofNegated hw.2⟩) .isvoid

theorem sum_reads : Reads (sum e) (Derives .sum) :=
  chain_reads (chain_reads (factor_reads he) .ofFactor .mul) .ofTerm .add

theorem comparison_reads : Reads (comparison e) (Derives .comparison) := by
  refine (sum_reads he).bind fun x u hx => (Reads.operator? _).bind ?_
  rintro _ _ (⟨rfl, rfl⟩ | ⟨op, hmem, rfl, rfl⟩)
  · exact .pure (by simpa using Derives.ofSum hx)
  · exact (sum_reads he).bind fun y v hy => .pure (by simpa [mkBinary] using Derives.compare hmem hx hy)

theorem assignment_reads : Reads (assignment e) (Derives .expr) := by
  intro s x s' h
  rw [assignment_eq] at h
  split at h
  · rename_i name place sign rest hrest
    obtain ⟨y, s₁, hy, h⟩ := bind_eq_ok.mp h
    obtain ⟨w, hw, hd⟩ := he hy
    cases h
    refine ⟨.identifier name :: .symbol .assign :: w, ?_, .assign hd⟩
    simp only [State.words, hrest, State.advance] at hw ⊢
    simp [hw]
  · have hnegation : Reads (negation e) (Derives .negation) :=
      unary_reads (fun _ _ _ h => (comparison_reads he h).imp fun _ hw => ⟨hw.1, .ofComparison hw.2⟩)
        .not
    exact (hnegation h).imp fun _ hw => ⟨hw.1, .ofNegation hw.2⟩

end Levels

theorem exprN_reads (fuel : Nat) : Reads (exprN fuel) (Derives .expr) := by
  induction fuel with
  | zero => exact fun _ _ _ h => by cases h
  | succ fuel ih => exact assignment_reads ih

theorem expr_reads : Reads expr (Derives .expr) := fun _ _ _ h => exprN_reads _ h

/-! ## Programs -/

theorem param_reads : Reads param DerivesParam := by
  refine (Reads.identifier _).bind ?_
  rintro ⟨name, place⟩ _ rfl
  refine (Reads.expectSymbol _ _).bind ?_
  rintro _ _ rfl
  refine (Reads.typeName _).bind ?_
  rintro ty _ ⟨⟩
  refine (Reads.spanFrom _).bind ?_
  rintro span _ rfl
  exact .pure .mk

theorem methodDecl_reads (name : String) (start : Nat) :
    Reads (methodDecl name start) fun m w =>
      DerivesFeature (.method m) (.identifier name :: .symbol .lparen :: w) := by
  refine Reads.freshId.bind ?_
  rintro id _ rfl
  refine (Reads.sepByBefore param_reads _).bind fun params u hu => (Reads.expectSymbol _ _).bind ?_
  rintro _ _ rfl
  refine (Reads.expectSymbol _ _).bind ?_
  rintro _ _ rfl
  refine (Reads.typeName _).bind ?_
  rintro ret _ ⟨⟩
  refine (Reads.expectSymbol _ _).bind ?_
  rintro _ _ rfl
  refine expr_reads.bind fun body v hv => (Reads.expectSymbol _ _).bind ?_
  rintro _ _ rfl
  refine (Reads.spanFrom _).bind ?_
  rintro span _ rfl
  exact .pure (by simpa using DerivesFeature.method (m := ⟨id, name, params, ret, body, span⟩) hu hv)

theorem attrDecl_reads (name : String) (start : Nat) :
    Reads (attrDecl name start) fun a w =>
      DerivesFeature (.attr a) (.identifier name :: w) := by
  refine (Reads.expectSymbol _ _).bind ?_
  rintro _ _ rfl
  refine (Reads.typeName _).bind ?_
  rintro ty _ ⟨⟩
  refine (Reads.optionalAfter _ expr_reads).bind fun init u hu => (Reads.spanFrom _).bind ?_
  rintro span _ rfl
  exact .pure (by simpa using DerivesFeature.attr (a := ⟨name, ty, init, span⟩) hu)

theorem feature_reads : Reads feature DerivesFeature := by
  refine (Reads.identifier _).bind ?_
  rintro ⟨name, place⟩ _ rfl
  refine (Reads.accept _).bind fun paren _ hparen => ?_
  subst hparen
  cases paren with
  | true => exact (methodDecl_reads _ _).bind fun m w hm => .pure (by simpa using hm)
  | false => exact (attrDecl_reads _ _).bind fun a w ha => .pure (by simpa using ha)

theorem member_reads : Reads member fun f w =>
    ∃ u, DerivesFeature f u ∧ w = u ++ [.symbol .semi] := by
  refine feature_reads.bind fun f u hu => (Reads.withHelp (Reads.expectSymbol _ _)).bind ?_
  rintro _ _ rfl
  exact .pure ⟨u, hu, by simp⟩

theorem classDecl_reads : Reads classDecl fun c w =>
    ∃ u, DerivesClass c u ∧ w = u ++ [.symbol .semi] := by
  refine (Reads.expectKeyword _ _).bind ?_
  rintro _ _ rfl
  refine Reads.freshId.bind ?_
  rintro id _ rfl
  refine (Reads.typeName _).bind ?_
  rintro name _ ⟨⟩
  refine (Reads.optionalAfter _ (Reads.typeName _)).bind fun parent u hu => ?_
  refine (Reads.expectSymbol _ _).bind ?_
  rintro _ _ rfl
  refine (Reads.manyBefore member_reads _).bind fun features v hv => (Reads.expectSymbol _ _).bind ?_
  rintro _ _ rfl
  refine (Reads.withHelp (Reads.expectSymbol _ _)).bind ?_
  rintro _ _ rfl
  refine (Reads.spanFrom _).bind ?_
  rintro span _ rfl
  exact .pure ⟨_, DerivesClass.mk (c := ⟨id, name, parent, features, span⟩) hu hv, by simp⟩

/-- With enough fuel, the classes cover all words. -/
theorem ClassRun.reads {n : Nat} {s : State} {cs : List ClassDecl} (h : ClassRun n s cs)
    (hlen : s.words.length ≤ n) : Ended DerivesClass cs s.words := by
  induction h with
  | @done n s hend =>
      have hnil : s.words = [] := by
        rcases hend with rfl | hrest
        · exact List.length_eq_zero_iff.mp (Nat.le_zero.mp hlen)
        · simp [State.words, hrest]
      rw [hnil]
      exact .nil
  | @next n s s' _ _ _ hc _ ih =>
      obtain ⟨_, hw, u, hu, rfl⟩ := classDecl_reads hc
      have hlen' : s'.words.length ≤ n := by
        simp [hw] at hlen
        omega
      have hrest := Ended.cons hu (ih hlen')
      simpa [hw] using hrest

/-- A program that was read is a derivation of the words of its text. -/
theorem program_reads {input : TokenStream} {p : Program} (h : program input = .ok p) :
    DerivesProgram p (input.tokens.map (·.kind)) := by
  obtain ⟨hrun, hne⟩ := program_eq_ok.mp h
  exact .mk (hrun.reads (by simp [State.words])) hne

end CoolTyping.Parser
