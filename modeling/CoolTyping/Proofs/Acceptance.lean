import CoolTyping.Proofs.Derivations

/-!
# Every program of the grammar is read

The parser takes as many words as it can and never goes back, while a derivation may have cut the same
words in another way: in `let x : T in a < b < c` the body may end before or behind the first `<`. A
word that could continue an expression is always taken by the innermost one that has room for it, which
leaves the most room to the others. So the words behind an expression are described by a `Tail`, of
which only the number of comparisons matters, and every parser leaves a tail with no more of them.
-/

namespace CoolTyping

namespace Grammar

/-! ## Words behind an expression -/

/-- The words that may continue an expression, or be its second word. -/
def continuing : List TokenKind :=
  [.symbol .dot, .symbol .atSign, .symbol .star, .symbol .slash, .symbol .plus, .symbol .minus,
    .symbol .le, .symbol .lt, .symbol .eq, .symbol .lparen, .symbol .assign]

/-- The first word, if there is one, is not among `kinds`. -/
def HeadNotIn (kinds : List TokenKind) (w : Words) : Prop := ∀ t ∈ w.head?, t ∉ kinds

theorem HeadNotIn.mono {kinds kinds' : List TokenKind} {w : Words} (h : HeadNotIn kinds w)
    (hsub : ∀ t ∈ kinds', t ∈ kinds) : HeadNotIn kinds' w := fun t ht hmem => h t ht (hsub t hmem)

/-- No expression goes on with these words. -/
abbrev Stops (w : Words) : Prop := HeadNotIn continuing w

/-- Calls, operations and at most `k` comparisons, each without its first operand, and then `r`. -/
inductive Tail (r : Words) : Nat → Words → Prop
  | stop {k} : Tail r k r
  | call {k m args v w} : Listed (Derives .expr) args v → Tail r k w →
      Tail r k (.symbol .dot :: .identifier m :: .symbol .lparen :: v ++ .symbol .rparen :: w)
  | staticCall {k t m args v w} : Listed (Derives .expr) args v → Tail r k w →
      Tail r k (.symbol .atSign :: .typeName t :: .symbol .dot :: .identifier m :: .symbol .lparen ::
        v ++ .symbol .rparen :: w)
  | mul {k op e v w} : op ∈ [BinaryOp.mul, .div] → Derives .factor e v → Tail r k w →
      Tail r k (.symbol op.symbol :: v ++ w)
  | add {k op e v w} : op ∈ [BinaryOp.add, .sub] → Derives .term e v → Tail r k w →
      Tail r k (.symbol op.symbol :: v ++ w)
  | compare {k op e v w} : op ∈ [BinaryOp.le, .lt, .eq] → Derives .sum e v → Tail r k w →
      Tail r (k + 1) (.symbol op.symbol :: v ++ w)

variable {r w : Words} {k : Nat}

theorem Tail.succ (h : Tail r k w) : Tail r (k + 1) w := by
  induction h with
  | stop => exact .stop
  | call hargs _ ih => exact .call hargs ih
  | staticCall hargs _ ih => exact .staticCall hargs ih
  | mul hop he _ ih => exact .mul hop he ih
  | add hop he _ ih => exact .add hop he ih
  | compare hop he _ ih => exact .compare hop he ih

/-- `u` with a tail behind it starts with an expression of the level `l`, with a tail behind it. -/
def StartsWith (l : Level) (u : Words) : Prop :=
  ∃ y v, Derives l y v ∧ ∀ r k w, Tail r k w → ∃ w', Tail r k w' ∧ u ++ w = v ++ w'

theorem StartsWith.of_derives {l : Level} {x : Expr} {u : Words} (h : Derives l x u) :
    StartsWith l u := ⟨x, u, h, fun _ _ w hw => ⟨w, hw, rfl⟩⟩

theorem StartsWith.append {l : Level} {u v : Words} (h : StartsWith l u)
    (hv : ∀ r k w, Tail r k w → Tail r k (v ++ w)) : StartsWith l (u ++ v) := by
  obtain ⟨y, u', hy, hu⟩ := h
  refine ⟨y, u', hy, fun r k w hw => ?_⟩
  obtain ⟨w', hw', heq⟩ := hu r k _ (hv r k w hw)
  exact ⟨w', hw', by rw [List.append_assoc, heq]⟩

theorem Derives.startsWith_atom : ∀ {x u}, Derives .postfixed x u → StartsWith .atom u
  | _, _, .call h hargs => by
      rw [List.append_assoc]
      exact (startsWith_atom h).append fun _ _ _ hw => by simpa using Tail.call hargs hw
  | _, _, .staticCall h hargs => by
      rw [List.append_assoc]
      exact (startsWith_atom h).append fun _ _ _ hw => by simpa using Tail.staticCall hargs hw
  | _, _, .ofAtom h => .of_derives h

theorem Derives.startsWith_factor : ∀ {x u}, Derives .term x u → StartsWith .factor u
  | _, _, .mul hop hl hr => (startsWith_factor hl).append fun _ _ _ hw => .mul hop hr hw
  | _, _, .ofFactor h => .of_derives h

theorem Derives.startsWith_term : ∀ {x u}, Derives .sum x u → StartsWith .term u
  | _, _, .add hop hl hr => (startsWith_term hl).append fun _ _ _ hw => .add hop hr hw
  | _, _, .ofTerm h => .of_derives h

/-! ## First words -/

/-- The words that an atom may start with. -/
def StartsAtom : TokenKind → Prop
  | .identifier _ | .integer _ | .string _ => True
  | .keyword word => word ∈ [Keyword.ifKw, .whileKw, .letKw, .caseKw, .newKw, .trueKw, .falseKw]
  | .symbol sign => sign ∈ [Symbol.lparen, .lbrace]
  | .typeName _ => False

/-- The operators that may stand in front of an expression of each level. -/
def openers : Level → List TokenKind
  | .expr | .negation => [.keyword .notKw, .keyword .isvoidKw, .symbol .tilde]
  | .comparison | .sum | .term | .factor => [.keyword .isvoidKw, .symbol .tilde]
  | .negated => [.symbol .tilde]
  | .postfixed | .atom => []

theorem Derives.head : ∀ {l x u}, Derives l x u → ∃ t v, u = t :: v ∧ (t ∈ openers l ∨ StartsAtom t)
  | _, _, _, .assign _ | _, _, _, .ident | _, _, _, .selfCall _ | _, _, _, .int | _, _, _, .str =>
      ⟨_, _, rfl, .inr trivial⟩
  | _, _, _, .not _ | _, _, _, .isvoid _ | _, _, _, .negate _ =>
      ⟨_, _, rfl, .inl List.mem_cons_self⟩
  | _, _, _, .ofNegation h | _, _, _, .ofSum h | _, _, _, .ofTerm h | _, _, _, .ofFactor h
  | _, _, _, .ofAtom h => h.head
  | _, _, _, .ofComparison h | _, _, _, .ofNegated h | _, _, _, .ofPostfixed h => by
      obtain ⟨t, v, hu, ht⟩ := h.head
      exact ⟨t, v, hu, ht.imp_left (List.mem_cons_of_mem _)⟩
  | _, _, _, .compare _ h _ | _, _, _, .add _ h _ | _, _, _, .mul _ h _ => by
      obtain ⟨t, v, rfl, ht⟩ := h.head
      exact ⟨t, _, rfl, ht⟩
  | _, _, _, .call h _ | _, _, _, .staticCall h _ => by
      obtain ⟨t, v, rfl, ht⟩ := h.head
      exact ⟨t, _, rfl, ht⟩
  | _, _, _, .cond .. | _, _, _, .loop .. | _, _, _, .letIn .. | _, _, _, .caseOf ..
  | _, _, _, .new | _, _, _, .paren _ | _, _, _, .block .. => ⟨_, _, rfl, .inr (by simp [StartsAtom])⟩
  | _, _, _, .bool (b := b) => ⟨_, _, rfl, .inr (by cases b <;> simp [StartsAtom])⟩

theorem Derives.ne_nil {l : Level} {x : Expr} {u : Words} (h : Derives l x u) : u ≠ [] := by
  obtain ⟨t, v, rfl, _⟩ := h.head
  simp

/-- An expression without an assignment at its front does not look like one. -/
def NoAssignment (w : Words) : Prop := ∀ x v, w ≠ .identifier x :: .symbol .assign :: v

theorem NoAssignment.append {u v : Words} (hu : NoAssignment u) (hne : u ≠ [])
    (hv : HeadNotIn [.symbol .assign] v) : NoAssignment (u ++ v) := by
  intro x w h
  match u, v, hne with
  | [a], [], _ => cases h
  | [a], b :: v, _ =>
      cases h
      exact hv _ rfl List.mem_cons_self
  | a :: b :: u, v, _ =>
      cases h
      exact hu _ _ rfl

theorem Derives.noAssignment : ∀ {l x u}, Derives l x u → l ≠ .expr → NoAssignment u
  | _, _, _, .assign _, hl | _, _, _, .ofNegation _, hl => absurd rfl hl
  | _, _, _, .compare (o := o) _ h _, _ => by
      refine (h.noAssignment (by simp)).append h.ne_nil ?_
      cases o <;> simp [HeadNotIn, BinaryOp.symbol]
  | _, _, _, .add (o := o) _ h _, _ => by
      refine (h.noAssignment (by simp)).append h.ne_nil ?_
      cases o <;> simp [HeadNotIn, BinaryOp.symbol]
  | _, _, _, .mul (o := o) _ h _, _ => by
      refine (h.noAssignment (by simp)).append h.ne_nil ?_
      cases o <;> simp [HeadNotIn, BinaryOp.symbol]
  | _, _, _, .call h _, _ | _, _, _, .staticCall h _, _ => by
      rw [List.append_assoc]
      exact (h.noAssignment (by simp)).append h.ne_nil (by simp [HeadNotIn])
  | _, _, _, .ofComparison h, _ | _, _, _, .ofSum h, _ | _, _, _, .ofTerm h, _
  | _, _, _, .ofFactor h, _ | _, _, _, .ofNegated h, _ | _, _, _, .ofPostfixed h, _
  | _, _, _, .ofAtom h, _ => h.noAssignment (by simp)
  | _, _, _, .not _, _ | _, _, _, .isvoid _, _ | _, _, _, .negate _, _ | _, _, _, .cond .., _
  | _, _, _, .loop .., _ | _, _, _, .letIn .., _ | _, _, _, .caseOf .., _ | _, _, _, .new, _
  | _, _, _, .paren _, _ | _, _, _, .block .., _ | _, _, _, .ident, _ | _, _, _, .selfCall _, _
  | _, _, _, .int, _ | _, _, _, .str, _ | _, _, _, .bool, _ => by simp [NoAssignment]

/-- The words with which an expression of each level goes on. -/
def goesOn : Level → List TokenKind
  | .atom => []
  | .postfixed | .negated | .factor => [.symbol .dot, .symbol .atSign]
  | .term => [.symbol .dot, .symbol .atSign, .symbol .star, .symbol .slash]
  | .sum | .comparison | .negation | .expr =>
    [.symbol .dot, .symbol .atSign, .symbol .star, .symbol .slash, .symbol .plus, .symbol .minus]

theorem HeadNotIn.operator {ops : List BinaryOp} {op : BinaryOp} {kinds : List TokenKind}
    (hop : op ∈ ops) (h : ∀ o ∈ ops, TokenKind.symbol o.symbol ∉ kinds) :
    HeadNotIn kinds (.symbol op.symbol :: w) := by
  rintro _ ⟨⟩
  exact h op hop

theorem HeadNotIn.not_operator {ops : List BinaryOp} {op : BinaryOp} {kinds : List TokenKind}
    (h : HeadNotIn kinds (.symbol op.symbol :: w)) (hop : op ∈ ops)
    (hin : ∀ o ∈ ops, TokenKind.symbol o.symbol ∈ kinds) : False :=
  h _ rfl (hin op hop)

/-- What is left when an expression without room for a comparison was read to its end. -/
theorem Tail.eq_of_zero (h : Tail r 0 w) (hw : HeadNotIn (goesOn .expr) w) : w = r := by
  cases h with
  | stop => rfl
  | call | staticCall => exact absurd (hw _ rfl) (by simp [goesOn])
  | mul hop | add hop =>
      exact (hw.not_operator hop (by decide)).elim

end Grammar

namespace Parser

open Grammar

variable {α β : Type}

/-! ## Parsers that succeed -/

/-- On the words `w`, `p` succeeds and leaves words that satisfy `post`. -/
def Leaves (p : Parser α) (w : Words) (post : Words → Prop) : Prop :=
  ∀ ⦃s⦄, s.words = w → ∃ a s', p s = .ok (a, s') ∧ post s'.words

theorem State.exists_of_words {s : State} {kind : TokenKind} {w : Words} (h : s.words = kind :: w) :
    ∃ t rest, s.rest = t :: rest ∧ t.kind = kind ∧ (s.advance t rest).words = w := by
  cases hrest : s.rest with
  | nil => simp [words, hrest] at h
  | cons t rest =>
      rw [words_of_rest hrest] at h
      cases h
      exact ⟨t, rest, rfl, rfl, rfl⟩

namespace Leaves

variable {w : Words} {post mid : Words → Prop}

theorem mono {p : Parser α} (h : Leaves p w mid) (hpost : ∀ w, mid w → post w) : Leaves p w post := by
  intro s hs
  obtain ⟨a, s', ha, hmid⟩ := h hs
  exact ⟨a, s', ha, hpost _ hmid⟩

theorem pure {a : α} (h : post w) : Leaves (Pure.pure a : Parser α) w post := by
  rintro s rfl
  exact ⟨a, s, rfl, h⟩

theorem bind {p : Parser α} {f : α → Parser β} (hp : Leaves p w mid)
    (hf : ∀ a w', mid w' → Leaves (f a) w' post) : Leaves (p >>= f) w post := by
  intro s hs
  obtain ⟨a, s', ha, hmid⟩ := hp hs
  obtain ⟨b, s'', hb, hpost⟩ := hf a _ hmid rfl
  exact ⟨b, s'', bind_eq_ok.mpr ⟨a, s', ha, hb⟩, hpost⟩

/-- A parser that leaves certain words goes first. -/
theorem andThen {p : Parser α} {f : α → Parser β} {w' : Words} (hp : Leaves p w (· = w'))
    (hf : ∀ a, Leaves (f a) w' post) : Leaves (p >>= f) w post :=
  hp.bind fun a _ h => h ▸ hf a

/-- A parser that takes the number of words as its fuel. -/
theorem ofFuel {p : Nat → Parser α} (h : Leaves (p w.length) w post) :
    Leaves (fun s => p s.rest.length s) w post := by
  rintro s rfl
  have hlen : s.words.length = s.rest.length := List.length_map _
  rw [hlen] at h
  exact h rfl

theorem withHelp {help : String} {p : Parser α} (hp : Leaves p w post) :
    Leaves (Parser.withHelp help p) w post := by
  intro s hs
  obtain ⟨a, s', ha, hpost⟩ := hp hs
  exact ⟨a, s', by simp [withHelp_eq, ha], hpost⟩

theorem expect (kind : TokenKind) (expected : String) :
    Leaves (Parser.expect kind expected) (kind :: w) (· = w) := by
  intro s hs
  obtain ⟨t, rest, hrest, hkind, hw⟩ := State.exists_of_words hs
  exact ⟨t.span, s.advance t rest, by simp [expect_eq, hrest, hkind], hw⟩

theorem expectSymbol (sign : Symbol) (expected : String) :
    Leaves (Parser.expectSymbol sign expected) (.symbol sign :: w) (· = w) :=
  expect _ _

theorem expectKeyword (word : Keyword) (expected : String) :
    Leaves (Parser.expectKeyword word expected) (.keyword word :: w) (· = w) :=
  expect _ _

theorem identifier (name expected : String) :
    Leaves (Parser.identifier expected) (.identifier name :: w) (· = w) := by
  intro s hs
  obtain ⟨⟨kind, span⟩, rest, hrest, rfl, hw⟩ := State.exists_of_words hs
  exact ⟨(name, span), _, by simp [identifier_eq, hrest], hw⟩

theorem typeName (name : TypeName) (expected : String) :
    Leaves (Parser.typeName expected) (.typeName name :: w) (· = w) := by
  intro s hs
  obtain ⟨⟨kind, span⟩, rest, hrest, rfl, hw⟩ := State.exists_of_words hs
  exact ⟨name, _, by simp [typeName_eq, hrest], hw⟩

theorem freshId : Leaves Parser.freshId w (· = w) := fun s hs => ⟨s.nextId, _, rfl, hs⟩

theorem spanFrom (start : Nat) : Leaves (Parser.spanFrom start) w (· = w) :=
  fun s hs => ⟨_, s, rfl, hs⟩

theorem peek {f : Option TokenKind → Parser β} (hf : Leaves (f w.head?) w post) :
    Leaves (Parser.peek >>= f) w post := by
  rintro s rfl
  obtain ⟨b, s', hb, hpost⟩ := hf rfl
  refine ⟨b, s', bind_eq_ok.mpr ⟨_, s, rfl, ?_⟩, hpost⟩
  simpa [State.words] using hb

theorem accept {kind : TokenKind} {f : Bool → Parser β} (hf : Leaves (f true) w post) :
    Leaves (Parser.accept kind >>= f) (kind :: w) post := by
  intro s hs
  obtain ⟨t, rest, hrest, hkind, hw⟩ := State.exists_of_words hs
  obtain ⟨b, s', hb, hpost⟩ := hf hw
  refine ⟨b, s', bind_eq_ok.mpr ⟨true, s.advance t rest, ?_, hb⟩, hpost⟩
  simp [accept_eq, hrest, hkind]

theorem skip {kind : TokenKind} {f : Bool → Parser β} (hw : HeadNotIn [kind] w)
    (hf : Leaves (f false) w post) : Leaves (Parser.accept kind >>= f) w post := by
  rintro s rfl
  obtain ⟨b, s', hb, hpost⟩ := hf rfl
  refine ⟨b, s', bind_eq_ok.mpr ⟨false, s, ?_, hb⟩, hpost⟩
  rw [accept_eq]
  cases hrest : s.rest with
  | nil => rfl
  | cons t rest =>
      have hne : t.kind ≠ kind := by
        have := hw t.kind (by simp [State.words, hrest])
        simpa using this
      simp [hne]

theorem operator {ops : List BinaryOp} {op : BinaryOp} {f : Option BinaryOp → Parser β}
    (hop : op ∈ ops) (hf : Leaves (f (some op)) w post) :
    Leaves (Parser.operator? ops >>= f) (.symbol op.symbol :: w) post := by
  intro s hs
  obtain ⟨t, rest, hrest, hkind, hw⟩ := State.exists_of_words hs
  obtain ⟨b, s', hb, hpost⟩ := hf hw
  refine ⟨b, s', bind_eq_ok.mpr ⟨some op, s.advance t rest, ?_, hb⟩, hpost⟩
  have hinj : ∀ a b : BinaryOp, a.symbol = b.symbol → a = b := by
    intro a b h
    cases a <;> cases b <;> first | rfl | cases h
  have hfind : (ops.find? fun o => t.kind = .symbol o.symbol) = some op := by
    cases hfound : ops.find? fun o => t.kind = .symbol o.symbol with
    | none => exact absurd (List.find?_eq_none.mp hfound op hop) (by simp [hkind])
    | some o =>
        have ho : t.kind = .symbol o.symbol := by simpa using List.find?_some hfound
        rw [hkind] at ho
        rw [hinj o op (by simpa using ho.symm)]
  simp [operator?_eq, hrest, hfind]

theorem noOperator {ops : List BinaryOp} {f : Option BinaryOp → Parser β}
    (hw : HeadNotIn (ops.map fun op => .symbol op.symbol) w) (hf : Leaves (f none) w post) :
    Leaves (Parser.operator? ops >>= f) w post := by
  rintro s rfl
  obtain ⟨b, s', hb, hpost⟩ := hf rfl
  refine ⟨b, s', bind_eq_ok.mpr ⟨none, s, ?_, hb⟩, hpost⟩
  rw [operator?_eq]
  cases hrest : s.rest with
  | nil => rfl
  | cons t rest =>
      have hnone : (ops.find? fun o => t.kind = .symbol o.symbol) = none := by
        have := hw t.kind (by simp [State.words, hrest])
        simp only [List.mem_map, not_exists, not_and] at this
        exact List.find?_eq_none.mpr fun op hop => by simpa using Ne.symm (this op hop)
      simp [hnone]

/-! ## Repetition -/

section Repetition

variable {D : α → Words → Prop} {item : Parser α} {as : List α} {v : Words} {n : Nat}

theorem optionalAfter {kind : TokenKind} {o : Option α} (h : OptionalAfter kind D o v)
    (hitem : ∀ {a u}, D a u → v = kind :: u → Leaves item (u ++ w) (· = w))
    (hw : HeadNotIn [kind] w) : Leaves (Parser.optionalAfter kind item) (v ++ w) (· = w) := by
  cases h with
  | none => exact skip hw (pure rfl)
  | some ha => exact accept ((hitem ha rfl).andThen fun _ => pure rfl)

theorem sepBy (hitem : ∀ {a u w}, D a u → Stops w → (u ++ w).length ≤ n →
      Leaves item (u ++ w) (· = w))
    (h : SepBy D (.symbol .comma) as v) (hw : Stops w) (hcomma : HeadNotIn [.symbol .comma] w)
    (hlen : (v ++ w).length ≤ n) : Leaves (Parser.sepBy item .comma) (v ++ w) (· = w) := by
  have hN : ∀ fuel, v.length ≤ fuel → Leaves (Parser.sepByN item .comma fuel) (v ++ w) (· = w) := by
    induction h with
    | one ha =>
        intro fuel _
        cases fuel with
        | zero => exact (hitem ha hw hlen).andThen fun _ => pure rfl
        | succ fuel => exact (hitem ha hw hlen).andThen fun _ => skip hcomma (pure rfl)
    | more ha _ ih =>
        intro fuel hfuel
        simp only [List.append_assoc, List.cons_append, List.length_append, List.length_cons]
          at hlen hfuel ⊢
        cases fuel with
        | zero => omega
        | succ fuel =>
            refine (hitem ha (by simp [HeadNotIn, continuing]) ?_).andThen fun _ => accept ?_
            · simp only [List.length_append, List.length_cons]; omega
            · refine (ih ?_ fuel ?_).andThen fun _ => pure rfl
              · simp only [List.length_append]; omega
              · omega
  exact ofFuel (hN _ (by simp only [List.length_append]; omega))

/-- Items in parentheses, none of which starts like the closing one. -/
theorem sepByBefore (hitem : ∀ {a u w}, D a u → Stops w → (u ++ w).length ≤ n →
      Leaves item (u ++ w) (· = w))
    (hhead : ∀ {a u}, D a u → ∃ t v, u = t :: v ∧ t ≠ .symbol .rparen)
    (h : Listed D as v) (hlen : (v ++ .symbol .rparen :: w).length ≤ n) :
    Leaves (Parser.sepByBefore item .comma .rparen) (v ++ .symbol .rparen :: w)
      (· = .symbol .rparen :: w) := by
  refine peek ?_
  cases h with
  | none => exact pure rfl
  | some h =>
      have hne : (v ++ .symbol .rparen :: w).head? ≠ some (.symbol .rparen) := by
        cases h with
        | one ha | more ha =>
            obtain ⟨t, _, rfl, ht⟩ := hhead ha
            simpa using ht
      rw [if_neg hne]
      exact sepBy hitem h (by simp [HeadNotIn, continuing]) (by simp [HeadNotIn]) hlen

/-- The items end with semicolons, and none starts like the closing word. -/
theorem someUntil {close : TokenKind}
    (hitem : ∀ {a u w}, D a u → (u ++ .symbol .semi :: w).length ≤ n →
      Leaves item (u ++ .symbol .semi :: w) (· = w))
    (hhead : ∀ {a u}, D a u → ∃ t v, u = t :: v ∧ t ≠ close)
    (h : Ended D as v) (hne : as ≠ []) (hlen : (v ++ close :: w).length ≤ n) :
    Leaves (Parser.someUntil item close) (v ++ close :: w) (· = w) := by
  have hN : ∀ fuel, v.length < fuel →
      Leaves (Parser.someUntilN item close fuel) (v ++ close :: w) (· = w) := by
    induction h with
    | nil => exact absurd rfl hne
    | cons ha hrest ih =>
        intro fuel hfuel
        simp only [List.append_assoc, List.cons_append, List.length_append, List.length_cons]
          at hlen hfuel ⊢
        cases fuel with
        | zero => omega
        | succ fuel =>
            refine (hitem ha ?_).andThen fun _ => ?_
            · simp only [List.length_append, List.length_cons]; omega
            · cases hrest with
              | nil => exact accept (pure rfl)
              | cons hb hrest =>
                  obtain ⟨t, v, rfl, ht⟩ := hhead hb
                  refine skip (by simpa [HeadNotIn] using ht) ?_
                  refine (ih (by simp) ?_ fuel ?_).andThen fun _ => pure rfl
                  · simp only [List.length_append, List.length_cons] at hlen ⊢; omega
                  · omega
  exact ofFuel (hN _ (by simp only [List.length_append, List.length_cons]; omega))

theorem manyBefore {close : TokenKind}
    (hitem : ∀ {a u w}, D a u → (u ++ .symbol .semi :: w).length ≤ n →
      Leaves item (u ++ .symbol .semi :: w) (· = w))
    (hhead : ∀ {a u}, D a u → ∃ t v, u = t :: v ∧ t ≠ close)
    (h : Ended D as v) (hlen : (v ++ close :: w).length ≤ n) :
    Leaves (Parser.manyBefore item close) (v ++ close :: w) (· = close :: w) := by
  have hN : ∀ fuel, v.length < fuel →
      Leaves (Parser.manyBeforeN item close fuel) (v ++ close :: w) (· = close :: w) := by
    induction h with
    | nil =>
        intro fuel hfuel
        cases fuel with
        | zero => omega
        | succ fuel =>
            refine peek ?_
            simp only [List.nil_append, List.head?_cons, ↓reduceIte]
            exact pure rfl
    | cons ha _ ih =>
        intro fuel hfuel
        obtain ⟨t, u, rfl, ht⟩ := hhead ha
        cases fuel with
        | zero => omega
        | succ fuel =>
            refine peek ?_
            simp only [List.append_assoc, List.cons_append, List.length_append, List.length_cons,
              List.head?_cons, if_neg ht] at hlen hfuel ⊢
            refine (hitem ha ?_).andThen fun _ => (ih ?_ fuel ?_).andThen fun _ => pure rfl
            · simp only [List.length_append, List.length_cons]; omega
            · simp only [List.length_append, List.length_cons]; omega
            · omega
  exact ofFuel (hN _ (by simp only [List.length_append, List.length_cons]; omega))

end Repetition

end Leaves

/-! ## Expressions

A parser of a level is complete up to `n` if it reads every expression of that level that stands, with
a tail, in at most `n` words, and leaves a tail with which the level does not go on. -/

def Complete (r : Words) (l : Level) (p : Parser Expr) (n : Nat) : Prop :=
  ∀ ⦃x u k w⦄, Derives l x u → Tail r k w → (u ++ w).length ≤ n →
    Leaves p (u ++ w) fun w' => Tail r k w' ∧ HeadNotIn (goesOn l) w'

theorem tail_head {r w : Words} {k : Nat} (hr : Stops r) (h : Tail r k w) :
    HeadNotIn [.symbol .lparen, .symbol .assign] w := by
  cases h with
  | stop => exact hr.mono (by decide)
  | call | staticCall => simp [HeadNotIn]
  | mul hop | add hop | compare hop => exact .operator hop (by decide)

section Parts

variable {e : Parser Expr} {n : Nat} (he : ∀ r, Stops r → Complete r .expr e n)
include he

/-- An expression with a word behind it that does not continue it. -/
theorem closed {x : Expr} {u r : Words} (hx : Derives .expr x u) (hr : Stops r)
    (hlen : (u ++ r).length ≤ n) : Leaves e (u ++ r) (· = r) :=
  (he r hr hx (k := 0) .stop hlen).mono fun _ hw => hw.1.eq_of_zero hw.2

theorem arguments_leaves {args : List Expr} {v w : Words} (h : Listed (Derives .expr) args v)
    (hlen : (v ++ .symbol .rparen :: w).length ≤ n) :
    Leaves (arguments e) (.symbol .lparen :: v ++ .symbol .rparen :: w) (· = w) := by
  refine (Leaves.expectSymbol _ _).andThen fun _ => ?_
  refine (Leaves.sepByBefore (closed he) ?_ h hlen).andThen fun _ => ?_
  · intro _ _ hx
    obtain ⟨t, v, rfl, ht⟩ := hx.head
    refine ⟨t, v, rfl, ?_⟩
    rintro rfl
    simp [openers, StartsAtom] at ht
  · exact (Leaves.expectSymbol _ _).andThen fun _ => .pure rfl

theorem binding_leaves {b : Binder × Option Expr} {u w : Words} (h : Binding (Derives .expr) b u)
    (hw : Stops w) (hlen : (u ++ w).length ≤ n) : Leaves (binding e) (u ++ w) (· = w) := by
  cases h with
  | mk hinit =>
      refine (Leaves.identifier _ _).andThen fun _ => (Leaves.expectSymbol _ _).andThen fun _ => ?_
      refine (Leaves.typeName _ _).andThen fun _ => ?_
      refine (Leaves.optionalAfter hinit ?_ (hw.mono (by decide))).andThen fun _ => ?_
      · rintro _ _ hx rfl
        exact closed he hx hw (by simp at hlen ⊢; omega)
      · exact Leaves.freshId.andThen fun _ => (Leaves.spanFrom _).andThen fun _ => .pure rfl

theorem arm_leaves {a : Binder × Expr} {u w : Words} (h : Arm (Derives .expr) a u)
    (hlen : (u ++ .symbol .semi :: w).length ≤ n) :
    Leaves (arm e) (u ++ .symbol .semi :: w) (· = w) := by
  cases h with
  | mk hx =>
      refine (Leaves.identifier _ _).andThen fun _ => (Leaves.expectSymbol _ _).andThen fun _ => ?_
      refine (Leaves.typeName _ _).andThen fun _ => (Leaves.expectSymbol _ _).andThen fun _ => ?_
      refine (closed he hx (by simp [HeadNotIn, continuing]) (by simp at hlen ⊢; omega)).andThen
        fun _ => (Leaves.expectSymbol _ _).andThen fun _ => Leaves.freshId.andThen fun _ => ?_
      exact (Leaves.spanFrom _).andThen fun _ => .pure rfl

theorem statement_leaves {x : Expr} {u w : Words} (hx : Derives .expr x u)
    (hlen : (u ++ .symbol .semi :: w).length ≤ n) :
    Leaves (statement e) (u ++ .symbol .semi :: w) (· = w) :=
  (closed he hx (by simp [HeadNotIn, continuing]) hlen).andThen fun _ =>
    (Leaves.expectSymbol _ _).andThen fun _ => .pure rfl

/-! ### Atoms -/

theorem conditional_leaves {a b c : Expr} {u v w r : Words} (start : Nat) (ha : Derives .expr a u)
    (hb : Derives .expr b v) (hc : Derives .expr c w)
    (hlen : (u ++ .keyword .thenKw :: (v ++ .keyword .elseKw :: (w ++ .keyword .fiKw :: r))).length ≤ n) :
    Leaves (conditional e start)
      (u ++ .keyword .thenKw :: (v ++ .keyword .elseKw :: (w ++ .keyword .fiKw :: r))) (· = r) := by
  refine (closed he ha (by simp [HeadNotIn, continuing]) hlen).andThen fun _ => ?_
  refine (Leaves.expectKeyword _ _).andThen fun _ => ?_
  refine (closed he hb (by simp [HeadNotIn, continuing]) (by simp at hlen ⊢; omega)).andThen fun _ => ?_
  refine (Leaves.expectKeyword _ _).andThen fun _ => ?_
  refine (closed he hc (by simp [HeadNotIn, continuing]) (by simp at hlen ⊢; omega)).andThen fun _ => ?_
  exact (Leaves.expectKeyword _ _).andThen fun _ => (Leaves.spanFrom _).andThen fun _ => .pure rfl

theorem whileLoop_leaves {a b : Expr} {u v r : Words} (start : Nat) (ha : Derives .expr a u)
    (hb : Derives .expr b v)
    (hlen : (u ++ .keyword .loopKw :: (v ++ .keyword .poolKw :: r)).length ≤ n) :
    Leaves (whileLoop e start) (u ++ .keyword .loopKw :: (v ++ .keyword .poolKw :: r)) (· = r) := by
  refine (closed he ha (by simp [HeadNotIn, continuing]) hlen).andThen fun _ => ?_
  refine (Leaves.expectKeyword _ _).andThen fun _ => ?_
  refine (closed he hb (by simp [HeadNotIn, continuing]) (by simp at hlen ⊢; omega)).andThen fun _ => ?_
  exact (Leaves.expectKeyword _ _).andThen fun _ => (Leaves.spanFrom _).andThen fun _ => .pure rfl

/-- The body of a `let` takes from the tail behind it what it can. -/
theorem letExpr_leaves {r : Words} (hr : Stops r) {bindings : List (Binder × Option Expr)}
    {body : Expr} {u v w : Words} {k : Nat} (start : Nat)
    (hbindings : SepBy (Binding (Derives .expr)) (.symbol .comma) bindings u)
    (hbody : Derives .expr body v) (hw : Tail r k w)
    (hlen : (u ++ .keyword .inKw :: (v ++ w)).length ≤ n) :
    Leaves (letExpr e start) (u ++ .keyword .inKw :: (v ++ w)) (Tail r k) := by
  refine (Leaves.sepBy (binding_leaves he) hbindings (by simp [HeadNotIn, continuing])
    (by simp [HeadNotIn]) hlen).andThen fun _ => (Leaves.expectKeyword _ _).andThen fun _ => ?_
  refine (he r hr hbody hw (by simp at hlen ⊢; omega)).bind fun _ w' hw' => ?_
  exact (Leaves.spanFrom _).andThen fun _ => .pure hw'.1

theorem caseExpr_leaves {x : Expr} {arms : List (Binder × Expr)} {u v r : Words} (start : Nat)
    (hx : Derives .expr x u) (harms : Ended (Arm (Derives .expr)) arms v) (hne : arms ≠ [])
    (hlen : (u ++ .keyword .ofKw :: (v ++ .keyword .esacKw :: r)).length ≤ n) :
    Leaves (caseExpr e start) (u ++ .keyword .ofKw :: (v ++ .keyword .esacKw :: r)) (· = r) := by
  refine (closed he hx (by simp [HeadNotIn, continuing]) hlen).andThen fun _ => ?_
  refine (Leaves.expectKeyword _ _).andThen fun _ => ?_
  refine (Leaves.someUntil (arm_leaves he) ?_ harms hne (by simp at hlen ⊢; omega)).andThen fun _ => ?_
  · rintro _ _ ⟨⟩
    exact ⟨_, _, rfl, by simp⟩
  · exact (Leaves.spanFrom _).andThen fun _ => .pure rfl

theorem parenthesized_leaves {x : Expr} {u r : Words} (start : Nat) (hx : Derives .expr x u)
    (hlen : (u ++ .symbol .rparen :: r).length ≤ n) :
    Leaves (parenthesized e start) (u ++ .symbol .rparen :: r) (· = r) := by
  refine (closed he hx (by simp [HeadNotIn, continuing]) hlen).andThen fun _ => ?_
  exact (Leaves.expectSymbol _ _).andThen fun _ => (Leaves.spanFrom _).andThen fun _ => .pure rfl

theorem blockExpr_leaves {es : List Expr} {u r : Words} (start : Nat)
    (hes : Ended (Derives .expr) es u) (hne : es ≠ [])
    (hlen : (u ++ .symbol .rbrace :: r).length ≤ n) :
    Leaves (blockExpr e start) (u ++ .symbol .rbrace :: r) (· = r) := by
  refine (Leaves.someUntil (statement_leaves he) ?_ hes hne hlen).andThen fun _ => ?_
  · intro _ _ hx
    obtain ⟨t, v, rfl, ht⟩ := hx.head
    refine ⟨t, v, rfl, ?_⟩
    rintro rfl
    simp [openers, StartsAtom] at ht
  · exact (Leaves.spanFrom _).andThen fun _ => .pure rfl

omit he in
/-- The first word tells which atom follows. -/
theorem atom_leaves {kind : TokenKind} {w : Words} {post : Words → Prop} {p : Token → Parser Expr}
    (hatom : ∀ s t rest, s.rest = t :: rest → t.kind = kind → atom e s = p t (s.advance t rest))
    (hp : ∀ t, Leaves (p t) w post) : Leaves (atom e) (kind :: w) post := by
  intro s hs
  obtain ⟨t, rest, hrest, hkind, hw⟩ := State.exists_of_words hs
  rw [hatom s t rest hrest hkind]
  exact hp t hw

theorem atom_complete {r : Words} (hr : Stops r) : Complete r .atom (atom e) (n + 1) := by
  intro x u k w hx hw hlen
  suffices h : Leaves (atom e) (u ++ w) (Tail r k) from
    h.mono fun _ hw' => ⟨hw', by simp [HeadNotIn, goesOn]⟩
  have hdone : ∀ w', w' = w → Tail r k w' := fun _ h => h ▸ hw
  cases hx with
  | cond ha hb hc =>
      simp only [List.append_assoc, List.cons_append, List.nil_append, List.length_cons,
        Nat.add_le_add_iff_right] at hlen ⊢
      refine atom_leaves (fun _ _ _ hrest hkind => by simp [atom_eq, hrest, hkind]) fun t =>
        (conditional_leaves he t.span.start ha hb hc hlen).mono hdone
  | loop ha hb =>
      simp only [List.append_assoc, List.cons_append, List.nil_append, List.length_cons,
        Nat.add_le_add_iff_right] at hlen ⊢
      refine atom_leaves (fun _ _ _ hrest hkind => by simp [atom_eq, hrest, hkind]) fun t =>
        (whileLoop_leaves he t.span.start ha hb hlen).mono hdone
  | letIn hbindings hbody =>
      simp only [List.append_assoc, List.cons_append, List.length_cons,
        Nat.add_le_add_iff_right] at hlen ⊢
      refine atom_leaves (fun _ _ _ hrest hkind => by simp [atom_eq, hrest, hkind]) fun t =>
        letExpr_leaves he hr t.span.start hbindings hbody hw hlen
  | caseOf ha harms hne =>
      simp only [List.append_assoc, List.cons_append, List.nil_append, List.length_cons,
        Nat.add_le_add_iff_right] at hlen ⊢
      refine atom_leaves (fun _ _ _ hrest hkind => by simp [atom_eq, hrest, hkind]) fun t =>
        (caseExpr_leaves he t.span.start ha harms hne hlen).mono hdone
  | new =>
      refine atom_leaves (p := fun t => newExpr t.span.start)
        (fun _ _ _ hrest hkind => by simp [atom_eq, hrest, hkind]) fun t => ?_
      exact (Leaves.typeName _ _).andThen fun _ => (Leaves.spanFrom _).andThen fun _ => .pure hw
  | paren ha =>
      simp only [List.append_assoc, List.cons_append, List.nil_append, List.length_cons,
        Nat.add_le_add_iff_right] at hlen ⊢
      refine atom_leaves (fun _ _ _ hrest hkind => by simp [atom_eq, hrest, hkind]) fun t =>
        (parenthesized_leaves he t.span.start ha hlen).mono hdone
  | block hes hne =>
      simp only [List.append_assoc, List.cons_append, List.nil_append, List.length_cons,
        Nat.add_le_add_iff_right] at hlen ⊢
      refine atom_leaves (fun _ _ _ hrest hkind => by simp [atom_eq, hrest, hkind]) fun t =>
        (blockExpr_leaves he t.span.start hes hne hlen).mono hdone
  | @ident _ name =>
      refine atom_leaves (p := fun t => nameOrCall e name t.span)
        (fun _ _ _ hrest hkind => by simp [atom_eq, hrest, hkind]) fun t => Leaves.peek ?_
      have hne : w.head? ≠ some (.symbol .lparen) := fun h =>
        tail_head hr hw _ h List.mem_cons_self
      change Leaves (if w.head? = some (.symbol .lparen) then _ else _) w _
      rw [if_neg hne]
      exact .pure hw
  | @selfCall _ name _ _ hargs =>
      simp only [List.append_assoc, List.cons_append, List.nil_append, List.length_cons,
        Nat.add_le_add_iff_right] at hlen ⊢
      refine atom_leaves (p := fun t => nameOrCall e name t.span)
        (fun _ _ _ hrest hkind => by simp [atom_eq, hrest, hkind]) fun t => Leaves.peek ?_
      rw [List.head?_cons, if_pos rfl]
      refine (arguments_leaves he hargs (Nat.le_of_succ_le hlen)).andThen fun _ => ?_
      exact (Leaves.spanFrom _).andThen fun _ => .pure hw
  | int =>
      exact atom_leaves (p := fun t => pure (.int t.span _))
        (fun _ _ _ hrest hkind => by simp [atom_eq, hrest, hkind]; rfl) fun t => .pure hw
  | str =>
      exact atom_leaves (p := fun t => pure (.str t.span _))
        (fun _ _ _ hrest hkind => by simp [atom_eq, hrest, hkind]; rfl) fun t => .pure hw
  | @bool _ b =>
      exact atom_leaves (p := fun t => pure (.bool t.span b))
        (fun _ _ _ hrest hkind => by cases b <;> simp [atom_eq, hrest, hkind] <;> rfl) fun t => .pure hw

/-! ### Levels -/

omit he in
theorem callsN_stop {r w : Words} {k : Nat} (fuel : Nat) (x : Expr) (hw : Tail r k w)
    (hhead : HeadNotIn (goesOn .postfixed) w) :
    Leaves (callsN e fuel x) w fun w' => Tail r k w' ∧ HeadNotIn (goesOn .postfixed) w' := by
  cases fuel with
  | zero => exact .pure ⟨hw, hhead⟩
  | succ fuel =>
      exact .skip (hhead.mono (by decide)) (.skip (hhead.mono (by decide)) (.pure ⟨hw, hhead⟩))

theorem callsN_leaves {r : Words} (hr : Stops r) {k : Nat} {w : Words} (hw : Tail r k w)
    (hlen : w.length ≤ n) {fuel : Nat} (hfuel : w.length ≤ fuel) (x : Expr) :
    Leaves (callsN e fuel x) w fun w' => Tail r k w' ∧ HeadNotIn (goesOn .postfixed) w' := by
  induction hw generalizing fuel x with
  | stop => exact callsN_stop _ _ .stop (hr.mono (by decide))
  | mul hop hy hw => exact callsN_stop _ _ (.mul hop hy hw) (.operator hop (by decide))
  | add hop hy hw => exact callsN_stop _ _ (.add hop hy hw) (.operator hop (by decide))
  | compare hop hy hw => exact callsN_stop _ _ (.compare hop hy hw) (.operator hop (by decide))
  | call hargs _ ih =>
      simp only [List.cons_append, List.length_append, List.length_cons] at hlen hfuel
      cases fuel with
      | zero => omega
      | succ fuel =>
          refine Leaves.accept ((Leaves.identifier _ _).andThen fun _ => ?_)
          refine (arguments_leaves he hargs ?_).andThen fun _ => (Leaves.spanFrom _).andThen fun _ => ?_
          · simp only [List.length_append, List.length_cons]; omega
          · exact ih (by omega) (by omega) _
  | staticCall hargs _ ih =>
      simp only [List.cons_append, List.length_append, List.length_cons] at hlen hfuel
      cases fuel with
      | zero => omega
      | succ fuel =>
          refine Leaves.skip (by simp [HeadNotIn]) (Leaves.accept ?_)
          refine (Leaves.typeName _ _).andThen fun _ => (Leaves.expectSymbol _ _).andThen fun _ => ?_
          refine (Leaves.identifier _ _).andThen fun _ => ?_
          refine (arguments_leaves he hargs ?_).andThen fun _ => (Leaves.spanFrom _).andThen fun _ => ?_
          · simp only [List.length_append, List.length_cons]; omega
          · exact ih (by omega) (by omega) _

end Parts

/-- A parser of expressions leaves fewer words than it was given. -/
theorem Leaves.length_lt {l : Level} {p : Parser Expr} {w : Words} {post : Words → Prop}
    (h : Leaves p w post) (hreads : Reads p (Derives l)) :
    Leaves p w fun w' => post w' ∧ w'.length < w.length := by
  rintro s rfl
  obtain ⟨a, s', ha, hpost⟩ := h rfl
  obtain ⟨u, hu, hd⟩ := hreads ha
  have hpos : 0 < u.length := List.length_pos_iff.mpr hd.ne_nil
  exact ⟨a, s', ha, hpost, by rw [hu, List.length_append]; omega⟩

section Levels

variable {n : Nat} {r : Words}

/-- An operator in front of its operand, which is of the level `l'`. -/
theorem unary_complete {kind : TokenKind} {op : UnaryOp} {operand : Parser Expr} {l l' : Level}
    (hoperand : Complete r l' operand n) (hgoes : goesOn l = goesOn l')
    (hcases : ∀ {x u}, Derives l x u → (∃ y v, u = kind :: v ∧ Derives l y v) ∨ Derives l' x u)
    (hkind : kind ∉ openers l') (hatom : ¬ StartsAtom kind) :
    Complete r l (unary kind op operand) n := by
  intro x u k w hx hw hlen
  have hN : ∀ fuel {x u}, Derives l x u → (u ++ w).length ≤ n → u.length ≤ fuel →
      Leaves (unaryN kind op operand fuel) (u ++ w) fun w' => Tail r k w' ∧ HeadNotIn (goesOn l) w' := by
    intro fuel
    induction fuel with
    | zero =>
        intro x u hx _ hfuel
        exact absurd (List.length_eq_zero_iff.mp (Nat.le_zero.mp hfuel)) hx.ne_nil
    | succ fuel ih =>
        intro x u hx hlen hfuel s hs
        rw [unaryN_succ_eq]
        rcases hcases hx with ⟨y, v, rfl, hy⟩ | hx'
        · obtain ⟨t, rest, hrest, ht, hwords⟩ := State.exists_of_words hs
          simp only [List.cons_append, List.length_cons] at hlen hfuel
          obtain ⟨a, s', ha, hpost⟩ := ih hy (by omega) (by omega) hwords
          exact ⟨.unary ⟨t.span.start, a.span.stop⟩ op a, s', by simp [hrest, ht, ha], hpost⟩
        · obtain ⟨c, v, rfl, hc⟩ := hx'.head
          obtain ⟨t, rest, hrest, ht, hwords⟩ := State.exists_of_words hs
          have hne : t.kind ≠ kind := by
            rintro rfl
            rcases hc with hc | hc
            · exact hkind (ht ▸ hc)
            · exact hatom (ht ▸ hc)
          obtain ⟨a, s', ha, hpost⟩ := hoperand hx' hw hlen hs
          exact ⟨a, s', by simpa [hrest, hne] using ha, hgoes ▸ hpost⟩
  exact .ofFuel (hN _ hx hlen (by simp))

/-- A chain of operators, where `l` is the level of the chain and `l'` that of its operands. -/
theorem chain_complete {ops : List BinaryOp} {operand : Parser Expr} {l l' : Level}
    (hreads : Reads operand (Derives l')) (hoperand : Complete r l' operand n)
    (hstarts : ∀ {x u}, Derives l x u → StartsWith l' u)
    (hcases : ∀ {k w}, Tail r k w → HeadNotIn (goesOn l') w → HeadNotIn (goesOn l) w ∨
      ∃ op ∈ ops, ∃ y v w', Derives l' y v ∧ Tail r k w' ∧ w = .symbol op.symbol :: v ++ w')
    (hops : ∀ op ∈ ops, TokenKind.symbol op.symbol ∈ goesOn l) :
    Complete r l (chain ops operand) n := by
  have hN : ∀ fuel {k w} (left : Expr), Tail r k w → HeadNotIn (goesOn l') w → w.length ≤ n →
      w.length ≤ fuel →
      Leaves (chainN ops operand fuel left) w fun w' => Tail r k w' ∧ HeadNotIn (goesOn l) w' := by
    intro fuel
    induction fuel with
    | zero =>
        intro k w left hw _ _ hfuel
        have hnil : w = [] := List.length_eq_zero_iff.mp (Nat.le_zero.mp hfuel)
        exact .pure ⟨hw, by simp [hnil, HeadNotIn]⟩
    | succ fuel ih =>
        intro k w left hw hhead hlen hfuel
        rcases hcases hw hhead with hhead | ⟨op, hop, y, v, w', hy, hw', rfl⟩
        · refine .noOperator ?_ (.pure ⟨hw, hhead⟩)
          refine hhead.mono fun t ht => ?_
          obtain ⟨op, hop, rfl⟩ := List.mem_map.mp ht
          exact hops op hop
        · simp only [List.cons_append, List.length_cons] at hlen hfuel ⊢
          refine .operator hop (((hoperand hy hw' (by omega)).length_lt hreads).bind ?_)
          rintro right w'' ⟨⟨hw'', hhead⟩, hlt⟩
          exact ih _ hw'' hhead (by omega) (by omega)
  intro x u k w hx hw hlen
  obtain ⟨y, v, hy, hsplit⟩ := hstarts hx
  obtain ⟨w', hw', heq⟩ := hsplit r k w hw
  rw [heq] at hlen ⊢
  refine ((hoperand hy hw' hlen).length_lt hreads).bind ?_
  rintro left w'' ⟨⟨hw'', hhead⟩, hlt⟩
  exact Leaves.ofFuel (p := fun fuel => chainN ops operand fuel left)
    (hN _ left hw'' hhead (by omega) (Nat.le_refl _))

variable {e : Parser Expr} (hr : Stops r) (hreads : Reads e (Derives .expr))
  (he : ∀ r, Stops r → Complete r .expr e n)
include hr hreads he

theorem postfixed_complete : Complete r .postfixed (postfixed e) (n + 1) := by
  intro x u k w hx hw hlen
  obtain ⟨y, v, hy, hsplit⟩ := hx.startsWith_atom
  obtain ⟨w', hw', heq⟩ := hsplit r k w hw
  rw [heq] at hlen ⊢
  refine ((atom_complete he hr hy hw' hlen).length_lt (atom_reads hreads)).bind ?_
  rintro receiver w'' ⟨⟨hw'', _⟩, hlt⟩
  exact Leaves.ofFuel (p := fun fuel => callsN e fuel receiver)
    (callsN_leaves he hr hw'' (by omega) (Nat.le_refl _) receiver)

theorem factor_complete : Complete r .factor (factor e) (n + 1) := by
  have hnegated : Complete r .negated (negated e) (n + 1) := by
    refine unary_complete (postfixed_complete hr hreads he) rfl ?_ (by decide) (by simp [StartsAtom])
    intro x u hx
    cases hx with
    | negate hx => exact .inl ⟨_, _, rfl, hx⟩
    | ofPostfixed hx => exact .inr hx
  refine unary_complete hnegated rfl ?_ (by decide) (by simp [StartsAtom])
  intro x u hx
  cases hx with
  | isvoid hx => exact .inl ⟨_, _, rfl, hx⟩
  | ofNegated hx => exact .inr hx

theorem sum_complete : Complete r .sum (sum e) (n + 1) := by
  have hterm : Complete r .term (term e) (n + 1) := by
    refine chain_complete (factor_reads hreads) (factor_complete hr hreads he) Derives.startsWith_factor
      ?_ (by decide)
    intro k w hw hhead
    cases hw with
    | stop => exact .inl (hr.mono (by decide))
    | call | staticCall => exact absurd (hhead _ rfl) (by simp [goesOn])
    | mul hop hy hw => exact .inr ⟨_, hop, _, _, _, hy, hw, rfl⟩
    | add hop | compare hop => exact .inl (.operator hop (by decide))
  refine chain_complete (chain_reads (factor_reads hreads) .ofFactor .mul) hterm
    Derives.startsWith_term ?_ (by decide)
  intro k w hw hhead
  cases hw with
  | stop => exact .inl (hr.mono (by decide))
  | call | staticCall => exact absurd (hhead _ rfl) (by simp [goesOn])
  | mul hop => exact (hhead.not_operator hop (by decide)).elim
  | add hop hy hw => exact .inr ⟨_, hop, _, _, _, hy, hw, rfl⟩
  | compare hop => exact .inl (.operator hop (by decide))

/-- A comparison uses up one of those that the tail has room for. -/
theorem comparison_complete : Complete r .comparison (comparison e) (n + 1) := by
  have hsum : ∀ {x u k w}, Derives .sum x u → Tail r (k + 1) w → (u ++ w).length ≤ n + 1 →
      Leaves (comparison e) (u ++ w) fun w' => Tail r k w' ∧ HeadNotIn (goesOn .comparison) w' := by
    intro x u k w hx hw hlen
    refine ((sum_complete hr hreads he hx hw hlen).length_lt (sum_reads hreads)).bind ?_
    rintro left w' ⟨⟨hw', hhead⟩, hlt⟩
    cases hw' with
    | stop => exact .noOperator (hr.mono (by decide)) (.pure ⟨.stop, hhead⟩)
    | call | staticCall => exact absurd (hhead _ rfl) (by simp [goesOn])
    | mul hop | add hop => exact (hhead.not_operator hop (by decide)).elim
    | compare hop hy hw' =>
        simp only [List.cons_append, List.length_cons] at hlt ⊢
        refine .operator hop ((sum_complete hr hreads he hy hw' (by omega)).bind ?_)
        exact fun right w'' hw'' => .pure hw''
  intro x u k w hx hw hlen
  cases hx with
  | compare hop hl hr =>
      rw [List.append_assoc] at hlen ⊢
      exact hsum hl (.compare hop hr hw) hlen
  | ofSum hx => exact hsum hx hw.succ hlen

theorem assignment_complete : Complete r .expr (assignment e) (n + 1) := by
  have hnegation : Complete r .negation (negation e) (n + 1) := by
    refine unary_complete (comparison_complete hr hreads he) rfl ?_ (by decide) (by simp [StartsAtom])
    intro x u hx
    cases hx with
    | not hx => exact .inl ⟨_, _, rfl, hx⟩
    | ofComparison hx => exact .inr hx
  intro x u k w hx hw hlen
  cases hx with
  | @assign _ name value v hx =>
      intro s hs
      obtain ⟨⟨_, place⟩, rest, hrest, rfl, hs⟩ := State.exists_of_words hs
      obtain ⟨⟨_, sign⟩, rest', hrest', rfl, hs⟩ := State.exists_of_words hs
      have hvalue : Leaves (do
          let value ← e
          return .assign (← spanFrom place.start) name value : Parser Expr) (v ++ w)
          fun w' => Tail r k w' ∧ HeadNotIn (goesOn .expr) w' := by
        simp only [List.cons_append, List.length_cons] at hlen
        exact (he r hr hx hw (by omega)).bind fun _ _ hw' => (Leaves.spanFrom _).andThen fun _ => .pure hw'
      simp only [State.advance] at hrest'
      rw [hrest'] at hrest
      simp only [assignment_eq, hrest]
      exact hvalue hs
  | ofNegation hx =>
      have hno : NoAssignment (u ++ w) :=
        (hx.noAssignment (by simp)).append hx.ne_nil ((tail_head hr hw).mono (by simp))
      intro s hs
      rw [assignment_eq]
      split
      · rename_i name place sign rest hrest
        exact absurd (hs.symm.trans (by simp [State.words, hrest])) (hno name (rest.map (·.kind)))
      · exact hnegation hx hw hlen hs

end Levels

theorem expr_complete {r : Words} (hr : Stops r) (n : Nat) : Complete r .expr expr n := by
  have hN : ∀ fuel r, Stops r → Complete r .expr (exprN fuel) fuel := by
    intro fuel
    induction fuel with
    | zero =>
        intro r _ x u k w hx _ hlen
        exact absurd (List.append_eq_nil_iff.mp (List.length_eq_zero_iff.mp (Nat.le_zero.mp hlen))).1
          hx.ne_nil
    | succ fuel ih => exact fun r hr => assignment_complete hr (exprN_reads fuel) ih
  intro x u k w hx hw _
  exact Leaves.ofFuel (p := fun fuel => exprN (fuel + 1)) (hN _ r hr hx hw (Nat.le_succ _))

/-- An expression with a word behind it that does not continue it. -/
theorem expr_leaves {x : Expr} {u r : Words} (hx : Derives .expr x u) (hr : Stops r) :
    Leaves expr (u ++ r) (· = r) :=
  closed (fun _ h => expr_complete h _) hx hr (Nat.le_refl _)

/-! ## Programs -/

theorem param_leaves {p : Param} {u w : Words} (h : DerivesParam p u) :
    Leaves param (u ++ w) (· = w) := by
  cases h
  refine (Leaves.identifier _ _).andThen fun _ => (Leaves.expectSymbol _ _).andThen fun _ => ?_
  exact (Leaves.typeName _ _).andThen fun _ => (Leaves.spanFrom _).andThen fun _ => .pure rfl

theorem attrDecl_leaves {a : AttrDecl} {u w : Words} (name : String) (start : Nat)
    (h : OptionalAfter (.symbol .assign) (Derives .expr) a.init u) (hw : Stops w) :
    Leaves (attrDecl name start) (.symbol .colon :: .typeName a.ty :: u ++ w) (· = w) := by
  refine (Leaves.expectSymbol _ _).andThen fun _ => (Leaves.typeName _ _).andThen fun _ => ?_
  refine (Leaves.optionalAfter h ?_ (hw.mono (by decide))).andThen fun _ => ?_
  · exact fun hx _ => expr_leaves hx hw
  · exact (Leaves.spanFrom _).andThen fun _ => .pure rfl

theorem methodDecl_leaves {m : MethodDecl} {u v w : Words} (name : String) (start : Nat)
    (hparams : Listed DerivesParam m.params u) (hbody : Derives .expr m.body v) :
    Leaves (methodDecl name start) (u ++ .symbol .rparen :: .symbol .colon :: .typeName m.ret ::
      .symbol .lbrace :: (v ++ .symbol .rbrace :: w)) (· = w) := by
  refine Leaves.freshId.andThen fun _ => ?_
  refine (Leaves.sepByBefore (fun hp _ _ => param_leaves hp) ?_ hparams (Nat.le_refl _)).andThen
    fun _ => ?_
  · rintro _ _ ⟨⟩
    exact ⟨_, _, rfl, by simp⟩
  refine (Leaves.expectSymbol _ _).andThen fun _ => (Leaves.expectSymbol _ _).andThen fun _ => ?_
  refine (Leaves.typeName _ _).andThen fun _ => (Leaves.expectSymbol _ _).andThen fun _ => ?_
  refine (expr_leaves hbody (by simp [HeadNotIn, continuing])).andThen fun _ => ?_
  exact (Leaves.expectSymbol _ _).andThen fun _ => (Leaves.spanFrom _).andThen fun _ => .pure rfl

theorem feature_leaves {f : Feature} {u w : Words} (h : DerivesFeature f u) (hw : Stops w) :
    Leaves feature (u ++ w) (· = w) := by
  cases h with
  | attr hinit =>
      refine (Leaves.identifier _ _).andThen fun _ => Leaves.skip (by simp [HeadNotIn]) ?_
      exact (attrDecl_leaves _ _ hinit hw).andThen fun _ => .pure rfl
  | method hparams hbody =>
      simp only [List.append_assoc, List.cons_append, List.nil_append]
      refine (Leaves.identifier _ _).andThen fun _ => Leaves.accept ?_
      exact (methodDecl_leaves _ _ hparams hbody).andThen fun _ => .pure rfl

theorem member_leaves {f : Feature} {u w : Words} (h : DerivesFeature f u) :
    Leaves member (u ++ .symbol .semi :: w) (· = w) := by
  refine (feature_leaves h (by simp [HeadNotIn, continuing])).andThen fun _ => ?_
  exact (Leaves.withHelp (Leaves.expectSymbol _ _)).andThen fun _ => .pure rfl

theorem classDecl_leaves {c : ClassDecl} {u w : Words} (h : DerivesClass c u) :
    Leaves classDecl (u ++ .symbol .semi :: w) (· = w) := by
  cases h with
  | mk hparent hfeatures =>
      simp only [List.append_assoc, List.cons_append, List.nil_append]
      refine (Leaves.expectKeyword _ _).andThen fun _ => Leaves.freshId.andThen fun _ => ?_
      refine (Leaves.typeName _ _).andThen fun _ => ?_
      refine (Leaves.optionalAfter hparent ?_ (by simp [HeadNotIn])).andThen fun _ => ?_
      · rintro _ _ ⟨⟩ _
        exact Leaves.typeName _ _
      refine (Leaves.expectSymbol _ _).andThen fun _ => ?_
      refine (Leaves.manyBefore (fun hf _ => member_leaves hf) ?_ hfeatures (Nat.le_refl _)).andThen
        fun _ => ?_
      · rintro _ _ (_ | _)
        · exact ⟨_, _, rfl, by simp⟩
        · exact ⟨_, _, rfl, by simp⟩
      refine (Leaves.expectSymbol _ _).andThen fun _ => ?_
      refine (Leaves.withHelp (Leaves.expectSymbol _ _)).andThen fun _ => ?_
      exact (Leaves.spanFrom _).andThen fun _ => .pure rfl

/-- Where all words are classes, no failure is met and as many classes are read. -/
theorem exists_classRun {classes : List ClassDecl} {w : Words} (h : Ended DerivesClass classes w)
    {n : Nat} (hn : w.length ≤ n) {s : State} (hs : s.words = w) :
    ∃ cs, ClassRun n s cs ∧ cs.length = classes.length := by
  induction h generalizing n s with
  | nil => exact ⟨[], .done (.inr (by simpa [State.words] using hs)), rfl⟩
  | @cons _ _ u _ hc _ ih =>
      cases n with
      | zero => simp at hn
      | succ n =>
          obtain ⟨c', s', hc', hs'⟩ := classDecl_leaves hc hs
          have hne : s.rest ≠ [] := by
            intro hrest
            simp [State.words, hrest] at hs
          simp only [List.length_append, List.length_cons] at hn
          obtain ⟨cs, hcs, hlength⟩ := ih (n := n) (by omega) hs'
          exact ⟨c' :: cs, .next hne hc' hcs, by simp [hlength]⟩

theorem program_accepts {input : TokenStream} {q : Program}
    (h : DerivesProgram q (input.tokens.map (·.kind))) : ∃ p, program input = .ok p := by
  cases h with
  | mk hclasses hne =>
      obtain ⟨cs, hrun, hlength⟩ := exists_classRun hclasses (n := input.tokens.length) (by simp)
        (s := ⟨input.tokens, 0, 0⟩) rfl
      refine ⟨⟨cs⟩, program_eq_ok.mpr ⟨hrun, ?_⟩⟩
      rintro rfl
      exact hne (List.length_eq_zero_iff.mp hlength.symm)

/-- The parser accepts exactly the programs of the grammar, and the program that it gives is a derivation
of the text. -/
theorem program_iff_derives (input : TokenStream) :
    ((∃ p, program input = .ok p) ↔ ∃ q, DerivesProgram q (input.tokens.map (·.kind))) ∧
      ∀ p, program input = .ok p → DerivesProgram p (input.tokens.map (·.kind)) :=
  ⟨⟨fun ⟨p, hp⟩ => ⟨p, program_reads hp⟩, fun ⟨_, hq⟩ => program_accepts hq⟩, fun _ => program_reads⟩

/-- A class with one method, whose body has the given words. -/
def methodTokens (body : Words) : TokenStream :=
  let words : Words :=
    [.keyword .classKw, .typeName "A", .symbol .lbrace, .identifier "f", .symbol .lparen,
      .symbol .rparen, .symbol .colon, .typeName "Bool", .symbol .lbrace] ++ body ++
      [.symbol .rbrace, .symbol .semi, .symbol .rbrace, .symbol .semi]
  ⟨words.map fun kind => ⟨kind, default⟩, 0⟩

def comparedTwice : Words :=
  [.identifier "x", .symbol .lt, .identifier "x", .symbol .lt, .identifier "x"]

def comparedInLet : Words :=
  [.keyword .letKw, .identifier "x", .symbol .colon, .typeName "Int", .keyword .inKw] ++ comparedTwice

/-- `x < x < x` is no expression, but a `let` in front of it takes the first comparison in. -/
theorem comparisons_derived :
    (∃ q, DerivesProgram q ((methodTokens comparedInLet).tokens.map (·.kind))) ∧
      ¬ ∃ q, DerivesProgram q ((methodTokens comparedTwice).tokens.map (·.kind)) := by
  constructor
  · have hok : (program (methodTokens comparedInLet)).isOk = true := by decide +kernel
    cases hp : program (methodTokens comparedInLet) with
    | error errors => simp [hp, Except.isOk, Except.toBool] at hok
    | ok p => exact ⟨p, (program_iff_derives _).2 p hp⟩
  · have hok : (program (methodTokens comparedTwice)).isOk = false := by decide +kernel
    intro hq
    obtain ⟨p, hp⟩ := (program_iff_derives _).1.mpr hq
    simp [hp, Except.isOk, Except.toBool] at hok

end Parser

end CoolTyping
