import CoolTyping.Proofs.Copies
import CoolTyping.Proofs.Partition
import CoolTyping.Proofs.Places

/-!
# Corresponding places

Two texts whose words differ in the names of types only are read alike: every class, feature and expression
takes the same tokens of the one as of the other. Tokens do not overlap, so the place of each construct is
told by its first and its last token.
-/

namespace CoolTyping

/-! ## Tokens of a text -/

/-- Where the token with number `i` starts. -/
def startAt (ts : List Token) (i : Nat) : Nat := (ts[i]?.map (·.span.start)).getD 0

/-- Where the first `j` tokens end. -/
def stopAt (ts : List Token) : Nat → Nat
  | 0 => 0
  | j + 1 => (ts[j]?.map (·.span.stop)).getD 0

theorem startAt_of_lt {ts : List Token} {i : Nat} (hi : i < ts.length) :
    startAt ts i = (ts.get ⟨i, hi⟩).span.start := by simp [startAt, hi]

theorem stopAt_succ_of_lt {ts : List Token} {j : Nat} (hj : j < ts.length) :
    stopAt ts (j + 1) = (ts.get ⟨j, hj⟩).span.stop := by simp [stopAt, hj]

namespace Laid

variable {ts : List Token} {i j : Nat}

theorem start_lt_stop (h : Laid ts) (hi : i < ts.length) : startAt ts i < stopAt ts (i + 1) := by
  rw [startAt_of_lt hi, stopAt_succ_of_lt hi]
  exact h.solid _ (List.get_mem ts _)

theorem stop_le_start (h : Laid ts) (hij : i ≤ j) (hj : j < ts.length) : stopAt ts i ≤ startAt ts j := by
  cases i with
  | zero => exact Nat.zero_le _
  | succ i =>
      rw [stopAt_succ_of_lt (by omega), startAt_of_lt hj]
      exact List.pairwise_iff_getElem.mp h.apart i j (by omega) hj hij

theorem stop_lt_stop (h : Laid ts) (hij : i < j) (hj : j ≤ ts.length) : stopAt ts i < stopAt ts j := by
  obtain ⟨j, rfl⟩ := Nat.exists_eq_succ_of_ne_zero (Nat.ne_zero_of_lt hij)
  exact Nat.lt_of_le_of_lt (h.stop_le_start (Nat.le_of_lt_succ hij) hj) (h.start_lt_stop hj)

theorem start_lt_start (h : Laid ts) (hij : i < j) (hj : j < ts.length) : startAt ts i < startAt ts j :=
  Nat.lt_of_lt_of_le (h.start_lt_stop (Nat.lt_trans hij hj)) (h.stop_le_start hij hj)

theorem start_lt_stop_of_lt (h : Laid ts) (hij : i < j) (hj : j ≤ ts.length) :
    startAt ts i < stopAt ts j := by
  have hstart := h.start_lt_stop (Nat.lt_of_lt_of_le hij hj)
  rcases Nat.lt_or_eq_of_le hij with hij | rfl
  · exact Nat.lt_trans hstart (h.stop_lt_stop hij hj)
  · exact hstart

theorem start_le_stop (h : Laid ts) (hij : i < j) (hj : j ≤ ts.length) : startAt ts i ≤ stopAt ts j :=
  Nat.le_of_lt (h.start_lt_stop_of_lt hij hj)

/-- The place of two runs of tokens of which one stands behind the other. -/
theorem join_eq {k m : Nat} (h : Laid ts) (hij : i < j) (hjk : j ≤ k) (hkm : k < m) (hm : m ≤ ts.length) :
    Span.join ⟨startAt ts i, stopAt ts j⟩ ⟨startAt ts k, stopAt ts m⟩ = ⟨startAt ts i, stopAt ts m⟩ := by
  have hstart := h.start_lt_start (Nat.lt_of_lt_of_le hij hjk) (Nat.lt_of_lt_of_le hkm hm)
  have hstop := h.stop_lt_stop (Nat.lt_of_le_of_lt hjk hkm) hm
  rw [Span.join, Nat.min_eq_left (Nat.le_of_lt hstart), Nat.max_eq_right (Nat.le_of_lt hstop)]

end Laid

namespace TokenKind

/-- The token is not the name of a type. -/
def Fixed (kind : TokenKind) : Prop := ∀ name, .typeName name ≠ kind

theorem fixed_symbol (sign : Symbol) : Fixed (.symbol sign) := nofun

theorem fixed_keyword (word : Keyword) : Fixed (.keyword word) := nofun

theorem fixed_identifier (name : String) : Fixed (.identifier name) := nofun

variable {Q : TypeName → TypeName → Prop} {a b kind : TokenKind}

theorem Copy.eq_iff (h : Copy Q a b) (hkind : kind.Fixed) : a = kind ↔ b = kind := by
  cases h with
  | same => exact Iff.rfl
  | type => exact iff_of_false (hkind _) (hkind _)

theorem Copy.eq_or (h : Copy Q a b) : (∃ name, a = .typeName name) ∨ b = a := by
  cases h with
  | same => exact Or.inr rfl
  | type => exact Or.inl ⟨_, rfl⟩

theorem eq_some_iff_of_rel {a b : Option TokenKind} (h : Option.Rel (Copy Q) a b) (hkind : kind.Fixed) :
    a = some kind ↔ b = some kind := by
  cases h with
  | none => exact Iff.rfl
  | some h => rw [Option.some_inj, Option.some_inj, h.eq_iff hkind]

end TokenKind

/-- The same tokens, or two names of types. -/
def Token.Alike (x y : Token) : Prop := TokenKind.Copy AnyTypes x.kind y.kind

/-! ## Two texts -/

/-- Two lists of tokens that differ in the names of types only. -/
structure Twins where
  left : List Token
  right : List Token
  left_laid : Laid left
  right_laid : Laid right
  alike : List.Forall₂ Token.Alike left right

namespace Twins

variable (T : Twins)

theorem length_eq : T.left.length = T.right.length := T.alike.length_eq

/-- The places are those of the tokens from number `i` up to number `j`. -/
structure Covers (i j : Nat) (s t : Span) : Prop where
  lt : i < j
  le : j ≤ T.left.length
  left_eq : s = ⟨startAt T.left i, stopAt T.left j⟩
  right_eq : t = ⟨startAt T.right i, stopAt T.right j⟩

/-- Some tokens are at these places. -/
def Corresponds (s t : Span) : Prop := ∃ i j, T.Covers i j s t

/-- The token with number `i` starts at these offsets. -/
structure Starts (i a b : Nat) : Prop where
  left_eq : a = startAt T.left i
  right_eq : b = startAt T.right i

variable {T}

theorem Covers.corresponds {i j : Nat} {s t : Span} (h : T.Covers i j s t) : T.Corresponds s t := ⟨i, j, h⟩

theorem Covers.starts {i j : Nat} {s t : Span} (h : T.Covers i j s t) : T.Starts i s.start t.start :=
  ⟨by rw [h.left_eq], by rw [h.right_eq]⟩

/-- Two constructs of which one stands behind the other. -/
theorem Covers.join {i j k m : Nat} {s t s' t' : Span} (h : T.Covers i j s t) (h' : T.Covers k m s' t')
    (hjk : j ≤ k) : T.Covers i m (s.join s') (t.join t') := by
  have hik : i < k := Nat.lt_of_lt_of_le h.lt hjk
  refine ⟨Nat.lt_trans hik h'.lt, h'.le, ?_, ?_⟩
  · rw [h.left_eq, h'.left_eq, T.left_laid.join_eq h.lt hjk h'.lt h'.le]
  · rw [h.right_eq, h'.right_eq, T.right_laid.join_eq h.lt hjk h'.lt (T.length_eq ▸ h'.le)]

/-! ## Parsers on two texts -/

open CoolTyping.Parser (State Failure)

variable {α β : Type}

variable (T) in
/-- The first `k` tokens of both texts have been read. -/
structure At (k : Nat) (s t : State) : Prop where
  le : k ≤ T.left.length
  left_rest : s.rest = T.left.drop k
  right_rest : t.rest = T.right.drop k
  left_stop : s.lastStop = stopAt T.left k
  right_stop : t.lastStop = stopAt T.right k
  nextId : s.nextId = t.nextId

variable (T) in
/-- The run `r` has read as many tokens as one that gave `a` and left `s`, at least `k`, and their results
are related by `R`. -/
def Answers (k : Nat) (R : Nat → α → α → Prop) (r : Except Failure (α × State)) (a : α) (s : State) :
    Prop :=
  ∃ m b t, r = .ok (b, t) ∧ k ≤ m ∧ T.At m s t ∧ R m a b

variable (T) in
/-- Behind the first `k` tokens, `q` succeeds where `p` succeeds, with as many tokens. The results are
related by `R`, which is also told how many tokens have been read. -/
def Tracks (k : Nat) (p q : Parser α) (R : Nat → α → α → Prop) : Prop :=
  ∀ ⦃s t⦄, T.At k s t → ∀ ⦃a s'⦄, p s = .ok (a, s') → T.Answers k R (q t) a s'

theorem Answers.mono {k m : Nat} {R : Nat → α → α → Prop} {r : Except Failure (α × State)} {a : α}
    {s : State} (h : T.Answers m R r a s) (hkm : k ≤ m) : T.Answers k R r a s := by
  obtain ⟨n, b, t, hr, hn, hst, hab⟩ := h
  exact ⟨n, b, t, hr, Nat.le_trans hkm hn, hst, hab⟩

theorem At.alike {k : Nat} {s t : State} (h : T.At k s t) : List.Forall₂ Token.Alike s.rest t.rest := by
  rw [h.left_rest, h.right_rest]
  exact List.forall₂_drop k T.alike

theorem At.cons {k : Nat} {s t : State} (h : T.At k s t) {x y : Token} {rest rest' : List Token}
    (hs : s.rest = x :: rest) (ht : t.rest = y :: rest') :
    T.Covers k (k + 1) x.span y.span ∧ T.At (k + 1) (s.advance x rest) (t.advance y rest') := by
  have hx : T.left[k]? = some x := by rw [← List.head?_drop, ← h.left_rest, hs, List.head?_cons]
  have hy : T.right[k]? = some y := by rw [← List.head?_drop, ← h.right_rest, ht, List.head?_cons]
  have hk : k < T.left.length := (List.getElem?_eq_some_iff.mp hx).1
  refine ⟨⟨Nat.lt_succ_self k, hk, ?_, ?_⟩, hk, ?_, ?_, ?_, ?_, h.nextId⟩
  · simp [startAt, stopAt, hx]
  · simp [startAt, stopAt, hy]
  · rw [State.advance, ← List.tail_drop, ← h.left_rest, hs, List.tail_cons]
  · rw [State.advance, ← List.tail_drop, ← h.right_rest, ht, List.tail_cons]
  · simp [State.advance, stopAt, hx]
  · simp [State.advance, stopAt, hy]

namespace Tracks

variable {k : Nat} {R R' : Nat → α → α → Prop} {R₂ : Nat → β → β → Prop} {p q : Parser α}

theorem mono (hp : T.Tracks k p q R) (hR : ∀ m a b, R m a b → R' m a b) : T.Tracks k p q R' := by
  intro s t hst a s' h
  obtain ⟨m, b, t', hb, hm, hst', hab⟩ := hp hst h
  exact ⟨m, b, t', hb, hm, hst', hR m a b hab⟩

theorem pure {a b : α} (h : R k a b) : T.Tracks k (Pure.pure a) (Pure.pure b) R := by
  intro s t hst a' s' hp
  cases hp
  exact ⟨k, b, t, rfl, Nat.le_refl k, hst, h⟩

theorem bind {c d : α → Parser β} (hp : T.Tracks k p q R)
    (hc : ∀ m a b, k ≤ m → R m a b → T.Tracks m (c a) (d b) R₂) :
    T.Tracks k (p >>= c) (q >>= d) R₂ := by
  intro s t hst e s'' h
  obtain ⟨a, s', ha, he⟩ := Parser.bind_eq_ok.mp h
  obtain ⟨m, b, t', hb, hm, hst', hab⟩ := hp hst ha
  obtain ⟨n, f, t'', hf, hn, hst'', hef⟩ := hc m a b hm hab hst' he
  exact ⟨n, f, t'', Parser.bind_eq_ok.mpr ⟨b, t', hb, hf⟩, Nat.le_trans hm hn, hst'', hef⟩

theorem ite {c d : Prop} [Decidable c] [Decidable d] {p' q' : Parser α} (hcd : c ↔ d)
    (hp : T.Tracks k p q R) (hp' : T.Tracks k p' q' R) :
    T.Tracks k (if c then p else p') (if d then q else q') R := by
  by_cases hc : c
  · rw [if_pos hc, if_pos (hcd.mp hc)]
    exact hp
  · rw [if_neg hc, if_neg (mt hcd.mpr hc)]
    exact hp'

theorem ofFuel {p q : Nat → Parser α} (h : ∀ n, T.Tracks k (p n) (q n) R) :
    T.Tracks k (fun s => p s.rest.length s) (fun s => q s.rest.length s) R := by
  intro s t hst a s' hp
  have := h _ hst hp
  rw [hst.alike.length_eq] at this
  exact this

theorem withHelp {help help' : String} (hp : T.Tracks k p q R) :
    T.Tracks k (Parser.withHelp help p) (Parser.withHelp help' q) R := by
  intro s t hst a s' h
  rw [Parser.withHelp_eq] at h
  split at h
  · cases h
    rename_i hr
    obtain ⟨m, b, t', hb, hm, hst', hab⟩ := hp hst hr
    exact ⟨m, b, t', by simp [Parser.withHelp_eq, hb], hm, hst', hab⟩
  · cases h

/-- A parser that looks at the next token first. -/
theorem ofHead
    (hnil : ∀ ⦃s t⦄, T.At k s t → s.rest = [] → t.rest = [] → ∀ ⦃a s'⦄, p s = .ok (a, s') →
      T.Answers k R (q t) a s')
    (hcons : ∀ ⦃s t⦄, T.At k s t → ∀ ⦃x y rest rest'⦄, s.rest = x :: rest → t.rest = y :: rest' →
      x.Alike y → T.Covers k (k + 1) x.span y.span →
      T.At (k + 1) (s.advance x rest) (t.advance y rest') → ∀ ⦃a s'⦄, p s = .ok (a, s') →
      T.Answers k R (q t) a s') : T.Tracks k p q R := by
  intro s t hst a s' h
  have halike := hst.alike
  cases hs : s.rest with
  | nil =>
      rw [hs, List.forall₂_nil_left_iff] at halike
      exact hnil hst hs halike h
  | cons x rest =>
      rw [hs, List.forall₂_cons_left_iff] at halike
      obtain ⟨y, rest', hxy, _, ht⟩ := halike
      obtain ⟨hspan, hnext⟩ := hst.cons hs ht
      exact hcons hst hs ht hxy hspan hnext h

theorem peek : T.Tracks k Parser.peek Parser.peek fun _ => Option.Rel (TokenKind.Copy AnyTypes) := by
  refine ofHead ?_ ?_
  · intro s t hst hs ht a s' h
    cases h
    refine ⟨k, _, t, rfl, Nat.le_refl k, hst, ?_⟩
    rw [hs, ht]
    exact .none
  · intro s t hst x y rest rest' hs ht hxy _ _ a s' h
    cases h
    refine ⟨k, _, t, rfl, Nat.le_refl k, hst, ?_⟩
    rw [hs, ht]
    exact .some hxy

theorem accept {kind : TokenKind} (hfixed : kind.Fixed) :
    T.Tracks k (Parser.accept kind) (Parser.accept kind) fun _ a b => a = b := by
  refine ofHead ?_ ?_
  · intro s t hst hs ht a s' h
    simp only [Parser.accept_eq, hs] at h
    cases h
    exact ⟨k, false, t, by simp [Parser.accept_eq, ht], Nat.le_refl k, hst, rfl⟩
  · intro s t hst x y rest rest' hs ht hxy _ hnext a s' h
    simp only [Parser.accept_eq, hs] at h
    have hiff := hxy.eq_iff hfixed
    by_cases hx : x.kind = kind
    · rw [if_pos hx] at h
      cases h
      exact ⟨k + 1, true, _, by simp [Parser.accept_eq, ht, hiff.mp hx], Nat.le_succ k, hnext, rfl⟩
    · rw [if_neg hx] at h
      cases h
      exact ⟨k, false, t, by simp [Parser.accept_eq, ht, mt hiff.mpr hx], Nat.le_refl k, hst, rfl⟩

theorem acceptSymbol {sign : Symbol} :
    T.Tracks k (Parser.accept (.symbol sign)) (Parser.accept (.symbol sign)) fun _ a b => a = b :=
  accept (TokenKind.fixed_symbol sign)

theorem expect {kind : TokenKind} {expected : String} (hfixed : kind.Fixed) :
    T.Tracks k (Parser.expect kind expected) (Parser.expect kind expected)
      fun m a b => k < m ∧ T.Starts k a.start b.start := by
  refine ofHead ?_ ?_
  · intro s t hst hs ht a s' h
    simp [Parser.expect_eq, hs] at h
  · intro s t hst x y rest rest' hs ht hxy hspan hnext a s' h
    simp only [Parser.expect_eq, hs] at h
    by_cases hx : x.kind = kind
    · rw [if_pos hx] at h
      cases h
      have hy := (hxy.eq_iff hfixed).mp hx
      exact ⟨k + 1, y.span, _, by simp [Parser.expect_eq, ht, hy], Nat.le_succ k, hnext, Nat.lt_succ_self k,
        hspan.starts⟩
    · rw [if_neg hx] at h
      cases h

theorem expectSymbol {sign : Symbol} {expected : String} :
    T.Tracks k (Parser.expectSymbol sign expected) (Parser.expectSymbol sign expected)
      fun m a b => k < m ∧ T.Starts k a.start b.start :=
  expect (TokenKind.fixed_symbol sign)

theorem expectKeyword {word : Keyword} {expected : String} :
    T.Tracks k (Parser.expectKeyword word expected) (Parser.expectKeyword word expected)
      fun m a b => k < m ∧ T.Starts k a.start b.start :=
  expect (TokenKind.fixed_keyword word)

theorem identifier {expected : String} :
    T.Tracks k (Parser.identifier expected) (Parser.identifier expected)
      fun m a b => k < m ∧ a.1 = b.1 ∧ T.Starts k a.2.start b.2.start := by
  refine ofHead ?_ ?_
  · intro s t hst hs ht a s' h
    simp [Parser.identifier_eq, hs] at h
  · rintro s t hst x ⟨kind, span⟩ rest rest' hs ht hxy hspan hnext a s' h
    rw [Parser.identifier_eq] at h
    split at h
    · rename_i name place _ hs'
      rw [hs] at hs'
      cases hs'
      cases h
      obtain rfl := (hxy.eq_iff (TokenKind.fixed_identifier name)).mp rfl
      exact ⟨k + 1, (name, span), _, by simp [Parser.identifier_eq, ht], Nat.le_succ k, hnext,
        Nat.lt_succ_self k, rfl, hspan.starts⟩
    · cases h

theorem typeName {expected : String} :
    T.Tracks k (Parser.typeName expected) (Parser.typeName expected) fun m _ _ => k < m := by
  refine ofHead ?_ ?_
  · intro s t hst hs ht a s' h
    simp [Parser.typeName_eq, hs] at h
  · rintro s t hst x ⟨kind, span⟩ rest rest' hs ht hxy _ hnext a s' h
    rw [Parser.typeName_eq] at h
    split at h
    · rename_i name place _ hs'
      rw [hs] at hs'
      cases hs'
      cases kind with
      | typeName name' =>
          cases h
          exact ⟨k + 1, name', _, by simp [Parser.typeName_eq, ht], Nat.le_succ k, hnext, Nat.lt_succ_self k⟩
      | _ => cases hxy
    · cases h
    · cases h

theorem freshId : T.Tracks k Parser.freshId Parser.freshId fun _ a b => a = b := by
  intro s t hst a s' h
  cases h
  exact ⟨k, _, _, rfl, Nat.le_refl k, { hst with nextId := congrArg (· + 1) hst.nextId }, hst.nextId⟩

theorem spanFrom {i a b : Nat} (h : T.Starts i a b) (hi : i < k) :
    T.Tracks k (Parser.spanFrom a) (Parser.spanFrom b) (T.Covers i) := by
  intro s t hst sp s' hp
  cases hp
  have hle : k ≤ T.right.length := T.length_eq ▸ hst.le
  refine ⟨k, _, t, rfl, Nat.le_refl k, hst, hi, hst.le, ?_, ?_⟩
  · rw [hst.left_stop, h.left_eq, Nat.max_eq_left (T.left_laid.start_le_stop hi hst.le)]
  · rw [hst.right_stop, h.right_eq, Nat.max_eq_left (T.right_laid.start_le_stop hi hle)]

theorem operator? (ops : List BinaryOp) :
    T.Tracks k (Parser.operator? ops) (Parser.operator? ops) fun _ a b => a = b := by
  refine ofHead ?_ ?_
  · intro s t hst hs ht a s' h
    simp only [Parser.operator?_eq, hs] at h
    cases h
    exact ⟨k, none, t, by simp [Parser.operator?_eq, ht], Nat.le_refl k, hst, rfl⟩
  · intro s t hst x y rest rest' hs ht hxy _ hnext a s' h
    simp only [Parser.operator?_eq, hs] at h
    have hsame : ∀ op : BinaryOp, y.kind = .symbol op.symbol ↔ x.kind = .symbol op.symbol :=
      fun op => (hxy.eq_iff (TokenKind.fixed_symbol op.symbol)).symm
    have hfind : (ops.find? fun op => y.kind = .symbol op.symbol) =
        ops.find? fun op => x.kind = .symbol op.symbol := by simp only [hsame]
    cases hop : ops.find? fun op => x.kind = .symbol op.symbol with
    | some op =>
        rw [hop] at h
        cases h
        exact ⟨k + 1, some op, _, by simp only [Parser.operator?_eq, ht, hfind, hop], Nat.le_succ k, hnext,
          rfl⟩
    | none =>
        rw [hop] at h
        cases h
        exact ⟨k, none, t, by simp only [Parser.operator?_eq, ht, hfind, hop], Nat.le_refl k, hst, rfl⟩

/-! ### Repetition -/

variable {Q : α → α → Prop} (hp : ∀ k, T.Tracks k p q fun _ => Q)
include hp

theorem optionalAfter {kind : TokenKind} (hfixed : kind.Fixed) :
    T.Tracks k (Parser.optionalAfter kind p) (Parser.optionalAfter kind q) fun _ => Option.Rel Q := by
  refine (accept hfixed).bind ?_
  rintro m found _ _ rfl
  cases found with
  | true => exact (hp m).bind fun _ _ _ _ h => pure (.some h)
  | false => exact pure .none

theorem sepBy {sep : Symbol} :
    T.Tracks k (Parser.sepBy p sep) (Parser.sepBy q sep) fun _ => List.Forall₂ Q := by
  refine ofFuel fun n => ?_
  induction n generalizing k with
  | zero => exact (hp k).bind fun _ _ _ _ h => pure (.cons h .nil)
  | succ n ih =>
      refine (hp k).bind fun _ _ _ _ h => acceptSymbol.bind ?_
      rintro m found _ _ rfl
      cases found with
      | true => exact ih.bind fun _ _ _ _ hs => pure (.cons h hs)
      | false => exact pure (.cons h .nil)

theorem sepByBefore {sep close : Symbol} :
    T.Tracks k (Parser.sepByBefore p sep close) (Parser.sepByBefore q sep close)
      fun _ => List.Forall₂ Q := by
  refine peek.bind fun m a b _ hab => ?_
  exact ite (TokenKind.eq_some_iff_of_rel hab (TokenKind.fixed_symbol close)) (pure .nil) (sepBy hp)

theorem someUntil {close : TokenKind} (hfixed : close.Fixed) :
    T.Tracks k (Parser.someUntil p close) (Parser.someUntil q close) fun _ => List.Forall₂ Q := by
  refine ofFuel fun n => ?_
  induction n generalizing k with
  | zero => exact (hp k).bind fun _ _ _ _ h => pure (.cons h .nil)
  | succ n ih =>
      refine (hp k).bind fun _ _ _ _ h => (accept hfixed).bind ?_
      rintro m found _ _ rfl
      cases found with
      | true => exact pure (.cons h .nil)
      | false => exact ih.bind fun _ _ _ _ hs => pure (.cons h hs)

theorem manyBefore {close : TokenKind} (hfixed : close.Fixed) :
    T.Tracks k (Parser.manyBefore p close) (Parser.manyBefore q close) fun _ => List.Forall₂ Q := by
  refine ofFuel fun n => ?_
  induction n generalizing k with
  | zero => exact pure .nil
  | succ n ih =>
      refine peek.bind fun m a b _ hab => ?_
      cases hab with
      | none => exact pure .nil
      | some hxy =>
          exact ite (hxy.eq_iff hfixed) (pure .nil)
            ((hp m).bind fun _ _ _ _ h => ih.bind fun _ _ _ _ hs => pure (.cons h hs))

end Tracks

end Twins

end CoolTyping
