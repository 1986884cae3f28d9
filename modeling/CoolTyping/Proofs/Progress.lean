import CoolTyping.Proofs.ParserLogic

/-!
# Progress of the parsers

The parsers of repetitions and of nested expressions are defined with fuel. Here they are shown to be what
the recursion without fuel would be: every one of them is the only solution of its equation, which fixes
its result on every input just because no run goes on for ever. What makes the recursion end is that no
parser ever gives tokens back and that every expression, binding, arm and so on takes at least one.

`Agrees k d p q` carries both parts of the argument: in front of fewer than `k` tokens, `p` and `q` have
the same result, and if this is a success, at least `d` tokens were taken.
-/

namespace CoolTyping.Parser

variable {α β ι : Type}

/-- How a result lies behind the state `s` that it was reached from. What is left of the input is a
suffix of what there was, also where the parser failed; where it succeeded, it took `d` tokens or more. -/
def Moves (d : Nat) (s : State) : Except Failure (α × State) → Prop
  | .ok (_, s') => s'.rest <:+ s.rest ∧ s'.rest.length + d ≤ s.rest.length
  | .error e => e.rest <:+ s.rest

/-- `p` goes forward only, and takes `d` tokens or more where it succeeds. -/
def Takes (d : Nat) (p : Parser α) : Prop := ∀ s, Moves d s (p s)

def Agrees (k d : Nat) (p q : Parser α) : Prop :=
  ∀ s, s.rest.length < k → p s = q s ∧ Moves d s (p s)

theorem Moves.least {d d' : Nat} {s : State} {r : Except Failure (α × State)} (h : Moves d s r)
    (hd : d' ≤ d) : Moves d' s r := by
  cases r with
  | error e => exact h
  | ok r => exact ⟨h.1, by have := h.2; omega⟩

/-- Behind `d` tokens, a result that takes what is missing to `m` takes `m` tokens in all. -/
theorem Moves.trans {d m : Nat} {s s' : State} {r : Except Failure (α × State)}
    (hsuffix : s'.rest <:+ s.rest) (hd : s'.rest.length + d ≤ s.rest.length)
    (h : Moves (m - d) s' r) : Moves m s r := by
  cases r with
  | error e => exact List.IsSuffix.trans h hsuffix
  | ok r => exact ⟨h.1.trans hsuffix, by have := h.2; omega⟩

theorem takes_iff {d : Nat} {p : Parser α} : Takes d p ↔ ∀ k, Agrees k d p p :=
  ⟨fun h _ s _ => ⟨rfl, h s⟩, fun h s => (h _ s (Nat.lt_succ_self _)).2⟩

theorem State.advance_moves {s : State} {t : Token} {rest : List Token} (h : s.rest = t :: rest) :
    (s.advance t rest).rest <:+ s.rest ∧ (s.advance t rest).rest.length + 1 ≤ s.rest.length := by
  rw [h]
  exact ⟨List.suffix_cons t rest, Nat.le_refl _⟩

namespace Agrees

variable {k d m : Nat} {p q r : Parser α}

theorem mono {k' : Nat} (h : Agrees k d p q) (hk : k' ≤ k) : Agrees k' d p q :=
  fun s hs => h s (by omega)

theorem least {d' : Nat} (h : Agrees k d p q) (hd : d' ≤ d) : Agrees k d' p q :=
  fun s hs => ⟨(h s hs).1, (h s hs).2.least hd⟩

theorem zero : Agrees 0 d p q := fun _ hs => absurd hs (Nat.not_lt_zero _)

theorem symm (h : Agrees k d p q) : Agrees k d q p := by
  intro s hs
  obtain ⟨heq, hm⟩ := h s hs
  exact ⟨heq.symm, heq ▸ hm⟩

theorem trans (h : Agrees k d p q) (h' : Agrees k d q r) : Agrees k d p r :=
  fun s hs => ⟨(h s hs).1.trans (h' s hs).1, (h s hs).2⟩

theorem left (h : Agrees k d p q) : Agrees k d p p := h.trans h.symm

/-- Two parsers that agree in front of any number of tokens are equal. -/
theorem eq (h : ∀ k, Agrees k d p q) : p = q :=
  funext fun s => (h _ s (Nat.lt_succ_self _)).1

/-- In front of no token at all. -/
theorem of_empty (h : ∀ lastStop nextId, p ⟨[], lastStop, nextId⟩ = q ⟨[], lastStop, nextId⟩ ∧
    Moves d ⟨[], lastStop, nextId⟩ (p ⟨[], lastStop, nextId⟩)) : Agrees 1 d p q := by
  rintro ⟨rest, lastStop, nextId⟩ hs
  obtain rfl : rest = [] := List.length_eq_zero_iff.mp (Nat.lt_one_iff.mp hs)
  exact h lastStop nextId

/-- Behind a token. -/
theorem advance {s : State} {t : Token} {rest : List Token} (h : Agrees k d p q)
    (hrest : s.rest = t :: rest) (hs : s.rest.length < k + 1) :
    p (s.advance t rest) = q (s.advance t rest) ∧ Moves (d + 1) s (p (s.advance t rest)) := by
  obtain ⟨hsuffix, hlen⟩ := State.advance_moves hrest
  obtain ⟨heq, hm⟩ := h (s.advance t rest) (by omega)
  exact ⟨heq, Moves.trans hsuffix hlen hm⟩

theorem pure (a : α) : Agrees k 0 (Pure.pure a : Parser α) (Pure.pure a) :=
  fun _ _ => ⟨rfl, List.suffix_refl _, Nat.le_refl _⟩

theorem bind {p q : Parser α} {f g : α → Parser β} (hp : Agrees k d p q)
    (hf : ∀ a, Agrees (k - d) (m - d) (f a) (g a)) : Agrees k m (p >>= f) (q >>= g) := by
  intro s hs
  obtain ⟨heq, hm⟩ := hp s hs
  change Parser.bind p f s = Parser.bind q g s ∧ Moves m s (Parser.bind p f s)
  unfold Parser.bind
  rw [← heq]
  cases hr : p s with
  | error e =>
      rw [hr] at hm
      exact ⟨rfl, hm⟩
  | ok r =>
      obtain ⟨a, s'⟩ := r
      rw [hr] at hm
      obtain ⟨hsuffix, hlen⟩ := hm
      obtain ⟨heq', hm'⟩ := hf a s' (by omega)
      exact ⟨heq', Moves.trans hsuffix hlen hm'⟩

theorem ite {c : Prop} [Decidable c] {p' q' : Parser α} (h : Agrees k d p q) (h' : Agrees k d p' q') :
    Agrees k d (if c then p else p') (if c then q else q') := by
  by_cases hc : c
  · rw [if_pos hc, if_pos hc]; exact h
  · rw [if_neg hc, if_neg hc]; exact h'

theorem withHelp {help : String} (h : Agrees k d p q) :
    Agrees k d (Parser.withHelp help p) (Parser.withHelp help q) := by
  intro s hs
  obtain ⟨heq, hm⟩ := h s hs
  rw [withHelp_eq, withHelp_eq, ← heq]
  cases hr : p s with
  | error e => rw [hr] at hm; exact ⟨rfl, hm⟩
  | ok r => rw [hr] at hm; exact ⟨rfl, hm⟩

/-! ## Single tokens -/

theorem peek : Agrees k 0 Parser.peek Parser.peek :=
  fun _ _ => ⟨rfl, List.suffix_refl _, Nat.le_refl _⟩

theorem freshId : Agrees k 0 Parser.freshId Parser.freshId :=
  fun _ _ => ⟨rfl, List.suffix_refl _, Nat.le_refl _⟩

theorem spanFrom (start : Nat) : Agrees k 0 (Parser.spanFrom start) (Parser.spanFrom start) :=
  fun _ _ => ⟨rfl, List.suffix_refl _, Nat.le_refl _⟩

theorem accept (kind : TokenKind) : Agrees k 0 (Parser.accept kind) (Parser.accept kind) := by
  refine fun s _ => ⟨rfl, ?_⟩
  rw [accept_eq]
  split
  · rename_i t rest hrest
    split
    · exact ⟨(State.advance_moves hrest).1, by have := (State.advance_moves hrest).2; omega⟩
    · exact ⟨List.suffix_refl _, Nat.le_refl _⟩
  · exact ⟨List.suffix_refl _, Nat.le_refl _⟩

theorem expect (kind : TokenKind) (expected : String) :
    Agrees k 1 (Parser.expect kind expected) (Parser.expect kind expected) := by
  refine fun s _ => ⟨rfl, ?_⟩
  rw [expect_eq]
  split
  · rename_i t rest hrest
    split
    · exact State.advance_moves hrest
    · exact List.suffix_refl _
  · exact List.suffix_refl _

theorem expectSymbol (sign : Symbol) (expected : String) :
    Agrees k 1 (Parser.expectSymbol sign expected) (Parser.expectSymbol sign expected) :=
  expect _ _

theorem expectKeyword (word : Keyword) (expected : String) :
    Agrees k 1 (Parser.expectKeyword word expected) (Parser.expectKeyword word expected) :=
  expect _ _

theorem identifier (expected : String) :
    Agrees k 1 (Parser.identifier expected) (Parser.identifier expected) := by
  refine fun s _ => ⟨rfl, ?_⟩
  rw [identifier_eq]
  split
  · rename_i hrest
    exact State.advance_moves hrest
  · exact List.suffix_refl _

theorem typeName (expected : String) :
    Agrees k 1 (Parser.typeName expected) (Parser.typeName expected) := by
  refine fun s _ => ⟨rfl, ?_⟩
  rw [typeName_eq]
  split
  · rename_i hrest
    exact State.advance_moves hrest
  · exact List.suffix_refl _
  · exact List.suffix_refl _

theorem operator? (ops : List BinaryOp) :
    Agrees k 0 (Parser.operator? ops) (Parser.operator? ops) := by
  refine fun s _ => ⟨rfl, ?_⟩
  rw [operator?_eq]
  split
  · exact ⟨List.suffix_refl _, Nat.le_refl _⟩
  · rename_i t rest hrest
    split
    · exact ⟨(State.advance_moves hrest).1, by have := (State.advance_moves hrest).2; omega⟩
    · exact ⟨List.suffix_refl _, Nat.le_refl _⟩

theorem optionalAfter (kind : TokenKind) (h : Agrees k d p q) :
    Agrees k 0 (Parser.optionalAfter kind p) (Parser.optionalAfter kind q) :=
  (accept kind).bind fun _ => ite ((h.mono (by omega)).bind fun a => (pure _).least (by omega)) (pure _)

end Agrees

/-! ## Recursion -/

/-- `p` is the only solution of the equation `p = F p`. -/
def OnlySolution {γ : Type} (F : γ → γ) (p : γ) : Prop := p = F p ∧ ∀ q, q = F q → q = p

/-- In front of fewer than `k` tokens, `loop n` is what `n` rounds of the recursion `p = F p` give. Each
round takes a token before the next one begins. -/
structure Unrolls (k d : Nat) (F : (ι → Parser α) → ι → Parser α) (loop : Nat → ι → Parser α) : Prop where
  guarded : ∀ {j p q}, j < k → (∀ i, Agrees j d (p i) (q i)) → ∀ i, Agrees (j + 1) d (F p i) (F q i)
  zero : 0 < k → ∀ p i, Agrees 1 d (loop 0 i) (F p i)
  succ : ∀ n, loop (n + 1) = F (loop n)

/-- The recursion with as much fuel as there are tokens. -/
def tied (loop : Nat → ι → Parser α) (i : ι) : Parser α := fun s => loop s.rest.length i s

namespace Unrolls

variable {k d : Nat} {F G : (ι → Parser α) → ι → Parser α} {f g : Nat → ι → Parser α}

theorem mono {j : Nat} (h : Unrolls k d F f) (hk : j ≤ k) : Unrolls j d F f where
  guarded hj := h.guarded (by omega)
  zero hj := h.zero (by omega)
  succ := h.succ

/-- More fuel than there are tokens changes nothing. -/
theorem agrees (h : Unrolls k d F f) {j n m : Nat} (hk : j ≤ k) (hn : j ≤ n + 1) (hm : j ≤ m + 1) (i : ι) :
    Agrees j d (f n i) (f m i) := by
  induction n generalizing j m i with
  | zero =>
      cases j with
      | zero => exact Agrees.zero
      | succ j =>
          obtain rfl : j = 0 := by omega
          have hzero := h.zero (by omega)
          cases m with
          | zero => exact (hzero (f 0) i).left
          | succ m => rw [h.succ]; exact hzero _ i
  | succ n ih =>
      cases j with
      | zero => exact Agrees.zero
      | succ j =>
          rw [h.succ]
          cases m with
          | zero =>
              obtain rfl : j = 0 := by omega
              exact (h.zero (by omega) _ i).symm
          | succ m =>
              rw [h.succ]
              exact h.guarded (by omega) (fun i => ih (by omega) (by omega) (by omega) i) i

theorem tied_agrees (h : Unrolls k d F f) {j n : Nat} (hk : j ≤ k) (hn : j ≤ n + 1) (i : ι) :
    Agrees j d (f n i) (tied f i) :=
  fun s hs => h.agrees (j := s.rest.length + 1) (by omega) (by omega) (Nat.le_refl _) i s (Nat.lt_succ_self _)

/-- The recursion with fuel satisfies the equation without. -/
theorem tied_eq (h : Unrolls k d F f) (i : ι) (s : State) (hs : s.rest.length < k) :
    tied f i s = F (tied f) i s := by
  have hmore := (h.agrees (n := s.rest.length) (m := s.rest.length + 1) (j := s.rest.length + 1)
    (by omega) (Nat.le_refl _) (by omega) i s (Nat.lt_succ_self _)).1
  rw [h.succ] at hmore
  have hinner := h.guarded hs (fun i => h.tied_agrees (n := s.rest.length) (by omega) (by omega) i) i
  exact hmore.trans (hinner s (Nat.lt_succ_self _)).1

end Unrolls

/-- Solutions of two equations agree if each round makes them agree in front of one token more. -/
theorem agrees_of_rounds {k d : Nat} {F G : (ι → Parser α) → ι → Parser α} {p q : ι → Parser α}
    (hp : ∀ i s, s.rest.length < k → p i s = F p i s) (hq : ∀ i s, s.rest.length < k → q i s = G q i s)
    (round : ∀ {j}, j < k → (∀ i, Agrees j d (p i) (q i)) → ∀ i, Agrees (j + 1) d (F p i) (G q i)) (i : ι) :
    Agrees k d (p i) (q i) := by
  suffices h : ∀ j ≤ k, ∀ i, Agrees j d (p i) (q i) from h k (Nat.le_refl _) i
  intro j hj
  induction j with
  | zero => exact fun _ => Agrees.zero
  | succ j ih =>
      intro i s hs
      rw [hp i s (by omega), hq i s (by omega)]
      exact round hj (ih (by omega)) i s hs

theorem Unrolls.congr {k d : Nat} {F G : (ι → Parser α) → ι → Parser α} {f g : Nat → ι → Parser α}
    (hf : Unrolls k d F f) (hg : Unrolls k d G g)
    (round : ∀ {j p q}, j < k → (∀ i, Agrees j d (p i) (q i)) → ∀ i, Agrees (j + 1) d (F p i) (G q i))
    (i : ι) : Agrees k d (tied f i) (tied g i) :=
  agrees_of_rounds hf.tied_eq hg.tied_eq round i

theorem Unrolls.onlySolution {d : Nat} {F : (ι → Parser α) → ι → Parser α} {f : Nat → ι → Parser α}
    (h : ∀ k, Unrolls k d F f) : OnlySolution F (tied f) := by
  refine ⟨funext fun i => funext fun s => (h _).tied_eq i s (Nat.lt_succ_self _), fun q hq => ?_⟩
  refine funext fun i => (Agrees.eq (d := d) fun k => ?_).symm
  exact agrees_of_rounds (h k).tied_eq (fun i s _ => congrFun (congrFun hq i) s) (h k).guarded i

/-- The same for a recursion without parameter. -/
theorem Unrolls.onlySolution_unit {d : Nat} {F : Parser α → Parser α} {f : Nat → Parser α}
    (h : ∀ k, Unrolls k d (fun p (_ : Unit) => F (p ())) fun n _ => f n) :
    OnlySolution F fun s => f s.rest.length s := by
  obtain ⟨hsol, honly⟩ := Unrolls.onlySolution h
  refine ⟨congrFun hsol (), fun q hq => ?_⟩
  exact congrFun (honly (fun _ => q) (funext fun _ => hq)) ()

/-! ## Repetition -/

/-- One round of `sepBy`; `more` reads the other items. -/
def sepByRound (item : Parser α) (sep : Symbol) (more : Parser (List α)) : Parser (List α) := do
  let a ← item
  if ← accept (.symbol sep) then
    return a :: (← more)
  else
    return [a]

/-- One round of `someUntil`. -/
def someUntilRound (item : Parser α) (close : TokenKind) (more : Parser (List α)) : Parser (List α) := do
  let a ← item
  if ← accept close then
    return [a]
  else
    return a :: (← more)

/-- One round of `manyBefore`. -/
def manyBeforeRound (item : Parser α) (close : TokenKind) (more : Parser (List α)) : Parser (List α) := do
  match ← peek with
  | none => return []
  | some kind =>
    if kind = close then
      return []
    else
      let a ← item
      return a :: (← more)

/-- One round of `unary`. -/
def unaryRound (kind : TokenKind) (op : UnaryOp) (operand more : Parser Expr) : Parser Expr := fun s =>
  match s.rest with
  | [] => operand s
  | t :: rest =>
    if t.kind = kind then
      match more (s.advance t rest) with
      | .ok (e, s) => .ok (.unary ⟨t.span.start, e.span.stop⟩ op e, s)
      | .error e => .error e
    else
      operand s

/-- The operators among `ops` behind the first operand. -/
def operations (ops : List BinaryOp) (operand : Parser Expr) : Expr → Parser Expr :=
  tied (chainN ops operand)

/-- One round of `operations`. -/
def operationsRound (ops : List BinaryOp) (operand : Parser Expr) (more : Expr → Parser Expr) (left : Expr) :
    Parser Expr := do
  match ← operator? ops with
  | none => return left
  | some op =>
    let right ← operand
    more (mkBinary op left right)

/-- One round of `calls`. -/
def callsRound (expr : Parser Expr) (more : Expr → Parser Expr) (e : Expr) : Parser Expr := do
  if ← accept (.symbol .dot) then
    let (method, _) ← identifier "Expected a method name after `.`"
    let args ← arguments expr
    more (.dispatch (← spanFrom e.span.start) (some e) method args)
  else if ← accept (.symbol .atSign) then
    let ancestor ← typeName "Expected a type name after `@`"
    let _ ← expectSymbol .dot "Expected `.` after static dispatch type"
    let (method, _) ← identifier "Expected a method name after `.`"
    let args ← arguments expr
    more (.staticDispatch (← spanFrom e.span.start) e ancestor method args)
  else
    return e

namespace Agrees

variable {j k d : Nat}

section Items

variable {item item' : Parser α} {more more' : Parser (List α)}

theorem sepByRound {sep : Symbol} (h : Agrees (j + 1) 1 item item') (hmore : Agrees j 1 more more') :
    Agrees (j + 1) 1 (sepByRound item sep more) (sepByRound item' sep more') :=
  h.bind fun _ => (accept _).bind fun _ => ite (hmore.bind fun _ => pure _) (pure _)

theorem someUntilRound {close : TokenKind} (h : Agrees (j + 1) 1 item item') (hmore : Agrees j 1 more more') :
    Agrees (j + 1) 1 (someUntilRound item close more) (someUntilRound item' close more') :=
  h.bind fun _ => (accept _).bind fun _ => ite (pure _) (hmore.bind fun _ => pure _)

theorem manyBeforeRound {close : TokenKind} (h : Agrees (j + 1) 1 item item')
    (hmore : Agrees j 0 more more') :
    Agrees (j + 1) 0 (manyBeforeRound item close more) (manyBeforeRound item' close more') := by
  refine peek.bind fun kind => ?_
  cases kind with
  | none => exact pure _
  | some kind => exact ite (pure _) (h.bind fun _ => hmore.bind fun _ => pure _)

end Items

end Agrees

theorem sepBy_unrolls {k : Nat} {item : Parser α} (h : Agrees k 1 item item) (sep : Symbol) :
    Unrolls k 1 (fun more (_ : Unit) => sepByRound item sep (more ())) fun n _ => sepByN item sep n where
  guarded hj hmore _ := Agrees.sepByRound (h.mono hj) (hmore ())
  zero hk _ _ := (h.mono hk).bind fun _ => Agrees.zero
  succ _ := rfl

theorem someUntil_unrolls {k : Nat} {item : Parser α} (h : Agrees k 1 item item) (close : TokenKind) :
    Unrolls k 1 (fun more (_ : Unit) => someUntilRound item close (more ()))
      fun n _ => someUntilN item close n where
  guarded hj hmore _ := Agrees.someUntilRound (h.mono hj) (hmore ())
  zero hk _ _ := (h.mono hk).bind fun _ => Agrees.zero
  succ _ := rfl

theorem manyBefore_unrolls {k : Nat} {item : Parser α} (h : Agrees k 1 item item) (close : TokenKind) :
    Unrolls k 0 (fun more (_ : Unit) => manyBeforeRound item close (more ()))
      fun n _ => manyBeforeN item close n where
  guarded hj hmore _ := Agrees.manyBeforeRound (h.mono hj) (hmore ())
  zero _ _ _ := Agrees.of_empty fun _ _ => ⟨rfl, List.suffix_refl _, Nat.le_refl _⟩
  succ _ := rfl

namespace Agrees

variable {k d : Nat} {item item' : Parser α}

theorem sepBy (h : Agrees k 1 item item') (sep : Symbol) :
    Agrees k 1 (Parser.sepBy item sep) (Parser.sepBy item' sep) :=
  (sepBy_unrolls h.left sep).congr (sepBy_unrolls h.symm.left sep)
    (fun hj hmore _ => sepByRound (h.mono hj) (hmore ())) ()

theorem sepByBefore (h : Agrees k 1 item item') (sep close : Symbol) :
    Agrees k 0 (Parser.sepByBefore item sep close) (Parser.sepByBefore item' sep close) :=
  peek.bind fun _ => ite (pure _) ((h.sepBy sep).least (by omega))

theorem someUntil (h : Agrees k 1 item item') (close : TokenKind) :
    Agrees k 1 (Parser.someUntil item close) (Parser.someUntil item' close) :=
  (someUntil_unrolls h.left close).congr (someUntil_unrolls h.symm.left close)
    (fun hj hmore _ => someUntilRound (h.mono hj) (hmore ())) ()

theorem manyBefore (h : Agrees k 1 item item') (close : TokenKind) :
    Agrees k 0 (Parser.manyBefore item close) (Parser.manyBefore item' close) :=
  (manyBefore_unrolls h.left close).congr (manyBefore_unrolls h.symm.left close)
    (fun hj hmore _ => manyBeforeRound (h.mono hj) (hmore ())) ()

/-! ## Expressions

If `e` and `e'` agree in front of fewer than `n` tokens, the parsers made of them agree in front of one
token more: what stands in an expression stands behind its first token. -/

section Parts

variable {n : Nat} {e e' : Parser Expr} (he : Agrees n 1 e e')
include he

theorem arguments : Agrees (n + 1) 2 (Parser.arguments e) (Parser.arguments e') :=
  (expectSymbol _ _).bind fun _ => (he.sepByBefore _ _).bind fun _ =>
    (expectSymbol _ _).bind fun _ => pure _

theorem binding : Agrees (n + 1) 3 (Parser.binding e) (Parser.binding e') :=
  (identifier _).bind fun _ => (expectSymbol _ _).bind fun _ => (typeName _).bind fun _ =>
    ((he.mono (by omega)).optionalAfter _).bind fun _ => freshId.bind fun _ => (spanFrom _).bind fun _ =>
    pure _

theorem arm : Agrees (n + 1) 6 (Parser.arm e) (Parser.arm e') :=
  (identifier _).bind fun _ => (expectSymbol _ _).bind fun _ => (typeName _).bind fun _ =>
    (expectSymbol _ _).bind fun _ => (he.mono (by omega)).bind fun _ => (expectSymbol _ _).bind fun _ =>
    freshId.bind fun _ => (spanFrom _).bind fun _ => pure _

theorem statement : Agrees n 2 (Parser.statement e) (Parser.statement e') :=
  he.bind fun _ => (expectSymbol _ _).bind fun _ => pure _

theorem conditional (start : Nat) : Agrees n 6 (Parser.conditional e start) (Parser.conditional e' start) :=
  he.bind fun _ => (expectKeyword _ _).bind fun _ => (he.mono (by omega)).bind fun _ =>
    (expectKeyword _ _).bind fun _ => (he.mono (by omega)).bind fun _ => (expectKeyword _ _).bind fun _ =>
    (spanFrom _).bind fun _ => pure _

theorem whileLoop (start : Nat) : Agrees n 4 (Parser.whileLoop e start) (Parser.whileLoop e' start) :=
  he.bind fun _ => (expectKeyword _ _).bind fun _ => (he.mono (by omega)).bind fun _ =>
    (expectKeyword _ _).bind fun _ => (spanFrom _).bind fun _ => pure _

theorem letExpr (start : Nat) : Agrees n 3 (Parser.letExpr e start) (Parser.letExpr e' start) :=
  (((he.binding.mono (by omega)).least (by omega)).sepBy _).bind fun _ => (expectKeyword _ _).bind fun _ =>
    (he.mono (by omega)).bind fun _ => (spanFrom _).bind fun _ => pure _

theorem caseExpr (start : Nat) : Agrees n 3 (Parser.caseExpr e start) (Parser.caseExpr e' start) :=
  he.bind fun _ => (expectKeyword _ _).bind fun _ =>
    (((he.arm.mono (by omega)).least (by omega)).someUntil _).bind fun _ => (spanFrom _).bind fun _ => pure _

theorem parenthesized (start : Nat) :
    Agrees n 2 (Parser.parenthesized e start) (Parser.parenthesized e' start) :=
  he.bind fun _ => (expectSymbol _ _).bind fun _ => (spanFrom _).bind fun _ => pure _

theorem blockExpr (start : Nat) : Agrees n 1 (Parser.blockExpr e start) (Parser.blockExpr e' start) :=
  ((he.statement.least (by omega)).someUntil _).bind fun _ => (spanFrom _).bind fun _ => pure _

theorem nameOrCall (name : String) (span : Span) :
    Agrees n 0 (Parser.nameOrCall e name span) (Parser.nameOrCall e' name span) :=
  peek.bind fun _ => ite ((he.arguments.mono (by omega)).bind fun _ => (spanFrom _).bind fun _ => pure _)
    (pure _)

omit he in
theorem newExpr (start : Nat) : Agrees k 1 (Parser.newExpr start) (Parser.newExpr start) :=
  (typeName _).bind fun _ => (spanFrom _).bind fun _ => pure _

theorem atom : Agrees (n + 1) 1 (Parser.atom e) (Parser.atom e') := by
  intro s hs
  rw [atom_eq e, atom_eq e']
  split
  · exact ⟨rfl, List.suffix_refl _⟩
  · rename_i t rest hrest
    -- One goal per kind of first token; the parser behind it needs no more tokens.
    have behind {d : Nat} {p q : Parser Expr} (h : Agrees n d p q) :=
      (h.least (Nat.zero_le _)).advance hrest hs
    dsimp only
    split
    · exact behind (he.conditional _)
    · exact behind (he.whileLoop _)
    · exact behind (he.letExpr _)
    · exact behind (he.caseExpr _)
    · exact behind (newExpr _)
    · exact behind (pure _)
    · exact behind (pure _)
    · exact behind (he.parenthesized _)
    · exact behind (he.blockExpr _)
    · exact behind (he.nameOrCall _ _)
    · exact behind (pure _)
    · exact behind (pure _)
    · exact ⟨rfl, List.suffix_refl _⟩

theorem callsRound {more more' : Expr → Parser Expr} (hmore : ∀ x, Agrees n 0 (more x) (more' x)) (x : Expr) :
    Agrees (n + 1) 0 (callsRound e more x) (callsRound e' more' x) := by
  refine (accept _).bind fun _ => ite ?_ ((accept _).bind fun _ => ite ?_ (pure _))
  · exact (identifier _).bind fun _ => (he.arguments.mono (by omega)).bind fun _ => (spanFrom _).bind fun _ =>
      (hmore _).mono (by omega)
  · exact (typeName _).bind fun _ => (expectSymbol _ _).bind fun _ => (identifier _).bind fun _ =>
      (he.arguments.mono (by omega)).bind fun _ => (spanFrom _).bind fun _ => (hmore _).mono (by omega)

end Parts

section Operators

variable {operand operand' : Parser Expr}

theorem unaryRound {kind : TokenKind} {op : UnaryOp} {more more' : Parser Expr}
    (h : Agrees (j + 1) 1 operand operand') (hmore : Agrees j 1 more more') :
    Agrees (j + 1) 1 (unaryRound kind op operand more) (unaryRound kind op operand' more') := by
  intro s hs
  unfold Parser.unaryRound
  split
  · exact h s hs
  · rename_i t rest hrest
    split
    · obtain ⟨heq, hm⟩ := (hmore.least (Nat.zero_le 1)).advance hrest hs
      rw [← heq]
      cases hr : more (s.advance t rest) with
      | error _ => rw [hr] at hm; exact ⟨rfl, hm⟩
      | ok _ => rw [hr] at hm; exact ⟨rfl, hm⟩
    · exact h s hs

theorem operationsRound {ops : List BinaryOp} {more more' : Expr → Parser Expr}
    (h : Agrees (j + 1) 1 operand operand') (hmore : ∀ x, Agrees j 0 (more x) (more' x)) (left : Expr) :
    Agrees (j + 1) 0 (operationsRound ops operand more left) (operationsRound ops operand' more' left) := by
  refine (operator? _).bind fun op => ?_
  cases op with
  | none => exact pure _
  | some op => exact h.bind fun _ => hmore _

end Operators

end Agrees

theorem calls_unrolls {n : Nat} {e : Parser Expr} (he : Agrees n 1 e e) :
    Unrolls (n + 1) 0 (callsRound e) (callsN e) where
  guarded hj hmore := Agrees.callsRound (he.mono (by omega)) hmore
  zero _ _ _ := Agrees.of_empty fun _ _ => ⟨rfl, List.suffix_refl _, Nat.le_refl _⟩
  succ _ := rfl

theorem unary_unrolls {k : Nat} {operand : Parser Expr} (h : Agrees k 1 operand operand) (kind : TokenKind)
    (op : UnaryOp) :
    Unrolls k 1 (fun more (_ : Unit) => unaryRound kind op operand (more ()))
      fun n _ => unaryN kind op operand n where
  guarded hj hmore _ := Agrees.unaryRound (h.mono hj) (hmore ())
  zero hk _ _ := Agrees.of_empty fun _ _ => ⟨rfl, (h ⟨[], _, _⟩ hk).2⟩
  succ n := funext fun _ => funext (unaryN_succ_eq kind op operand n)

theorem operations_unrolls {k : Nat} {operand : Parser Expr} (h : Agrees k 1 operand operand)
    (ops : List BinaryOp) : Unrolls k 0 (operationsRound ops operand) (chainN ops operand) where
  guarded hj hmore := Agrees.operationsRound (h.mono hj) hmore
  zero _ _ _ := Agrees.of_empty fun _ _ => ⟨rfl, List.suffix_refl _, Nat.le_refl _⟩
  succ _ := rfl

namespace Agrees

variable {k n : Nat} {e e' operand operand' : Parser Expr}

theorem calls (he : Agrees n 1 e e') (x : Expr) : Agrees (n + 1) 0 (Parser.calls e x) (Parser.calls e' x) :=
  (calls_unrolls he.left).congr (calls_unrolls he.symm.left)
    (fun hj hmore => callsRound (he.mono (by omega)) hmore) x

theorem unary (h : Agrees k 1 operand operand') (kind : TokenKind) (op : UnaryOp) :
    Agrees k 1 (Parser.unary kind op operand) (Parser.unary kind op operand') :=
  (unary_unrolls h.left kind op).congr (unary_unrolls h.symm.left kind op)
    (fun hj hmore _ => unaryRound (h.mono hj) (hmore ())) ()

theorem operations (h : Agrees k 1 operand operand') (ops : List BinaryOp) (left : Expr) :
    Agrees k 0 (operations ops operand left) (operations ops operand' left) :=
  (operations_unrolls h.left ops).congr (operations_unrolls h.symm.left ops)
    (fun hj hmore => operationsRound (h.mono hj) hmore) left

theorem chain (h : Agrees k 1 operand operand') (ops : List BinaryOp) :
    Agrees k 1 (Parser.chain ops operand) (Parser.chain ops operand') :=
  h.bind fun left => (h.operations ops left).mono (by omega)

section Levels

variable (he : Agrees n 1 e e')
include he

theorem postfixed : Agrees (n + 1) 1 (Parser.postfixed e) (Parser.postfixed e') :=
  he.atom.bind fun x => (he.calls x).mono (by omega)

theorem negated : Agrees (n + 1) 1 (Parser.negated e) (Parser.negated e') := he.postfixed.unary _ _

theorem factor : Agrees (n + 1) 1 (Parser.factor e) (Parser.factor e') := he.negated.unary _ _

theorem term : Agrees (n + 1) 1 (Parser.term e) (Parser.term e') := he.factor.chain _

theorem sum : Agrees (n + 1) 1 (Parser.sum e) (Parser.sum e') := he.term.chain _

theorem comparison : Agrees (n + 1) 1 (Parser.comparison e) (Parser.comparison e') := by
  refine he.sum.bind fun _ => (operator? _).bind fun op => ?_
  cases op with
  | none => exact pure _
  | some op => exact (he.sum.mono (by omega)).bind fun _ => pure _

theorem negation : Agrees (n + 1) 1 (Parser.negation e) (Parser.negation e') := he.comparison.unary _ _

theorem assignment : Agrees (n + 1) 1 (Parser.assignment e) (Parser.assignment e') := by
  intro s hs
  rw [assignment_eq e, assignment_eq e']
  split
  · rename_i name place sign rest hrest
    have hvalue : Agrees n 0
        (do let value ← e; return .assign (← Parser.spanFrom place.start) name value : Parser Expr)
        (do let value ← e'; return .assign (← Parser.spanFrom place.start) name value) :=
      he.bind fun _ => (spanFrom _).bind fun _ => pure _
    have hlen : rest.length + 2 = s.rest.length := by rw [hrest]; rfl
    obtain ⟨heq, hm⟩ := hvalue (s.advance ⟨.symbol .assign, sign⟩ rest) (by simp only [State.advance]; omega)
    exact ⟨heq, Moves.trans (d := 2) (hrest ▸ List.suffix_append [_, _] rest) (Nat.le_of_eq hlen) hm⟩
  · exact he.negation s hs

end Levels

end Agrees

theorem expr_unrolls (k : Nat) :
    Unrolls k 1 (fun p (_ : Unit) => assignment (p ())) fun n _ => exprN (n + 1) where
  guarded _ h _ := (h ()).assignment
  zero _ _ _ := Agrees.zero.assignment
  succ _ := rfl

/-! ## The whole language -/

namespace Agrees

variable {k : Nat}

theorem expr : Agrees k 1 Parser.expr Parser.expr :=
  (expr_unrolls k).congr (expr_unrolls k) (fun _ h _ => (h ()).assignment) ()

theorem param : Agrees k 3 Parser.param Parser.param :=
  (identifier _).bind fun _ => (expectSymbol _ _).bind fun _ => (typeName _).bind fun _ =>
    (spanFrom _).bind fun _ => pure _

theorem methodDecl (name : String) (start : Nat) :
    Agrees k 6 (Parser.methodDecl name start) (Parser.methodDecl name start) :=
  freshId.bind fun _ => ((param.least (by omega)).sepByBefore _ _).bind fun _ => (expectSymbol _ _).bind fun _ =>
    (expectSymbol _ _).bind fun _ => (typeName _).bind fun _ => (expectSymbol _ _).bind fun _ =>
    expr.bind fun _ => (expectSymbol _ _).bind fun _ => (spanFrom _).bind fun _ => pure _

theorem attrDecl (name : String) (start : Nat) :
    Agrees k 2 (Parser.attrDecl name start) (Parser.attrDecl name start) :=
  (expectSymbol _ _).bind fun _ => (typeName _).bind fun _ => (expr.optionalAfter _).bind fun _ =>
    (spanFrom _).bind fun _ => pure _

theorem feature : Agrees k 3 Parser.feature Parser.feature :=
  (identifier _).bind fun _ => (accept _).bind fun _ =>
    ite ((methodDecl _ _).bind fun _ => pure _) ((attrDecl _ _).bind fun _ => pure _)

theorem member : Agrees k 4 Parser.member Parser.member :=
  feature.bind fun _ => (expectSymbol _ _).withHelp.bind fun _ => pure _

theorem classDecl : Agrees k 5 Parser.classDecl Parser.classDecl :=
  (expectKeyword _ _).bind fun _ => freshId.bind fun _ => (typeName _).bind fun _ =>
    ((typeName _).optionalAfter _).bind fun _ => (expectSymbol _ _).bind fun _ =>
    ((member.least (by omega)).manyBefore _).bind fun _ => (expectSymbol _ _).bind fun _ =>
    (expectSymbol _ _).withHelp.bind fun _ => (spanFrom _).bind fun _ => pure _

end Agrees

/-- The parsers of expressions, from the loosest level to the tightest. -/
def levels : List (Parser Expr) :=
  [expr, assignment expr, negation expr, comparison expr, sum expr, term expr, factor expr, negated expr,
    postfixed expr, atom expr]

/-- Nothing is read without tokens: the parsers go forward only, and whatever is repeated or nested takes a
token. -/
structure Advancing : Prop where
  expr : ∀ p ∈ levels, Takes 1 p
  binding : Takes 3 (binding Parser.expr)
  arm : Takes 6 (arm Parser.expr)
  statement : Takes 2 (statement Parser.expr)
  arguments : Takes 2 (arguments Parser.expr)
  param : Takes 3 param
  member : Takes 4 member
  classDecl : Takes 5 classDecl

/-- The fuel never shows: every recursive parser is the only one that satisfies the equation of its
recursion. -/
structure Determined : Prop where
  expr : OnlySolution assignment (Parser.expr : Parser Expr)
  calls : OnlySolution (callsRound Parser.expr) (calls (Parser.expr : Parser Expr))
  unary : ∀ {operand}, Takes 1 operand → ∀ kind op,
    OnlySolution (unaryRound kind op operand) (unary kind op operand)
  operations : ∀ {operand}, Takes 1 operand → ∀ ops,
    OnlySolution (operationsRound ops operand) (operations ops operand)
  sepBy : ∀ {α : Type} {item : Parser α}, Takes 1 item → ∀ sep,
    OnlySolution (sepByRound item sep) (sepBy item sep)
  someUntil : ∀ {α : Type} {item : Parser α}, Takes 1 item → ∀ close,
    OnlySolution (someUntilRound item close) (someUntil item close)
  manyBefore : ∀ {α : Type} {item : Parser α}, Takes 1 item → ∀ close,
    OnlySolution (manyBeforeRound item close) (manyBefore item close)

theorem advancing : Advancing where
  expr := by
    have he {k : Nat} : Agrees k 1 expr expr := Agrees.expr
    have next {p : Parser Expr} (h : ∀ n, Agrees (n + 1) 1 p p) : Takes 1 p :=
      takes_iff.mpr fun k => (h k).mono (Nat.le_succ k)
    simp only [levels, List.forall_mem_cons]
    exact ⟨takes_iff.mpr fun _ => he, next fun _ => he.assignment, next fun _ => he.negation,
      next fun _ => he.comparison, next fun _ => he.sum, next fun _ => he.term, next fun _ => he.factor,
      next fun _ => he.negated, next fun _ => he.postfixed, next fun _ => he.atom, by simp⟩
  binding := takes_iff.mpr fun k => Agrees.expr.binding.mono (Nat.le_succ k)
  arm := takes_iff.mpr fun k => Agrees.expr.arm.mono (Nat.le_succ k)
  statement := takes_iff.mpr fun _ => Agrees.expr.statement
  arguments := takes_iff.mpr fun k => Agrees.expr.arguments.mono (Nat.le_succ k)
  param := takes_iff.mpr fun _ => Agrees.param
  member := takes_iff.mpr fun _ => Agrees.member
  classDecl := takes_iff.mpr fun _ => Agrees.classDecl

theorem determined : Determined where
  expr := Unrolls.onlySolution_unit expr_unrolls
  calls := Unrolls.onlySolution fun k => (calls_unrolls (n := k) Agrees.expr).mono (Nat.le_succ k)
  unary h kind op := Unrolls.onlySolution_unit fun k => unary_unrolls (takes_iff.mp h k) kind op
  operations h ops := Unrolls.onlySolution fun k => operations_unrolls (takes_iff.mp h k) ops
  sepBy h sep := Unrolls.onlySolution_unit fun k => sepBy_unrolls (takes_iff.mp h k) sep
  someUntil h close := Unrolls.onlySolution_unit fun k => someUntil_unrolls (takes_iff.mp h k) close
  manyBefore h close := Unrolls.onlySolution_unit fun k => manyBefore_unrolls (takes_iff.mp h k) close

end CoolTyping.Parser
