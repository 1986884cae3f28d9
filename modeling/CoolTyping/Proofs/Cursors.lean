import CoolTyping.Parser.Cursor
import CoolTyping.Proofs.ParserLogic

/-!
# Cursors stay in the input

A parser that reads with a cursor does what it does when it takes tokens from a list. In particular, it never
moves on from the end of the input: every parser looks at the next token before it reads it.

`Cursor.Stands c s`: the cursor `c` is in front of the tokens that are left in `s`, and it came there one item
at a time. `Walk.Follows ts p q`: in front of the tokens `ts`, `q` succeeds or fails with a cursor as `p` does
on the list, and ends where `p` ends. The tokens `ts` are those that a parser has seen but not read, and only
they can be read without a look.
-/

namespace CoolTyping

/-! ## The row of items -/

namespace TokenStream

variable (input : TokenStream)

theorem tokenAt?_eq (i : Nat) : input.tokenAt? i = input.tokens[i]? := by
  unfold tokenAt? items
  rcases Nat.lt_trichotomy i input.tokens.length with hi | rfl | hi
  · simp [List.getElem?_append_left, hi, Item.token?]
  · simp [Item.token?]
  · simp [List.getElem?_append_right, Nat.le_of_lt hi, Nat.sub_ne_zero_of_lt hi]

variable {input} {i : Nat}

/-- Up to the end of the input, looking needs no clamp. -/
theorem getElem?_items (hi : i ≤ input.tokens.length) : input.items[i]? = some (input.itemAt i) := by
  have hlen := input.length_items
  have hmin : min i (input.items.length - 1) = i := by omega
  simp only [itemAt, hmin, List.get_eq_getElem]
  exact List.getElem?_eq_getElem (by omega)

theorem itemAt_eq (hi : i ≤ input.tokens.length) :
    input.itemAt i = (input.tokens[i]?).elim (.eof input.stop) .token := by
  have hitem := getElem?_items hi
  unfold items at hitem
  rcases Nat.lt_or_eq_of_le hi with hlt | rfl
  · rw [List.getElem?_append_left (by simpa using hlt), List.getElem?_map] at hitem
    rw [List.getElem?_eq_getElem hlt] at hitem ⊢
    exact (Option.some.inj hitem).symm
  · rw [List.getElem?_append_right (by simp)] at hitem
    simpa using hitem.symm

theorem getElem?_items_eq_eof {stop : Nat} :
    input.items[i]? = some (.eof stop) ↔ i = input.tokens.length ∧ stop = input.stop := by
  constructor
  · intro h
    have hi : i ≤ input.tokens.length := by
      have := (List.getElem?_eq_some_iff.mp h).1
      have := input.length_items
      omega
    rw [getElem?_items hi, itemAt_eq hi] at h
    cases ht : input.tokens[i]? with
    | some t => rw [ht] at h; cases h
    | none =>
        rw [ht] at h
        cases h
        exact ⟨Nat.le_antisymm hi (List.getElem?_eq_none_iff.mp ht), rfl⟩
  · rintro ⟨rfl, rfl⟩
    rw [getElem?_items (Nat.le_refl _), itemAt_eq (Nat.le_refl _)]
    simp

end TokenStream

/-! ## Standing in front of the same tokens -/

open Parser (State Failure)

variable {input : TokenStream} {α β : Type}

structure Cursor.Stands (c : Cursor input) (s : State) : Prop where
  within : c.pos ≤ input.tokens.length
  rest : s.rest = input.tokens.drop c.pos
  lastStop : s.lastStop = c.lastStop
  nextId : s.nextId = c.nextId
  /-- The cursor was at every position up to this one, once. -/
  positions : c.positions = (List.range (c.pos + 1)).reverse

namespace Cursor.Stands

variable {c : Cursor input} {s : State}

theorem start : Stands (Cursor.start : Cursor input) ⟨input.tokens, 0, 0⟩ :=
  ⟨Nat.zero_le _, rfl, rfl, rfl, rfl⟩

theorem next? (h : Stands c s) : input.tokenAt? c.pos = s.rest.head? := by
  rw [TokenStream.tokenAt?_eq, h.rest, List.head?_drop]

theorem second? (h : Stands c s) : input.tokenAt? (c.pos + 1) = s.rest.tail.head? := by
  rw [TokenStream.tokenAt?_eq, h.rest, List.tail_drop, List.head?_drop]

theorem isEof (h : Stands c s) : c.isEof = s.rest.isEmpty := by
  rw [Cursor.isEof, h.next?]
  cases s.rest <;> rfl

theorem peek (h : Stands c s) : c.peek = s.rest.head?.elim (.eof input.stop) .token := by
  rw [Cursor.peek, TokenStream.itemAt_eq h.within, h.rest, List.head?_drop]

theorem length_rest (h : Stands c s) : s.rest.length = input.items.length - 1 - c.pos := by
  rw [h.rest, List.length_drop, TokenStream.length_items]
  rfl

/-- There is a token to be read, so moving on needs no clamp either. -/
theorem advance (h : Stands c s) {t : Token} {rest : List Token} (hrest : s.rest = t :: rest) :
    Stands c.advance (s.advance t rest) := by
  have hlt : c.pos < input.tokens.length := by
    have := h.length_rest
    rw [hrest, TokenStream.length_items, List.length_cons] at this
    omega
  have hpos : c.advance.pos = c.pos + 1 := by
    simp only [Cursor.advance, TokenStream.length_items]
    omega
  have hpeek : c.peek = .token t := by rw [h.peek, hrest]; rfl
  refine ⟨by omega, ?_, ?_, h.nextId, ?_⟩
  · rw [hpos, ← List.tail_drop, ← h.rest, hrest]
    rfl
  · simp only [Cursor.advance, hpeek]
    rfl
  · rw [Cursor.positions, hpos, List.range_succ, List.reverse_concat, ← h.positions]
    rfl

/-- A failure of the list is the error at the cursor. -/
theorem toError (h : Stands c s) (expected : String) (help : Option String) :
    (⟨expected, help, s⟩ : Failure).toError input.stop = c.errorHere expected help := by
  unfold Failure.toError Failure.rest Cursor.errorHere
  rw [h.peek]
  cases s.rest <;> rfl

end Cursor.Stands

namespace Walk

/-- A walk ended as the parser of the list did. -/
def Answers : Except Failure (α × State) → Except SyntaxError α × Cursor input → Prop
  | .ok (a, s), r => r.1 = .ok a ∧ r.2.Stands s
  | .error e, r => r.1 = .error (e.toError input.stop) ∧ r.2.Stands e.state

theorem Answers.ok_or_error {r : Except Failure (α × State)} {r' : Except SyntaxError α × Cursor input}
    (h : Answers r r') :
    (∃ a s c, r = .ok (a, s) ∧ r' = (.ok a, c) ∧ c.Stands s) ∨
      ∃ e c, r = .error e ∧ r' = (.error (e.toError input.stop), c) ∧ c.Stands e.state := by
  obtain ⟨r', c⟩ := r'
  rcases r with e | ⟨a, s⟩
  · obtain ⟨rfl, hc⟩ := h
    exact .inr ⟨e, c, rfl, rfl, hc⟩
  · obtain ⟨rfl, hc⟩ := h
    exact .inl ⟨a, s, c, rfl, rfl, hc⟩

def Follows (ts : List Token) (p : Parser α) (q : Walk input α) : Prop :=
  ∀ ⦃c : Cursor input⦄ ⦃s : State⦄, c.Stands s → ts <+: s.rest → Answers (p s) (q c)

namespace Follows

variable {ts : List Token} {p : Parser α} {q : Walk input α}

theorem seen (h : Follows [] p q) : Follows ts p q := fun _ _ hs _ => h hs List.nil_prefix

theorem pure (a : α) : Follows ts (Pure.pure a) (Pure.pure a : Walk input α) := fun _ _ hs _ => ⟨rfl, hs⟩

theorem bind {f : α → Parser β} {g : α → Walk input β} (hp : Follows ts p q)
    (hf : ∀ a, Follows [] (f a) (g a)) : Follows ts (p >>= f) (q >>= g) := by
  intro c s hs hts
  change Answers (Parser.bind p f s) (Walk.bind q g c)
  obtain ⟨a, s', c', hp, hq, hs'⟩ | ⟨e, c', hp, hq, hs'⟩ := (hp hs hts).ok_or_error
  · simp only [Parser.bind, Walk.bind, hp, hq]
    exact hf a hs' List.nil_prefix
  · simp only [Parser.bind, Walk.bind, hp, hq]
    exact ⟨rfl, hs'⟩

theorem ite {b : Prop} [Decidable b] {p' : Parser α} {q' : Walk input α} (h : Follows ts p q)
    (h' : Follows ts p' q') : Follows ts (if b then p else p') (if b then q else q') := by
  split
  · exact h
  · exact h'

theorem fail (expected : String) (help : Option String) :
    Follows ts (Parser.fail expected help) (Parser.fail expected help : Walk input α) :=
  fun _ _ hs _ => ⟨by rw [hs.toError]; rfl, hs⟩

theorem withHelp {help : String} (h : Follows ts p q) :
    Follows ts (Parser.withHelp help p) (Parser.withHelp help q) := by
  intro c s hs hts
  change Answers (Parser.withHelp help p s) ((q c).1.mapError fun e => { e with help := some help }, (q c).2)
  rw [Parser.withHelp_eq]
  obtain ⟨a, s', c', hp, hq, hs'⟩ | ⟨e, c', hp, hq, hs'⟩ := (h hs hts).ok_or_error
  · rw [hp, hq]
    exact ⟨rfl, hs'⟩
  · rw [hp, hq]
    refine ⟨?_, hs'⟩
    simp only [Failure.toError, Failure.rest]
    cases e.state.rest <;> rfl

/-! ## Looking and reading -/

theorem next? : Follows ts Parser.next? (Parser.next? : Walk input _) :=
  fun _ _ hs _ => ⟨congrArg Except.ok hs.next?, hs⟩

theorem second? : Follows ts Parser.second? (Parser.second? : Walk input _) :=
  fun _ _ hs _ => ⟨congrArg Except.ok hs.second?, hs⟩

/-- A look at the next token. -/
theorem look {f : Option Token → Parser β} {g : Option Token → Walk input β}
    (hnone : Follows [] (f none) (g none)) (hsome : ∀ t, Follows [t] (f (some t)) (g (some t))) :
    Follows [] (Parser.next? >>= f) (Parser.next? >>= g) := by
  intro c s hs _
  change Answers (f s.rest.head? s) (g (input.tokenAt? c.pos) c)
  rw [hs.next?]
  cases hrest : s.rest with
  | nil => exact hnone hs List.nil_prefix
  | cons t rest => exact hsome t hs (hrest ▸ List.cons_prefix_cons.mpr ⟨rfl, List.nil_prefix⟩)

/-- A look at the token behind the next one. -/
theorem lookFurther {t : Token} {f : Option Token → Parser β} {g : Option Token → Walk input β}
    (hnone : Follows [t] (f none) (g none)) (hsome : ∀ t', Follows [t, t'] (f (some t')) (g (some t'))) :
    Follows [t] (Parser.second? >>= f) (Parser.second? >>= g) := by
  intro c s hs ht
  change Answers (f s.rest.tail.head? s) (g (input.tokenAt? (c.pos + 1)) c)
  rw [hs.second?]
  obtain ⟨rest, hrest⟩ := ht
  cases rest with
  | nil => rw [← hrest]; exact hnone hs ⟨[], hrest⟩
  | cons t' rest => rw [← hrest]; exact hsome t' hs ⟨rest, hrest⟩

/-- Only a token that has been seen is read. -/
theorem advance {t : Token} {f : Unit → Parser β} {g : Unit → Walk input β} (h : Follows ts (f ()) (g ())) :
    Follows (t :: ts) (Parser.advance >>= f) (Parser.advance >>= g) := by
  intro c s hs ht
  obtain ⟨rest, hrest⟩ := ht
  have hrest : s.rest = t :: (ts ++ rest) := hrest.symm
  rw [Parser.advance_bind hrest]
  exact h (hs.advance hrest) (List.prefix_append ts rest)

theorem freshId : Follows ts Parser.freshId (Parser.freshId : Walk input _) :=
  fun _ _ hs _ => ⟨congrArg Except.ok hs.nextId.symm,
    ⟨hs.within, hs.rest, hs.lastStop, congrArg Nat.succ hs.nextId, hs.positions⟩⟩

theorem spanFrom (start : Nat) : Follows ts (Parser.spanFrom start) (Parser.spanFrom start : Walk input _) :=
  fun _ _ hs _ => ⟨congrArg (fun n => Except.ok (Span.mk start (max n start))) hs.lastStop.symm, hs⟩

theorem left : Follows ts Parser.left (Parser.left : Walk input _) :=
  fun _ _ hs _ => ⟨congrArg Except.ok hs.length_rest.symm, hs⟩

/-! ## Single tokens -/

theorem peek : Follows [] Parser.peek (Parser.peek : Walk input _) := next?.bind fun _ => pure _

theorem accept (kind : TokenKind) : Follows [] (Parser.accept kind) (Parser.accept kind : Walk input _) :=
  look (pure _) fun _ => ite (advance (pure _)) (pure _)

theorem expect (kind : TokenKind) (expected : String) :
    Follows [] (Parser.expect kind expected) (Parser.expect kind expected : Walk input _) :=
  look (fail _ _) fun _ => ite (advance (pure _)) (fail _ _)

theorem expectSymbol (sign : Symbol) (expected : String) :
    Follows [] (Parser.expectSymbol sign expected) (Parser.expectSymbol sign expected : Walk input _) :=
  expect _ _

theorem expectKeyword (word : Keyword) (expected : String) :
    Follows [] (Parser.expectKeyword word expected) (Parser.expectKeyword word expected : Walk input _) :=
  expect _ _

theorem identifier (expected : String) :
    Follows [] (Parser.identifier expected) (Parser.identifier expected : Walk input _) := by
  refine look (fail _ _) ?_
  rintro ⟨kind, span⟩
  cases kind with
  | identifier => exact advance (pure _)
  | _ => exact fail _ _

theorem typeName (expected : String) :
    Follows [] (Parser.typeName expected) (Parser.typeName expected : Walk input _) := by
  refine look (fail _ _) ?_
  rintro ⟨kind, span⟩
  cases kind with
  | typeName => exact advance (pure _)
  | _ => exact fail _ _

theorem operator? (ops : List BinaryOp) :
    Follows [] (Parser.operator? ops) (Parser.operator? ops : Walk input _) := by
  refine look (pure _) fun t => ?_
  dsimp only [Option.bind_some]
  cases ops.find? fun op => t.kind = .symbol op.symbol with
  | none => exact pure _
  | some op => exact advance (pure _)

theorem optionalAfter (kind : TokenKind) (h : Follows [] p q) :
    Follows [] (Parser.optionalAfter kind p) (Parser.optionalAfter kind q) :=
  (accept kind).bind fun _ => ite (h.bind fun _ => pure _) (pure _)

/-! ## Repetition -/

theorem sepBy (h : Follows [] p q) (sep : Symbol) : Follows [] (Parser.sepBy p sep) (Parser.sepBy q sep) := by
  refine left.bind fun n => ?_
  induction n with
  | zero => exact h.bind fun _ => pure _
  | succ n ih => exact h.bind fun _ => (accept _).bind fun _ => ite (ih.bind fun _ => pure _) (pure _)

theorem sepByBefore (h : Follows [] p q) (sep close : Symbol) :
    Follows [] (Parser.sepByBefore p sep close) (Parser.sepByBefore q sep close) :=
  peek.bind fun _ => ite (pure _) (h.sepBy sep)

theorem someUntil (h : Follows [] p q) (close : TokenKind) :
    Follows [] (Parser.someUntil p close) (Parser.someUntil q close) := by
  refine left.bind fun n => ?_
  induction n with
  | zero => exact h.bind fun _ => pure _
  | succ n ih => exact h.bind fun _ => (accept _).bind fun _ => ite (pure _) (ih.bind fun _ => pure _)

theorem manyBefore (h : Follows [] p q) (close : TokenKind) :
    Follows [] (Parser.manyBefore p close) (Parser.manyBefore q close) := by
  refine left.bind fun n => ?_
  induction n with
  | zero => exact pure _
  | succ n ih =>
      refine peek.bind fun kind => ?_
      cases kind with
      | none => exact pure _
      | some kind => exact ite (pure _) (h.bind fun _ => ih.bind fun _ => pure _)

/-! ## Expressions -/

section Parts

variable {e : Parser Expr} {e' : Walk input Expr} (he : Follows [] e e')
include he

theorem arguments : Follows [] (Parser.arguments e) (Parser.arguments e') :=
  (expectSymbol _ _).bind fun _ => (he.sepByBefore _ _).bind fun _ =>
    (expectSymbol _ _).bind fun _ => pure _

theorem binding : Follows [] (Parser.binding e) (Parser.binding e') :=
  (identifier _).bind fun _ => (expectSymbol _ _).bind fun _ => (typeName _).bind fun _ =>
    (he.optionalAfter _).bind fun _ => freshId.bind fun _ => (spanFrom _).bind fun _ => pure _

theorem arm : Follows [] (Parser.arm e) (Parser.arm e') :=
  (identifier _).bind fun _ => (expectSymbol _ _).bind fun _ => (typeName _).bind fun _ =>
    (expectSymbol _ _).bind fun _ => he.bind fun _ => (expectSymbol _ _).bind fun _ =>
    freshId.bind fun _ => (spanFrom _).bind fun _ => pure _

theorem statement : Follows [] (Parser.statement e) (Parser.statement e') :=
  he.bind fun _ => (expectSymbol _ _).bind fun _ => pure _

theorem conditional (start : Nat) : Follows [] (Parser.conditional e start) (Parser.conditional e' start) :=
  he.bind fun _ => (expectKeyword _ _).bind fun _ => he.bind fun _ => (expectKeyword _ _).bind fun _ =>
    he.bind fun _ => (expectKeyword _ _).bind fun _ => (spanFrom _).bind fun _ => pure _

theorem whileLoop (start : Nat) : Follows [] (Parser.whileLoop e start) (Parser.whileLoop e' start) :=
  he.bind fun _ => (expectKeyword _ _).bind fun _ => he.bind fun _ => (expectKeyword _ _).bind fun _ =>
    (spanFrom _).bind fun _ => pure _

theorem letExpr (start : Nat) : Follows [] (Parser.letExpr e start) (Parser.letExpr e' start) :=
  (he.binding.sepBy _).bind fun _ => (expectKeyword _ _).bind fun _ => he.bind fun _ =>
    (spanFrom _).bind fun _ => pure _

theorem caseExpr (start : Nat) : Follows [] (Parser.caseExpr e start) (Parser.caseExpr e' start) :=
  he.bind fun _ => (expectKeyword _ _).bind fun _ => (he.arm.someUntil _).bind fun _ =>
    (spanFrom _).bind fun _ => pure _

theorem parenthesized (start : Nat) :
    Follows [] (Parser.parenthesized e start) (Parser.parenthesized e' start) :=
  he.bind fun _ => (expectSymbol _ _).bind fun _ => (spanFrom _).bind fun _ => pure _

theorem blockExpr (start : Nat) : Follows [] (Parser.blockExpr e start) (Parser.blockExpr e' start) :=
  (he.statement.someUntil _).bind fun _ => (spanFrom _).bind fun _ => pure _

theorem nameOrCall (name : String) (span : Span) :
    Follows [] (Parser.nameOrCall e name span) (Parser.nameOrCall e' name span) :=
  peek.bind fun _ => ite (he.arguments.bind fun _ => (spanFrom _).bind fun _ => pure _) (pure _)

omit he in
theorem newExpr (start : Nat) : Follows [] (Parser.newExpr start) (Parser.newExpr start : Walk input _) :=
  (typeName _).bind fun _ => (spanFrom _).bind fun _ => pure _

/-- Both readers tell by the same first tokens what follows. -/
theorem behindFirst? (t : Token) :
    Option.Rel (Follows []) (Parser.behindFirst? e t) (Parser.behindFirst? e' t) := by
  unfold Parser.behindFirst?
  split
  · exact .some (he.conditional _)
  · exact .some (he.whileLoop _)
  · exact .some (he.letExpr _)
  · exact .some (he.caseExpr _)
  · exact .some (newExpr _)
  · exact .some (pure _)
  · exact .some (pure _)
  · exact .some (he.parenthesized _)
  · exact .some (he.blockExpr _)
  · exact .some (he.nameOrCall _ _)
  · exact .some (pure _)
  · exact .some (pure _)
  · exact .none

theorem atom : Follows [] (Parser.atom e) (Parser.atom e') := by
  refine look (fail _ _) fun t => ?_
  have hbehind := he.behindFirst? t
  dsimp only [Option.bind_some]
  generalize Parser.behindFirst? e t = p, Parser.behindFirst? e' t = q at hbehind
  cases hbehind with
  | none => exact fail _ _
  | some h => exact advance h

theorem calls (x : Expr) : Follows [] (Parser.calls e x) (Parser.calls e' x) := by
  refine left.bind fun n => ?_
  induction n generalizing x with
  | zero => exact pure _
  | succ n ih =>
      refine (accept _).bind fun _ => ite ?_ ((accept _).bind fun _ => ite ?_ (pure _))
      · exact (identifier _).bind fun _ => he.arguments.bind fun _ => (spanFrom _).bind fun _ => ih _
      · exact (typeName _).bind fun _ => (expectSymbol _ _).bind fun _ => (identifier _).bind fun _ =>
          he.arguments.bind fun _ => (spanFrom _).bind fun _ => ih _

theorem unary (kind : TokenKind) (op : UnaryOp) :
    Follows [] (Parser.unary kind op e) (Parser.unary kind op e') := by
  refine left.bind fun n => ?_
  induction n with
  | zero => exact he
  | succ n ih => exact look he fun _ => ite (advance (ih.bind fun _ => pure _)) he.seen

theorem chain (ops : List BinaryOp) : Follows [] (Parser.chain ops e) (Parser.chain ops e') := by
  refine he.bind fun x => left.bind fun n => ?_
  induction n generalizing x with
  | zero => exact pure _
  | succ n ih =>
      refine (operator? _).bind fun op => ?_
      cases op with
      | none => exact pure _
      | some op => exact he.bind fun _ => ih _

theorem postfixed : Follows [] (Parser.postfixed e) (Parser.postfixed e') := he.atom.bind fun x => he.calls x

theorem sum : Follows [] (Parser.sum e) (Parser.sum e') :=
  ((((he.postfixed.unary _ _).unary _ _).chain _).chain _)

theorem negation : Follows [] (Parser.negation e) (Parser.negation e') := by
  have hcomparison : Follows [] (Parser.comparison e) (Parser.comparison e') := by
    refine he.sum.bind fun _ => (operator? _).bind fun op => ?_
    cases op with
    | none => exact pure _
    | some op => exact he.sum.bind fun _ => pure _
  exact hcomparison.unary _ _

theorem assignment : Follows [] (Parser.assignment e) (Parser.assignment e') := by
  refine look (second?.bind fun _ => he.negation) ?_
  rintro ⟨kind, place⟩
  cases kind with
  | identifier name =>
      refine lookFurther he.negation.seen ?_
      rintro ⟨kind, sign⟩
      cases kind with
      | symbol symbol =>
          cases symbol with
          | assign => exact advance (advance (he.bind fun _ => (spanFrom _).bind fun _ => pure _))
          | _ => exact he.negation.seen
      | _ => exact he.negation.seen
  | _ => exact second?.bind fun _ => he.negation

end Parts

theorem expr : Follows [] Parser.expr (Parser.expr : Walk input _) := by
  refine left.bind fun n => ?_
  suffices h : ∀ n, Follows [] (Parser.exprN n) (Parser.exprN n : Walk input _) from h (n + 1)
  intro n
  induction n with
  | zero => exact fail _ _
  | succ n ih => exact ih.assignment

/-! ## Classes -/

theorem param : Follows [] Parser.param (Parser.param : Walk input _) :=
  (identifier _).bind fun _ => (expectSymbol _ _).bind fun _ => (typeName _).bind fun _ =>
    (spanFrom _).bind fun _ => pure _

theorem methodDecl (name : String) (start : Nat) :
    Follows [] (Parser.methodDecl name start) (Parser.methodDecl name start : Walk input _) :=
  freshId.bind fun _ => (param.sepByBefore _ _).bind fun _ => (expectSymbol _ _).bind fun _ =>
    (expectSymbol _ _).bind fun _ => (typeName _).bind fun _ => (expectSymbol _ _).bind fun _ =>
    expr.bind fun _ => (expectSymbol _ _).bind fun _ => (spanFrom _).bind fun _ => pure _

theorem attrDecl (name : String) (start : Nat) :
    Follows [] (Parser.attrDecl name start) (Parser.attrDecl name start : Walk input _) :=
  (expectSymbol _ _).bind fun _ => (typeName _).bind fun _ => (expr.optionalAfter _).bind fun _ =>
    (spanFrom _).bind fun _ => pure _

theorem member : Follows [] Parser.member (Parser.member : Walk input _) := by
  have hfeature : Follows [] Parser.feature (Parser.feature : Walk input _) :=
    (identifier _).bind fun _ => (accept _).bind fun _ =>
      ite ((methodDecl _ _).bind fun _ => pure _) ((attrDecl _ _).bind fun _ => pure _)
  exact hfeature.bind fun _ => (expectSymbol _ _).withHelp.bind fun _ => pure _

theorem classDecl : Follows [] Parser.classDecl (Parser.classDecl : Walk input _) :=
  (expectKeyword _ _).bind fun _ => freshId.bind fun _ => (typeName _).bind fun _ =>
    ((typeName _).optionalAfter _).bind fun _ => (expectSymbol _ _).bind fun _ =>
    (member.manyBefore _).bind fun _ => (expectSymbol _ _).bind fun _ =>
    (expectSymbol _ _).withHelp.bind fun _ => (spanFrom _).bind fun _ => pure _

theorem resync : Follows [] Parser.resync (Parser.resync : Walk input _) := by
  refine look (pure _) fun t => advance (left.bind fun n => ?_)
  induction n with
  | zero => exact pure _
  | succ n ih => exact look (pure _) fun _ => ite (pure _) (advance ih)

end Follows

end Walk

end CoolTyping
