import CoolTyping.Parser.Program

/-!
# Reasoning about parsers

The parsers are written for any reader of tokens. Here and in the modules that follow they read from a list, and
the first lemmas say what each of them does to its state.

`Ensures I p post`: where `p` succeeds, it keeps the invariant `I` of the parser's state, and what it
read satisfies `post`. Each combinator has one lemma, so the parsers built from them need no view of
the state. `ClassRun n s cs`: the classes `cs` are read from `s` on, one behind the other, and none of
them fails.
-/

namespace CoolTyping.Parser

variable {α β : Type} {I : State → Prop}

/-! ## Reading from a list -/

theorem next?_bind (f : Option Token → Parser α) (s : State) : (next? >>= f) s = f s.rest.head? s := rfl

theorem second?_bind (f : Option Token → Parser α) (s : State) :
    (second? >>= f) s = f s.rest.tail.head? s := rfl

theorem advance_bind {s : State} {t : Token} {rest : List Token} (h : s.rest = t :: rest)
    (f : Unit → Parser α) : (advance >>= f) s = f () (s.advance t rest) := by
  change Parser.bind advance f s = _
  simp only [Parser.bind, advance, h]

theorem withHelp_eq (help : String) (p : Parser α) (s : State) : withHelp help p s =
    match p s with
    | .ok r => .ok r
    | .error e => .error { e with help := some help } := rfl

theorem accept_eq (kind : TokenKind) (s : State) : (accept kind : Parser Bool) s =
    match s.rest with
    | t :: rest => if t.kind = kind then .ok (true, s.advance t rest) else .ok (false, s)
    | [] => .ok (false, s) := by
  rw [accept, next?_bind]
  cases hrest : s.rest with
  | nil => rfl
  | cons t rest =>
      dsimp only [List.head?_cons]
      split
      · rw [advance_bind hrest]
        rfl
      · rfl

theorem expect_eq (kind : TokenKind) (expected : String) (s : State) : (expect kind expected : Parser Span) s =
    match s.rest with
    | t :: rest => if t.kind = kind then .ok (t.span, s.advance t rest) else .error ⟨expected, none, s⟩
    | [] => .error ⟨expected, none, s⟩ := by
  rw [expect, next?_bind]
  cases hrest : s.rest with
  | nil => rfl
  | cons t rest =>
      dsimp only [List.head?_cons]
      split
      · rw [advance_bind hrest]
        rfl
      · rfl

theorem identifier_eq (expected : String) (s : State) : (identifier expected : Parser (String × Span)) s =
    match s.rest with
    | ⟨.identifier name, span⟩ :: rest => .ok ((name, span), s.advance ⟨.identifier name, span⟩ rest)
    | _ => .error ⟨expected, none, s⟩ := by
  rw [identifier, next?_bind]
  rcases hrest : s.rest with _ | ⟨⟨kind, span⟩, rest⟩
  · rfl
  · cases kind with
    | identifier name =>
        dsimp only [List.head?_cons]
        rw [advance_bind hrest]
        rfl
    | _ => rfl

theorem typeName_eq (expected : String) (s : State) : (typeName expected : Parser TypeName) s =
    match s.rest with
    | ⟨.typeName name, span⟩ :: rest => .ok (name, s.advance ⟨.typeName name, span⟩ rest)
    | ⟨.identifier name, _⟩ :: _ =>
      .error ⟨expected, some ("Type names start with an uppercase letter, not `" ++ name ++ "`"), s⟩
    | _ => .error ⟨expected, none, s⟩ := by
  rw [typeName, next?_bind]
  rcases hrest : s.rest with _ | ⟨⟨kind, span⟩, rest⟩
  · rfl
  · cases kind with
    | typeName name =>
        dsimp only [List.head?_cons]
        rw [advance_bind hrest]
        rfl
    | _ => rfl

theorem operator?_eq (ops : List BinaryOp) (s : State) : (operator? ops : Parser (Option BinaryOp)) s =
    match s.rest with
    | [] => .ok (none, s)
    | t :: rest =>
      match ops.find? fun op => t.kind = .symbol op.symbol with
      | some op => .ok (some op, s.advance t rest)
      | none => .ok (none, s) := by
  rw [operator?, next?_bind]
  cases hrest : s.rest with
  | nil => rfl
  | cons t rest =>
      dsimp only [List.head?_cons, Option.bind_some]
      cases ops.find? fun op => t.kind = .symbol op.symbol with
      | none => rfl
      | some op =>
          dsimp only
          rw [advance_bind hrest]
          rfl

theorem unaryN_succ_eq (kind : TokenKind) (op : UnaryOp) (operand : Parser Expr) (fuel : Nat) (s : State) :
    unaryN kind op operand (fuel + 1) s =
      match s.rest with
      | [] => operand s
      | t :: rest =>
        if t.kind = kind then
          match unaryN kind op operand fuel (s.advance t rest) with
          | .ok (e, s) => .ok (.unary ⟨t.span.start, e.span.stop⟩ op e, s)
          | .error e => .error e
        else
          operand s := by
  rw [unaryN, next?_bind]
  cases hrest : s.rest with
  | nil => rfl
  | cons t rest =>
      dsimp only [List.head?_cons]
      split
      · rw [advance_bind hrest]
        change Parser.bind _ _ _ = _
        unfold Parser.bind
        cases unaryN kind op operand fuel (s.advance t rest) <;> rfl
      · rfl

theorem unary_eq (kind : TokenKind) (op : UnaryOp) (operand : Parser Expr) (s : State) :
    unary kind op operand s = unaryN kind op operand s.rest.length s := rfl

theorem atom_eq (expr : Parser Expr) (s : State) : atom expr s =
    match s.rest with
    | [] => .error ⟨"Expected an expression", none, s⟩
    | t :: rest =>
      let next := s.advance t rest
      match t.kind with
      | .keyword .ifKw => conditional expr t.span.start next
      | .keyword .whileKw => whileLoop expr t.span.start next
      | .keyword .letKw => letExpr expr t.span.start next
      | .keyword .caseKw => caseExpr expr t.span.start next
      | .keyword .newKw => (newExpr t.span.start : Parser Expr) next
      | .keyword .trueKw => .ok (.bool t.span true, next)
      | .keyword .falseKw => .ok (.bool t.span false, next)
      | .symbol .lparen => parenthesized expr t.span.start next
      | .symbol .lbrace => blockExpr expr t.span.start next
      | .identifier name => nameOrCall expr name t.span next
      | .integer value => .ok (.int t.span value, next)
      | .string value => .ok (.str t.span value, next)
      | _ => .error ⟨"Expected an expression", none, s⟩ := by
  rw [atom, next?_bind]
  rcases hrest : s.rest with _ | ⟨⟨kind, span⟩, rest⟩
  · rfl
  cases kind with
  | keyword word => cases word <;> first | rfl | exact advance_bind hrest _
  | symbol sign => cases sign <;> first | rfl | exact advance_bind hrest _
  | typeName => rfl
  | identifier | integer | string => exact advance_bind hrest _

theorem assignment_eq (expr : Parser Expr) (s : State) : assignment expr s =
    match s.rest with
    | ⟨.identifier name, place⟩ :: ⟨.symbol .assign, sign⟩ :: rest =>
      (do
        let value ← expr
        return .assign (← spanFrom place.start) name value : Parser Expr)
        (s.advance ⟨.symbol .assign, sign⟩ rest)
    | _ => negation expr s := by
  rw [assignment, next?_bind, second?_bind]
  rcases hrest : s.rest with _ | ⟨⟨kind, place⟩, tail⟩
  · rfl
  cases kind with
  | identifier name =>
      rcases tail with _ | ⟨⟨kind, sign⟩, rest⟩
      · rfl
      cases kind with
      | symbol symbol =>
          cases symbol with
          | assign =>
              dsimp only [List.head?_cons, List.tail_cons]
              rw [advance_bind hrest, advance_bind rfl]
              rfl
          | _ => rfl
      | _ => rfl
  | _ => rfl

/-! ## Invariants -/

/-- A condition on the state that reading a token and numbering a scope keep. -/
structure Invariant (I : State → Prop) : Prop where
  advance : ∀ {s t rest}, s.rest = t :: rest → I s → I (s.advance t rest)
  fresh : ∀ {s}, I s → I { s with nextId := s.nextId + 1 }

def Ensures (I : State → Prop) (p : Parser α) (post : α → Prop) : Prop :=
  ∀ ⦃s a s'⦄, I s → p s = .ok (a, s') → I s' ∧ post a

namespace Ensures

variable {post : α → Prop} {post' : β → Prop}

theorem pure {a : α} (h : post a) : Ensures I (Pure.pure a : Parser α) post := by
  intro s b s' hs hp
  cases hp
  exact ⟨hs, h⟩

theorem bind {p : Parser α} {f : α → Parser β} (hp : Ensures I p post)
    (hf : ∀ a, post a → Ensures I (f a) post') : Ensures I (p >>= f) post' := by
  intro s b s'' hs h
  have h : Parser.bind p f s = .ok (b, s'') := h
  unfold Parser.bind at h
  cases hr : p s with
  | error e => rw [hr] at h; cases h
  | ok r =>
      obtain ⟨a, s'⟩ := r
      obtain ⟨hs', ha⟩ := hp hs hr
      rw [hr] at h
      exact hf a ha hs' h

theorem fail (expected : String) (help : Option String) :
    Ensures I (Parser.fail expected help : Parser α) post := by
  intro s a s' _ h
  cases h

theorem withHelp {help : String} {p : Parser α} (hp : Ensures I p post) :
    Ensures I (Parser.withHelp help p) post := by
  intro s a s' hs h
  rw [withHelp_eq] at h
  cases hr : p s with
  | error e => rw [hr] at h; cases h
  | ok r => rw [hr] at h; cases h; exact hp hs hr

theorem ite {c : Prop} [Decidable c] {p q : Parser α} (hp : c → Ensures I p post)
    (hq : ¬ c → Ensures I q post) : Ensures I (if c then p else q) post := by
  by_cases hc : c
  · rw [if_pos hc]; exact hp hc
  · rw [if_neg hc]; exact hq hc

/-! ## Single tokens -/

theorem peek : Ensures I Parser.peek (fun _ => True) := by
  intro s a s' hs h
  cases h
  exact ⟨hs, trivial⟩

theorem accept (hI : Invariant I) (kind : TokenKind) :
    Ensures I (Parser.accept kind) (fun _ => True) := by
  intro s a s' hs h
  rw [accept_eq] at h
  split at h
  · rename_i t rest hrest
    split at h
    · cases h
      exact ⟨hI.advance hrest hs, trivial⟩
    · cases h
      exact ⟨hs, trivial⟩
  · cases h
    exact ⟨hs, trivial⟩

theorem expect (hI : Invariant I) (kind : TokenKind) (expected : String) :
    Ensures I (Parser.expect kind expected) (fun _ => True) := by
  intro s a s' hs h
  rw [expect_eq] at h
  split at h
  · rename_i t rest hrest
    split at h
    · cases h
      exact ⟨hI.advance hrest hs, trivial⟩
    · cases h
  · cases h

theorem expectSymbol (hI : Invariant I) (sign : Symbol) (expected : String) :
    Ensures I (Parser.expectSymbol sign expected) (fun _ => True) :=
  expect hI _ _

theorem expectKeyword (hI : Invariant I) (word : Keyword) (expected : String) :
    Ensures I (Parser.expectKeyword word expected) (fun _ => True) :=
  expect hI _ _

theorem identifier (hI : Invariant I) (expected : String) :
    Ensures I (Parser.identifier expected) (fun _ => True) := by
  intro s a s' hs h
  rw [identifier_eq] at h
  split at h
  · rename_i hrest
    cases h
    exact ⟨hI.advance hrest hs, trivial⟩
  · cases h

/-- A type name comes from a token that holds it. -/
theorem typeName (hI : Invariant I) {Q : TypeName → Prop}
    (hQ : ∀ {s name span rest}, I s → s.rest = ⟨.typeName name, span⟩ :: rest → Q name)
    (expected : String) : Ensures I (Parser.typeName expected) Q := by
  intro s a s' hs h
  rw [typeName_eq] at h
  split at h
  · rename_i hrest
    cases h
    exact ⟨hI.advance hrest hs, hQ hs hrest⟩
  · cases h
  · cases h

theorem freshId (hI : Invariant I) : Ensures I Parser.freshId (fun _ => True) := by
  intro s a s' hs h
  cases h
  exact ⟨hI.fresh hs, trivial⟩

theorem spanFrom (start : Nat) : Ensures I (Parser.spanFrom start) (fun _ => True) := by
  intro s a s' hs h
  cases h
  exact ⟨hs, trivial⟩

theorem operator? (hI : Invariant I) (ops : List BinaryOp) :
    Ensures I (Parser.operator? ops) (fun _ => True) := by
  intro s a s' hs h
  rw [operator?_eq] at h
  split at h
  · cases h
    exact ⟨hs, trivial⟩
  · rename_i t rest hrest
    split at h
    · cases h
      exact ⟨hI.advance hrest hs, trivial⟩
    · cases h
      exact ⟨hs, trivial⟩

/-! ## Repetition -/

theorem optionalAfter (hI : Invariant I) (kind : TokenKind) {p : Parser α} (hp : Ensures I p post) :
    Ensures I (Parser.optionalAfter kind p) (fun o => ∀ a ∈ o, post a) := by
  refine (accept hI kind).bind fun b _ => ite (fun _ => ?_) fun _ => pure (by simp)
  exact hp.bind fun a ha => pure (by simpa using ha)

theorem sepByN (hI : Invariant I) {item : Parser α} (hitem : Ensures I item post) (sep : Symbol)
    (fuel : Nat) : Ensures I (Parser.sepByN item sep fuel) (fun as => ∀ a ∈ as, post a) := by
  induction fuel with
  | zero => exact hitem.bind fun a ha => pure (by simpa using ha)
  | succ fuel ih =>
      refine hitem.bind fun a ha => (accept hI _).bind fun b _ => ite (fun _ => ?_) fun _ => ?_
      · exact ih.bind fun as has => pure (List.forall_mem_cons.mpr ⟨ha, has⟩)
      · exact pure (by simpa using ha)

theorem sepBy (hI : Invariant I) {item : Parser α} (hitem : Ensures I item post) (sep : Symbol) :
    Ensures I (Parser.sepBy item sep) (fun as => ∀ a ∈ as, post a) := by
  intro s as s' hs h
  exact sepByN hI hitem sep _ hs h

theorem sepByBefore (hI : Invariant I) {item : Parser α} (hitem : Ensures I item post)
    (sep close : Symbol) :
    Ensures I (Parser.sepByBefore item sep close) (fun as => ∀ a ∈ as, post a) :=
  peek.bind fun _ _ => ite (fun _ => pure (by simp)) fun _ => sepBy hI hitem sep

theorem someUntilN (hI : Invariant I) {item : Parser α} (hitem : Ensures I item post)
    (close : TokenKind) (fuel : Nat) :
    Ensures I (Parser.someUntilN item close fuel) (fun as => ∀ a ∈ as, post a) := by
  induction fuel with
  | zero => exact hitem.bind fun a ha => pure (by simpa using ha)
  | succ fuel ih =>
      refine hitem.bind fun a ha => (accept hI _).bind fun b _ => ite (fun _ => ?_) fun _ => ?_
      · exact pure (by simpa using ha)
      · exact ih.bind fun as has => pure (List.forall_mem_cons.mpr ⟨ha, has⟩)

theorem someUntil (hI : Invariant I) {item : Parser α} (hitem : Ensures I item post)
    (close : TokenKind) : Ensures I (Parser.someUntil item close) (fun as => ∀ a ∈ as, post a) := by
  intro s as s' hs h
  exact someUntilN hI hitem close _ hs h

theorem manyBeforeN {item : Parser α} (hitem : Ensures I item post)
    (close : TokenKind) (fuel : Nat) :
    Ensures I (Parser.manyBeforeN item close fuel) (fun as => ∀ a ∈ as, post a) := by
  induction fuel with
  | zero => exact pure (by simp)
  | succ fuel ih =>
      refine peek.bind fun kind _ => ?_
      cases kind with
      | none => exact pure (by simp)
      | some kind =>
          refine ite (fun _ => pure (by simp)) fun _ => hitem.bind fun a ha => ?_
          exact ih.bind fun as has => pure (List.forall_mem_cons.mpr ⟨ha, has⟩)

theorem manyBefore {item : Parser α} (hitem : Ensures I item post)
    (close : TokenKind) : Ensures I (Parser.manyBefore item close) (fun as => ∀ a ∈ as, post a) := by
  intro s as s' hs h
  exact manyBeforeN hitem close _ hs h

end Ensures

/-! ## Classes one behind the other -/

/-- At most `n` classes are read from `s` on. They are `cs`, and no attempt fails. -/
inductive ClassRun : Nat → State → List ClassDecl → Prop
  | done {n : Nat} {s : State} : n = 0 ∨ s.rest = [] → ClassRun n s []
  | next {n : Nat} {s s' : State} {c : ClassDecl} {cs : List ClassDecl} :
      s.rest ≠ [] → (classDecl : Parser ClassDecl) s = .ok (c, s') → ClassRun n s' cs →
      ClassRun (n + 1) s (c :: cs)

theorem ClassRun.classesN_eq {n : Nat} {s : State} {cs : List ClassDecl} (h : ClassRun n s cs) :
    classesN n s = (cs, []) := by
  induction h with
  | @done n s hend =>
      rcases hend with rfl | hrest
      · rfl
      · cases n <;> simp [classesN, hrest]
  | next hne hc _ ih =>
      rw [classesN, if_neg (by simpa using hne), hc]
      simp [ih]

theorem classRun_of_classesN_eq {n : Nat} {s : State} {cs : List ClassDecl}
    (h : classesN n s = (cs, [])) : ClassRun n s cs := by
  induction n generalizing s cs with
  | zero =>
      cases h
      exact .done (.inl rfl)
  | succ n ih =>
      rw [classesN] at h
      by_cases hempty : s.rest.isEmpty = true
      · rw [if_pos hempty] at h
        cases h
        exact .done (.inr (List.isEmpty_iff.mp hempty))
      · rw [if_neg hempty] at h
        cases hc : (classDecl : Parser ClassDecl) s with
        | error e => simp [hc] at h
        | ok r =>
            rw [hc] at h
            obtain ⟨rfl, hfailures⟩ := Prod.mk.inj h
            exact .next (by simpa using hempty) hc (ih (Prod.ext rfl hfailures))

/-- A program is read where there is a class and no attempt to read one fails. -/
theorem program_eq_ok {input : TokenStream} {p : Program} : program input = .ok p ↔
    ClassRun input.tokens.length ⟨input.tokens, 0, 0⟩ p.classes ∧ p.classes ≠ [] := by
  have hrun : ClassRun input.tokens.length ⟨input.tokens, 0, 0⟩ p.classes ↔
      classesN input.tokens.length ⟨input.tokens, 0, 0⟩ = (p.classes, []) :=
    ⟨ClassRun.classesN_eq, classRun_of_classesN_eq⟩
  rw [hrun]
  unfold program
  rcases classesN input.tokens.length ⟨input.tokens, 0, 0⟩ with ⟨classes, failures⟩
  obtain ⟨classes'⟩ := p
  cases failures with
  | nil =>
      cases classes with
      | nil => simp
      | cons c cs => simpa using fun h => by simp [← h]
  | cons e es => simp

end CoolTyping.Parser
