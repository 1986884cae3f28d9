import CoolTyping.Program.Printer
import CoolTyping.Proofs.Grammar
import CoolTyping.Proofs.Lexing

/-!
# The layout of a printed program

The words of a printed program are those of its derivation: the printer adds and drops none. The
pieces are laid out so that no token runs into the next one, so the printed text is cut into the words
again.
-/

namespace CoolTyping

namespace Printer

open Grammar Lexer

/-! ## Words -/

section Words

@[simp] theorem tokensOf_nil : tokensOf [] = [] := rfl

@[simp] theorem tokensOf_append (ps qs : List Piece) :
    tokensOf (ps ++ qs) = tokensOf ps ++ tokensOf qs := List.filterMap_append

@[simp] theorem tokensOf_token (kind : TokenKind) (ps : List Piece) :
    tokensOf (.token kind :: ps) = kind :: tokensOf ps := rfl

@[simp] theorem tokensOf_gap (blanks : String) (ps : List Piece) :
    tokensOf (.gap blanks :: ps) = tokensOf ps := rfl

attribute [local simp] sym word name type sp newline indent declared

mutual

theorem expr_words : ∀ {l e w}, Derives l e w → ∀ n, tokensOf (expr n e) = w
  | _, _, _, .ofNegation h, n | _, _, _, .ofComparison h, n | _, _, _, .ofSum h, n
  | _, _, _, .ofTerm h, n | _, _, _, .ofFactor h, n | _, _, _, .ofNegated h, n
  | _, _, _, .ofPostfixed h, n | _, _, _, .ofAtom h, n => expr_words h n
  | _, _, _, .assign h, n => by simp [expr, expr_words h n]
  | _, _, _, .not h, n | _, _, _, .isvoid h, n | _, _, _, .negate h, n => by
      simp [expr, operatorPieces, expr_words h n]
  | _, _, _, .compare _ hl hr, n | _, _, _, .add _ hl hr, n | _, _, _, .mul _ hl hr, n => by
      simp [expr, expr_words hl n, expr_words hr n]
  | _, _, _, .call h hargs, n | _, _, _, .staticCall h hargs, n => by
      simp [expr, expr_words h n, arguments_words hargs n]
  | _, _, _, .cond ha hb hc, n => by
      simp [expr, expr_words ha n, expr_words hb n, expr_words hc n]
  | _, _, _, .loop ha hb, n => by simp [expr, expr_words ha n, expr_words hb n]
  | _, _, _, .letIn hbindings he, n => by
      simp [expr, bindingList_words hbindings n, expr_words he n]
  | _, _, _, .caseOf he harms _, n => by simp [expr, expr_words he n, armList_words harms n]
  | _, _, _, .paren h, n => by simp [expr, expr_words h n]
  | _, _, _, .block h _, n => by simp [expr, statements_words h n]
  | _, _, _, .selfCall hargs, n => by simp [expr, arguments_words hargs n]
  | _, _, _, .int, n => by simp [expr, number, Int.not_lt.mpr (Int.natCast_nonneg _)]
  | _, _, _, .new, n | _, _, _, .ident, n | _, _, _, .str, n | _, _, _, .bool, n => by simp [expr]

theorem arguments_words : ∀ {args w}, Listed (Derives .expr) args w → ∀ n,
    tokensOf (arguments n args) = w
  | _, _, .none, n => by simp [arguments]
  | _, _, .some (.one h), n => by simp [arguments, moreArguments, expr_words h n]
  | _, _, .some (.more h hs), n => by
      simp [arguments, expr_words h n, moreArguments_words hs n]

theorem moreArguments_words : ∀ {args w}, SepBy (Derives .expr) (.symbol .comma) args w → ∀ n,
    tokensOf (moreArguments n args) = .symbol .comma :: w
  | _, _, .one h, n => by simp [moreArguments, expr_words h n]
  | _, _, .more h hs, n => by simp [moreArguments, expr_words h n, moreArguments_words hs n]

theorem initial_words : ∀ {init w}, OptionalAfter (.symbol .assign) (Derives .expr) init w → ∀ n,
    tokensOf (initial n init) = w
  | _, _, .none, n => by simp [initial]
  | _, _, .some h, n => by simp [initial, expr_words h n]

theorem bindingList_words : ∀ {bindings w},
    SepBy (Binding (Derives .expr)) (.symbol .comma) bindings w → ∀ n,
    tokensOf (bindingList n bindings) = w
  | _, _, .one (.mk h), n => by simp [bindingList, moreBindings, initial_words h n]
  | _, _, .more (.mk h) hs, n => by
      simp [bindingList, initial_words h n, moreBindings_words hs n]

theorem moreBindings_words : ∀ {bindings w},
    SepBy (Binding (Derives .expr)) (.symbol .comma) bindings w → ∀ n,
    tokensOf (moreBindings n bindings) = .symbol .comma :: w
  | _, _, .one (.mk h), n => by simp [moreBindings, initial_words h n]
  | _, _, .more (.mk h) hs, n => by
      simp [moreBindings, initial_words h n, moreBindings_words hs n]

theorem armList_words : ∀ {arms w}, Ended (Arm (Derives .expr)) arms w → ∀ n,
    tokensOf (armList n arms) = w
  | _, _, .nil, n => by simp [armList]
  | _, _, .cons (.mk h) hs, n => by simp [armList, expr_words h (n + 2), armList_words hs n]

theorem statements_words : ∀ {es w}, Ended (Derives .expr) es w → ∀ n,
    tokensOf (statements n es) = w
  | _, _, .nil, n => by simp [statements]
  | _, _, .cons h hs, n => by simp [statements, expr_words h (n + 2), statements_words hs n]

end

theorem params_words {ps : List Param} {w : Words} (h : Listed DerivesParam ps w) :
    tokensOf (params ps) = w := by
  cases h with
  | none => rfl
  | some h =>
      have hmore : ∀ {ps w}, SepBy DerivesParam (.symbol .comma) ps w →
          tokensOf (ps.flatMap fun p => sym .comma :: sp :: declared p.name p.ty) =
            .symbol .comma :: w := by
        intro ps w h
        induction h with
        | one h => cases h; simp
        | more h _ ih => cases h; simpa using ih
      cases h with
      | one h => cases h; simp [params]
      | more h hs => cases h; simpa [params] using hmore hs

theorem feature_words {f : Feature} {w : Words} (h : DerivesFeature f w) :
    tokensOf (feature f) = w ++ [.symbol .semi] := by
  cases h with
  | attr h => simp [feature, attrDecl, initial_words h]
  | method hparams hbody => simp [feature, methodDecl, params_words hparams, expr_words hbody]

/-- Items that are printed each with its semicolon. -/
theorem flatMap_words {α : Type} {D : α → Words → Prop} {print : α → List Piece} {as : List α}
    {w : Words} (h : Ended D as w)
    (hprint : ∀ {a u}, D a u → tokensOf (print a) = u ++ [.symbol .semi]) :
    tokensOf (as.flatMap print) = w := by
  induction h with
  | nil => rfl
  | cons h _ ih => rw [List.flatMap_cons, tokensOf_append, hprint h, ih, List.append_assoc]; rfl

theorem classDecl_words {c : ClassDecl} {w : Words} (h : DerivesClass c w) :
    tokensOf (classDecl c) = w ++ [.symbol .semi] := by
  cases h with
  | mk hparent hfeatures =>
      have hfeatures := flatMap_words hfeatures feature_words
      cases hp : c.parent with
      | none =>
          rw [hp] at hparent
          cases hparent
          simp [classDecl, hp, hfeatures]
      | some parent =>
          rw [hp] at hparent
          cases hparent with
          | some hty => cases hty; simp [classDecl, hp, hfeatures]

theorem program_words {p : Program} {w : Words} (h : DerivesProgram p w) :
    tokensOf (program p) = w := by
  cases h with
  | mk hclasses _ =>
      unfold program
      split
      · rename_i hnone
        rw [hnone] at hclasses
        cases hclasses
        rfl
      · rename_i c cs hsome
        rw [hsome] at hclasses
        cases hclasses with
        | cons h hs =>
            have hmore : tokensOf (cs.flatMap fun c => newline :: classDecl c) = _ :=
              flatMap_words hs classDecl_words
            rw [tokensOf_append, classDecl_words h, hmore, List.append_assoc]
            rfl

end Words

/-! ## Tokens that touch -/

/-- The two tokens may be written without a blank between them. -/
def mayTouch : TokenKind → TokenKind → Bool
  | .string _, _ => true
  | .symbol .lparen, next => next ≠ .symbol .star
  | .symbol .minus, .integer _ => true
  | .symbol sign, _ => sign ∉ [Symbol.lt, .eq, .minus]
  | _, .symbol _ => true
  | _, _ => false

/-- What may follow a token. -/
def Parts (kind : TokenKind) : List Piece → Prop
  | [] => True
  | .gap blanks :: _ => blanks ≠ ""
  | .token next :: _ => mayTouch kind next

/-- Gaps are blank and stand between any two tokens that may not touch. -/
inductive Spaced : List Piece → Prop
  | nil : Spaced []
  | gap {blanks ps} : (∀ c ∈ blanks.toList, isBlank c) → Spaced ps → Spaced (.gap blanks :: ps)
  | token {kind ps} : Parts kind ps → Spaced ps → Spaced (.token kind :: ps)

theorem render_cons (piece : Piece) (ps : List Piece) :
    (render (piece :: ps)).toList = piece.text.toList ++ (render ps).toList := by
  simp [render]

theorem head_of_readable {kind : TokenKind} (hkind : Readable kind) {d : Char} {ds : List Char}
    (hd : kind.text.toList = d :: ds) : d.isAlphanum ∨ d = '"' ∨ ∃ sign, kind = .symbol sign := by
  cases kind with
  | typeName _ | identifier _ | keyword _ =>
      obtain ⟨c, cs, htext, hc, _⟩ := hkind
      rw [htext] at hd
      cases hd
      exact .inl (by simp [Char.isAlphanum, hc])
  | integer value =>
      have hmem : d ∈ Nat.toDigits 10 value := by
        have : d ∈ (TokenKind.integer value).text.toList := hd ▸ List.mem_cons_self
        simpa [TokenKind.text] using this
      have hdigit : d.isDigit := Nat.isDigit_of_mem_toDigits (by decide) (by decide) hmem
      exact .inl (by simp [Char.isAlphanum, hdigit])
  | string value =>
      simp only [TokenKind.text, String.toList_append] at hd
      exact .inr (.inl (List.cons.inj hd).1.symm)
  | symbol sign => exact .inr (.inr ⟨sign, rfl⟩)

/-- Where two tokens may touch, the first takes in nothing of the second. -/
theorem not_swallows_of_mayTouch {kind next : TokenKind} (h : mayTouch kind next) (hnext : Readable next)
    {d : Char} {ds : List Char} (hd : next.text.toList = d :: ds) : ¬ Swallows kind d := by
  have hword : ∀ sign : Symbol, ∀ d ∈ sign.text.toList.head?, ¬ isWordPart d := by
    intro sign d hd
    have hall : sign.text.toList.head?.all fun d => !isWordPart d := by cases sign <;> decide
    rw [Option.mem_def.mp hd] at hall
    simpa using hall
  have hstar : ∀ sign : Symbol, '*' ∈ sign.text.toList.head? → sign = .star := by
    intro sign
    cases sign <;> decide
  cases kind with
  | string _ => exact id
  | symbol sign =>
      cases sign
      case lparen =>
        rintro rfl
        rcases head_of_readable hnext hd with halpha | hquote | ⟨sign, rfl⟩
        · exact absurd halpha (by decide)
        · exact absurd hquote (by decide)
        · have := hstar sign (by simp [TokenKind.text] at hd; simp [hd])
          simp [mayTouch, this] at h
      case minus =>
        cases next with
        | integer value =>
            rcases head_of_readable hnext hd with halpha | rfl | ⟨sign, ⟨⟩⟩
            · rintro (rfl | rfl)
              · exact absurd halpha (by decide)
              · exact absurd halpha (by decide)
            · simp [Swallows]
        | _ => simp [mayTouch] at h
      all_goals simp [mayTouch, Swallows] at h ⊢
  | typeName _ | identifier _ | keyword _ =>
      cases next with
      | symbol sign => exact hword sign d (by simp [TokenKind.text] at hd; simp [hd])
      | _ => simp [mayTouch] at h
  | integer _ =>
      cases next with
      | symbol sign =>
          intro hdigit
          refine hword sign d (by simp [TokenKind.text] at hd; simp [hd]) ?_
          have hdigit : d.isDigit := hdigit
          simp [isWordPart, Char.isAlphanum, hdigit]
      | _ => simp [mayTouch] at h

theorem not_swallows_blank (kind : TokenKind) {d : Char} (hd : isBlank d) : ¬ Swallows kind d := by
  have hblank : d = ' ' ∨ d = '\t' ∨ d = '\r' ∨ d = '\n' := by
    simpa [isBlank, or_assoc] using hd
  cases kind with
  | symbol sign => rcases hblank with rfl | rfl | rfl | rfl <;> cases sign <;> simp [Swallows]
  | _ => rcases hblank with rfl | rfl | rfl | rfl <;> simp only [Swallows, not_false_eq_true] <;> decide

/-- The text of spaced pieces is made of their tokens. -/
theorem Spaced.written {ps : List Piece} (h : Spaced ps) (hread : ∀ kind ∈ tokensOf ps, Readable kind) :
    Written (render ps).toList (tokensOf ps) := by
  induction h with
  | nil => exact .nil
  | @gap blanks ps hblanks _ ih =>
      rw [render_cons, tokensOf_gap]
      simp only [Piece.text]
      have hps := ih hread
      generalize blanks.toList = cs at hblanks
      induction cs with
      | nil => exact hps
      | cons c cs ihcs =>
          exact .blank (hblanks c List.mem_cons_self) (ihcs fun d hd => hblanks d (List.mem_cons_of_mem _ hd))
  | @token kind ps hparts hps ih =>
      rw [render_cons, tokensOf_token]
      have hkind : Readable kind := hread kind List.mem_cons_self
      refine .token hkind ?_ (ih fun k hk => hread k (List.mem_cons_of_mem _ hk))
      intro d hd
      cases hps with
      | nil => cases hd
      | @gap blanks ps hblanks _ =>
          have hne : blanks.toList ≠ [] := by simpa [Parts] using hparts
          rw [render_cons] at hd
          simp only [Piece.text] at hd
          cases hcs : blanks.toList with
          | nil => exact absurd hcs hne
          | cons c cs =>
              rw [hcs] at hd hblanks
              cases hd
              exact not_swallows_blank kind (hblanks d List.mem_cons_self)
      | @token next ps _ _ =>
          obtain ⟨c, cs, htext, _⟩ := @cut_token next (hread next (by simp)) [] (by simp)
          rw [render_cons] at hd
          simp only [Piece.text, htext] at hd
          cases hd
          exact not_swallows_of_mayTouch hparts (hread next (by simp)) htext

/-! ## Spacing of printed programs -/

/-- What may follow an expression: a gap or a sign. -/
def Soft : List Piece → Prop
  | [] => True
  | .gap blanks :: _ => blanks ≠ ""
  | .token (.symbol _) :: _ => True
  | .token _ :: _ => False

/-- An expression may end with any word, but only with a closing sign. -/
theorem Soft.parts {ps : List Piece} (h : Soft ps) {kind : TokenKind}
    (hkind : ∀ sign, kind = .symbol sign → sign ∈ [Symbol.rparen, .rbrace]) : Parts kind ps := by
  match ps, h with
  | [], _ => trivial
  | .gap _ :: _, h => exact h
  | .token (.symbol _) :: _, _ =>
      change mayTouch kind _
      cases kind with
      | symbol sign => cases sign <;> simp [mayTouch] at hkind ⊢
      | _ => simp [mayTouch]

theorem expr_head (n : Nat) : ∀ e, ∃ kind ps, expr n e = .token kind :: ps ∧ kind ≠ .symbol .star
  | .dispatch _ (some receiver) _ _ | .staticDispatch _ receiver _ _ _ | .binary _ _ receiver _ => by
      obtain ⟨kind, ps, h, hkind⟩ := expr_head n receiver
      simp [expr, h, hkind]
  | .int _ value => by
      unfold expr number
      split
      · exact ⟨_, _, rfl, by simp⟩
      · exact ⟨_, _, rfl, by simp⟩
  | .unary _ op _ => by cases op <;> simp [expr, operatorPieces, word, sym]
  | .assign .. | .dispatch _ none _ _ | .cond .. | .loop .. | .letIn .. | .caseOf .. | .block ..
  | .new .. | .paren .. | .ident .. | .str .. | .bool .. => by simp [expr, word, sym, name]

section Spacing

attribute [local simp] sym word name type declared mayTouch

@[local simp] theorem spaced_token {kind : TokenKind} {ps : List Piece} :
    Spaced (.token kind :: ps) ↔ Parts kind ps ∧ Spaced ps := by
  constructor
  · rintro ⟨⟩
    exact ⟨‹_›, ‹_›⟩
  · exact fun h => .token h.1 h.2

theorem spaced_gap {blanks : String} (hblanks : ∀ c ∈ blanks.toList, isBlank c) {ps : List Piece} :
    Spaced (.gap blanks :: ps) ↔ Spaced ps := by
  constructor
  · rintro ⟨⟩
    assumption
  · exact .gap hblanks

@[local simp] theorem spaced_sp {ps : List Piece} : Spaced (sp :: ps) ↔ Spaced ps :=
  spaced_gap (List.all_eq_true.mp (by decide))

@[local simp] theorem spaced_newline {ps : List Piece} : Spaced (newline :: ps) ↔ Spaced ps :=
  spaced_gap (List.all_eq_true.mp (by decide))

@[local simp] theorem spaced_indent {n : Nat} {ps : List Piece} :
    Spaced (indent n :: ps) ↔ Spaced ps :=
  spaced_gap (by simp [isBlank])

@[local simp] theorem parts_token {kind next : TokenKind} {ps : List Piece} :
    Parts kind (.token next :: ps) ↔ mayTouch kind next := Iff.rfl

@[local simp] theorem parts_sp {kind : TokenKind} {ps : List Piece} : Parts kind (sp :: ps) := by
  simp [Parts, sp]

@[local simp] theorem parts_newline {kind : TokenKind} {ps : List Piece} :
    Parts kind (newline :: ps) := by
  simp [Parts, newline]

@[local simp] theorem soft_sp {ps : List Piece} : Soft (sp :: ps) := by simp [Soft, sp]

@[local simp] theorem soft_newline {ps : List Piece} : Soft (newline :: ps) := by
  simp [Soft, newline]

@[local simp] theorem soft_symbol {sign : Symbol} {ps : List Piece} :
    Soft (.token (.symbol sign) :: ps) := trivial

/-- An opening parenthesis in front of an expression does not start a comment. -/
@[local simp] theorem parts_expr {n : Nat} {e : Expr} {ps : List Piece} :
    Parts (.symbol .lparen) (expr n e ++ ps) := by
  obtain ⟨kind, rest, h, hkind⟩ := expr_head n e
  simp [h, hkind]

theorem soft_moreArguments (n : Nat) (args : List Expr) {ps : List Piece} (h : Soft ps) :
    Soft (moreArguments n args ++ ps) := by
  cases args with
  | nil => simpa [moreArguments] using h
  | cons e es => simp [moreArguments]

@[local simp] theorem parts_arguments {n : Nat} {args : List Expr} {ps : List Piece} :
    Parts (.symbol .lparen) (arguments n args ++ .token (.symbol .rparen) :: ps) := by
  cases args with
  | nil => simp [arguments]
  | cons e es => simp [arguments]

theorem soft_initial (n : Nat) (init : Option Expr) {ps : List Piece} (h : Soft ps) :
    Soft (initial n init ++ ps) := by
  cases init with
  | none => simpa [initial] using h
  | some e => simp [initial]

theorem soft_moreBindings (n : Nat) (bindings : List (Binder × Option Expr)) {ps : List Piece}
    (h : Soft ps) : Soft (moreBindings n bindings ++ ps) := by
  cases bindings with
  | nil => simpa [moreBindings] using h
  | cons b bindings => simp [moreBindings]

mutual

theorem expr_spaced (n : Nat) : ∀ (e : Expr) {ps : List Piece}, Soft ps →
    (Spaced (expr n e ++ ps) ↔ Spaced ps)
  | .assign _ x value, ps, h => by simp [expr, expr_spaced n value h]
  | .dispatch _ none method args, ps, h => by
      simp [expr, arguments_spaced n args, h.parts]
  | .dispatch _ (some receiver) method args, ps, h => by
      simp [expr, expr_spaced n receiver, arguments_spaced n args, h.parts]
  | .staticDispatch _ receiver ancestor method args, ps, h => by
      simp [expr, expr_spaced n receiver, arguments_spaced n args, h.parts]
  | .cond _ test thenBranch elseBranch, ps, h => by
      simp [expr, expr_spaced n test, expr_spaced n thenBranch, expr_spaced n elseBranch, h.parts]
  | .loop _ test body, ps, h => by
      simp [expr, expr_spaced n test, expr_spaced n body, h.parts]
  | .letIn _ bindings body, ps, h => by
      simp [expr, bindingList_spaced n bindings, expr_spaced n body h]
  | .caseOf _ scrutinee arms, ps, h => by
      simp [expr, expr_spaced n scrutinee, armList_spaced n arms, h.parts]
  | .block _ body, ps, h => by simp [expr, statements_spaced n body, h.parts]
  | .binary _ op left right, ps, h => by
      simp [expr, expr_spaced n left, expr_spaced n right, h]
  | .unary _ op operand, ps, h => by
      cases op with
      | not | isvoid => simp [expr, operatorPieces, expr_spaced n operand, h]
      | negate =>
          obtain ⟨kind, rest, hhead, -⟩ := expr_head n operand
          have hparts : Parts (.symbol .tilde) (expr n operand ++ ps) := by simp [hhead]
          simp [expr, operatorPieces, expr_spaced n operand, h, hparts]
  | .paren _ inner, ps, h => by simp [expr, expr_spaced n inner, h.parts]
  | .int _ value, ps, h => by
      unfold expr number
      split
      · simp [h.parts]
      · simp [h.parts]
  | .new .., ps, h | .ident .., ps, h | .str .., ps, h | .bool .., ps, h => by simp [expr, h.parts]

theorem arguments_spaced (n : Nat) : ∀ (args : List Expr) {ps : List Piece}, Soft ps →
    (Spaced (arguments n args ++ ps) ↔ Spaced ps)
  | [], _, _ => by simp [arguments]
  | e :: es, ps, h => by
      simp [arguments, expr_spaced n e (soft_moreArguments n es h), moreArguments_spaced n es h]

theorem moreArguments_spaced (n : Nat) : ∀ (args : List Expr) {ps : List Piece}, Soft ps →
    (Spaced (moreArguments n args ++ ps) ↔ Spaced ps)
  | [], _, _ => by simp [moreArguments]
  | e :: es, ps, h => by
      simp [moreArguments, expr_spaced n e (soft_moreArguments n es h), moreArguments_spaced n es h]

theorem initial_spaced (n : Nat) : ∀ (init : Option Expr) {ps : List Piece}, Soft ps →
    (Spaced (initial n init ++ ps) ↔ Spaced ps)
  | none, _, _ => by simp [initial]
  | some e, ps, h => by simp [initial, expr_spaced n e h]

theorem bindingList_spaced (n : Nat) : ∀ (bindings : List (Binder × Option Expr)) {ps : List Piece},
    Soft ps → (Spaced (bindingList n bindings ++ ps) ↔ Spaced ps)
  | [], _, _ => by simp [bindingList]
  | (b, init) :: bindings, ps, h => by
      simp [bindingList, initial_spaced n init (soft_moreBindings n bindings h),
        (soft_initial n init (soft_moreBindings n bindings h)).parts,
        moreBindings_spaced n bindings h]

theorem moreBindings_spaced (n : Nat) : ∀ (bindings : List (Binder × Option Expr)) {ps : List Piece},
    Soft ps → (Spaced (moreBindings n bindings ++ ps) ↔ Spaced ps)
  | [], _, _ => by simp [moreBindings]
  | (b, init) :: bindings, ps, h => by
      simp [moreBindings, initial_spaced n init (soft_moreBindings n bindings h),
        (soft_initial n init (soft_moreBindings n bindings h)).parts,
        moreBindings_spaced n bindings h]

theorem armList_spaced (n : Nat) : ∀ (arms : List (Binder × Expr)) {ps : List Piece},
    Spaced (armList n arms ++ ps) ↔ Spaced ps
  | [], _ => by simp [armList]
  | (b, body) :: arms, ps => by simp [armList, expr_spaced (n + 2) body, armList_spaced n arms]

theorem statements_spaced (n : Nat) : ∀ (es : List Expr) {ps : List Piece},
    Spaced (statements n es ++ ps) ↔ Spaced ps
  | [], _ => by simp [statements]
  | e :: es, ps => by simp [statements, expr_spaced (n + 2) e, statements_spaced n es]

end

@[local simp] theorem parts_params {params : List Param} {ps : List Piece} :
    Parts (.symbol .lparen) (Printer.params params ++ .token (.symbol .rparen) :: ps) := by
  cases params with
  | nil => simp [Printer.params]
  | cons p params => simp [Printer.params]

theorem declared_spaced {n : String} {ty : TypeName} {ps : List Piece} (h : Soft ps) :
    Spaced (declared n ty ++ ps) ↔ Spaced ps := by simp [h.parts]

theorem params_spaced (params : List Param) {ps : List Piece} (h : Soft ps) :
    Spaced (Printer.params params ++ ps) ↔ Spaced ps := by
  have hmore : ∀ params : List Param,
      Soft ((params.flatMap fun p => sym .comma :: sp :: declared p.name p.ty) ++ ps) ∧
      (Spaced ((params.flatMap fun p => sym .comma :: sp :: declared p.name p.ty) ++ ps) ↔
        Spaced ps) := by
    intro params
    induction params with
    | nil => exact ⟨h, Iff.rfl⟩
    | cons p params ih =>
        refine ⟨trivial, ?_⟩
        rw [List.flatMap_cons, List.append_assoc, List.cons_append, List.cons_append]
        refine spaced_token.trans ((and_iff_right parts_sp).trans ?_)
        rw [spaced_sp, declared_spaced ih.1, ih.2]
  cases params with
  | nil => rfl
  | cons p params =>
      rw [Printer.params, List.append_assoc, declared_spaced (hmore params).1, (hmore params).2]

theorem feature_spaced (f : Feature) {ps : List Piece} : Spaced (feature f ++ ps) ↔ Spaced ps := by
  cases f with
  | attr a =>
      have hsemi : Soft (.token (.symbol .semi) :: newline :: ps) := trivial
      simp [feature, attrDecl, initial_spaced 2 a.init hsemi, (soft_initial 2 a.init hsemi).parts]
  | method m =>
      simp [feature, methodDecl, expr_spaced 4 m.body, params_spaced m.params]

theorem classDecl_spaced (c : ClassDecl) {ps : List Piece} : Spaced (classDecl c ++ ps) ↔ Spaced ps := by
  have hfeatures : ∀ fs : List Feature, ∀ ps, Spaced (fs.flatMap feature ++ ps) ↔ Spaced ps := by
    intro fs
    induction fs with
    | nil => simp
    | cons f fs ih => simp [feature_spaced, ih]
  cases hp : c.parent <;> simp [classDecl, hp, hfeatures]

theorem program_spaced (p : Program) : Spaced (program p) := by
  have hmore : ∀ cs : List ClassDecl, Spaced (cs.flatMap fun c => newline :: classDecl c) := by
    intro cs
    induction cs with
    | nil => exact .nil
    | cons c cs ih => simpa [classDecl_spaced] using ih
  unfold program
  split
  · exact .nil
  · rw [classDecl_spaced]
    exact hmore _

end Spacing

end Printer

/-- A program is printed as a text with the words of its derivation. -/
theorem lex_format {p : Program} {w : Grammar.Words} (h : Grammar.DerivesProgram p w)
    (hread : ∀ kind ∈ w, Lexer.Readable kind) :
    ∃ input, lex p.format = .ok input ∧ input.tokens.map (·.kind) = w := by
  have hwords := Printer.program_words h
  refine lex_written ?_
  rw [← hwords] at hread ⊢
  exact (Printer.program_spaced p).written hread

end CoolTyping
