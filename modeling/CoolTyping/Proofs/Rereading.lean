import CoolTyping.Proofs.Positions

/-!
# Reading two texts

Each parser in turn takes corresponding tokens of two texts that differ in the names of types only, and
what it reads from the one is a copy of what it reads from the other, at corresponding places.
-/

namespace CoolTyping

/-! ## Lists of copies -/

namespace Expr

variable {Q : TypeName → TypeName → Prop} {S : Span → Span → Prop}

theorem CopyOpt.of_rel {o o' : Option Expr} (h : Option.Rel (Copy Q S) o o') : CopyOpt Q S o o' := by
  cases h with
  | none => exact .none
  | some h => exact .some h

theorem CopyAll.of_forall₂ {es es' : List Expr} (h : List.Forall₂ (Copy Q S) es es') :
    CopyAll Q S es es' := by
  induction h with
  | nil => exact .nil
  | cons h _ ih => exact .cons h ih

theorem CopyInits.of_forall₂ {bs bs' : List (Binder × Option Expr)}
    (h : List.Forall₂ (fun b b' => CopyInits Q S [b] [b']) bs bs') : CopyInits Q S bs bs' := by
  induction h with
  | nil => exact .nil
  | cons h _ ih =>
      cases h with
      | cons q s c _ => exact .cons q s c ih

theorem CopyArms.of_forall₂ {arms arms' : List (Binder × Expr)}
    (h : List.Forall₂ (fun a a' => CopyArms Q S [a] [a']) arms arms') : CopyArms Q S arms arms' := by
  induction h with
  | nil => exact .nil
  | cons h _ ih =>
      cases h with
      | cons q s c _ => exact .cons q s c ih

end Expr

namespace Twins

open CoolTyping.Parser
open CoolTyping.Expr (Copy CopyOpt CopyAll CopyInits CopyArms)

variable {T : Twins}

/-! ## Expressions -/

variable (T) in
/-- An expression and a copy of it that start with the token of number `i` and end before that of
number `m`. -/
structure ExprAt (i m : Nat) (e e' : Expr) : Prop where
  covers : ∃ j, j ≤ m ∧ T.Covers i j e.span e'.span
  copy : Copy AnyTypes T.Corresponds e e'

namespace ExprAt

variable {i k m : Nat} {e e' x x' : Expr}

theorem of_covers (hspan : T.Covers i m e.span e'.span) (hcopy : Copy AnyTypes T.Corresponds e e') :
    T.ExprAt i m e e' := ⟨⟨m, Nat.le_refl m, hspan⟩, hcopy⟩

theorem mono (h : T.ExprAt i k e e') (hkm : k ≤ m) : T.ExprAt i m e e' := by
  obtain ⟨j, hj, hspan⟩ := h.covers
  exact ⟨⟨j, Nat.le_trans hj hkm, hspan⟩, h.copy⟩

theorem lt (h : T.ExprAt i m e e') : i < m := by
  obtain ⟨j, hj, hspan⟩ := h.covers
  exact Nat.lt_of_lt_of_le hspan.lt hj

theorem starts (h : T.ExprAt i m e e') : T.Starts i e.span.start e'.span.start := by
  obtain ⟨j, _, hspan⟩ := h.covers
  exact hspan.starts

theorem mkBinary (op : BinaryOp) (h : T.ExprAt i k e e') (h' : T.ExprAt k m x x') :
    T.ExprAt i m (Parser.mkBinary op e x) (Parser.mkBinary op e' x') := by
  obtain ⟨j, hjk, hspan⟩ := h.covers
  obtain ⟨n, hnm, hspan'⟩ := h'.covers
  have hjoin := hspan.join hspan' hjk
  exact ⟨⟨n, hnm, hjoin⟩, .binary hjoin.corresponds h.copy h'.copy⟩

end ExprAt

section Parts

variable {e : Parser Expr} (he : ∀ k, T.Tracks k e e (T.ExprAt k)) {i k start start' : Nat}
include he

theorem copy_tracks (k : Nat) : T.Tracks k e e fun _ => Copy AnyTypes T.Corresponds :=
  (he k).mono fun _ _ _ h => h.copy

theorem arguments_tracks :
    T.Tracks k (arguments e) (arguments e) fun _ => CopyAll AnyTypes T.Corresponds :=
  Tracks.expectSymbol.bind fun _ _ _ _ _ => (Tracks.sepByBefore (copy_tracks he)).bind fun _ _ _ _ hargs =>
    Tracks.expectSymbol.bind fun _ _ _ _ _ => .pure (.of_forall₂ hargs)

theorem binding_tracks (k : Nat) :
    T.Tracks k (binding e) (binding e) fun _ b b' => CopyInits AnyTypes T.Corresponds [b] [b'] := by
  refine Tracks.identifier.bind ?_
  rintro m ⟨name, place⟩ ⟨_, place'⟩ _ ⟨hk, ⟨⟩, hstart⟩
  refine Tracks.expectSymbol.bind fun m₁ _ _ h₁ _ => Tracks.typeName.bind fun m₂ _ _ h₂ _ => ?_
  refine (Tracks.optionalAfter (copy_tracks he) (TokenKind.fixed_symbol _)).bind fun m₃ _ _ h₃ hinit => ?_
  refine Tracks.freshId.bind ?_
  rintro m₄ id _ h₄ rfl
  exact (Tracks.spanFrom hstart (by omega)).bind fun _ _ _ _ hspan =>
    .pure (.cons trivial hspan.corresponds (.of_rel hinit) .nil)

theorem arm_tracks (k : Nat) :
    T.Tracks k (arm e) (arm e) fun _ a a' => CopyArms AnyTypes T.Corresponds [a] [a'] := by
  refine Tracks.identifier.bind ?_
  rintro m ⟨name, place⟩ ⟨_, place'⟩ _ ⟨hk, ⟨⟩, hstart⟩
  refine Tracks.expectSymbol.bind fun m₁ _ _ h₁ _ => Tracks.typeName.bind fun m₂ _ _ h₂ _ => ?_
  refine Tracks.expectSymbol.bind fun m₃ _ _ h₃ _ => (he m₃).bind fun m₄ _ _ h₄ hbody => ?_
  refine Tracks.expectSymbol.bind fun m₅ _ _ h₅ _ => Tracks.freshId.bind ?_
  rintro m₆ id _ h₆ rfl
  exact (Tracks.spanFrom hstart (by omega)).bind fun _ _ _ _ hspan =>
    .pure (.cons trivial hspan.corresponds hbody.copy .nil)

theorem statement_tracks (k : Nat) :
    T.Tracks k (statement e) (statement e) fun _ => Copy AnyTypes T.Corresponds :=
  (he k).bind fun _ _ _ _ h => Tracks.expectSymbol.bind fun _ _ _ _ _ => .pure h.copy

section Started

variable (hstart : T.Starts i start start') (hi : i < k)
include hstart hi

theorem conditional_tracks :
    T.Tracks k (conditional e start) (conditional e start') (T.ExprAt i) := by
  refine (he k).bind fun m₁ _ _ h₁ ha => Tracks.expectKeyword.bind fun m₂ _ _ h₂ _ => ?_
  refine (he m₂).bind fun m₃ _ _ h₃ hb => Tracks.expectKeyword.bind fun m₄ _ _ h₄ _ => ?_
  refine (he m₄).bind fun m₅ _ _ h₅ hc => Tracks.expectKeyword.bind fun m₆ _ _ h₆ _ => ?_
  exact (Tracks.spanFrom hstart (by omega)).bind fun _ _ _ _ hspan =>
    .pure (.of_covers hspan (.cond hspan.corresponds ha.copy hb.copy hc.copy))

theorem whileLoop_tracks : T.Tracks k (whileLoop e start) (whileLoop e start') (T.ExprAt i) := by
  refine (he k).bind fun m₁ _ _ h₁ ha => Tracks.expectKeyword.bind fun m₂ _ _ h₂ _ => ?_
  refine (he m₂).bind fun m₃ _ _ h₃ hb => Tracks.expectKeyword.bind fun m₄ _ _ h₄ _ => ?_
  exact (Tracks.spanFrom hstart (by omega)).bind fun _ _ _ _ hspan =>
    .pure (.of_covers hspan (.loop hspan.corresponds ha.copy hb.copy))

theorem letExpr_tracks : T.Tracks k (letExpr e start) (letExpr e start') (T.ExprAt i) := by
  refine (Tracks.sepBy (binding_tracks he)).bind fun m₁ _ _ h₁ hbindings => ?_
  refine Tracks.expectKeyword.bind fun m₂ _ _ h₂ _ => (he m₂).bind fun m₃ _ _ h₃ hbody => ?_
  exact (Tracks.spanFrom hstart (by omega)).bind fun _ _ _ _ hspan =>
    .pure (.of_covers hspan (.letIn hspan.corresponds (.of_forall₂ hbindings) hbody.copy))

theorem caseExpr_tracks : T.Tracks k (caseExpr e start) (caseExpr e start') (T.ExprAt i) := by
  refine (he k).bind fun m₁ _ _ h₁ hx => Tracks.expectKeyword.bind fun m₂ _ _ h₂ _ => ?_
  refine (Tracks.someUntil (arm_tracks he) (TokenKind.fixed_keyword _)).bind fun m₃ _ _ h₃ harms => ?_
  exact (Tracks.spanFrom hstart (by omega)).bind fun _ _ _ _ hspan =>
    .pure (.of_covers hspan (.caseOf hspan.corresponds hx.copy (.of_forall₂ harms)))

omit he in
theorem newExpr_tracks : T.Tracks k (newExpr start) (newExpr start') (T.ExprAt i) := by
  refine Tracks.typeName.bind fun m₁ _ _ h₁ _ => ?_
  exact (Tracks.spanFrom hstart (by omega)).bind fun _ _ _ _ hspan =>
    .pure (.of_covers hspan (.new hspan.corresponds trivial))

theorem parenthesized_tracks :
    T.Tracks k (parenthesized e start) (parenthesized e start') (T.ExprAt i) := by
  refine (he k).bind fun m₁ _ _ h₁ hx => Tracks.expectSymbol.bind fun m₂ _ _ h₂ _ => ?_
  exact (Tracks.spanFrom hstart (by omega)).bind fun _ _ _ _ hspan =>
    .pure (.of_covers hspan (.paren hspan.corresponds hx.copy))

theorem blockExpr_tracks : T.Tracks k (blockExpr e start) (blockExpr e start') (T.ExprAt i) := by
  refine (Tracks.someUntil (statement_tracks he) (TokenKind.fixed_symbol _)).bind fun m₁ _ _ h₁ hbody => ?_
  exact (Tracks.spanFrom hstart (by omega)).bind fun _ _ _ _ hspan =>
    .pure (.of_covers hspan (.block hspan.corresponds (.of_forall₂ hbody)))

end Started

theorem nameOrCall_tracks {name : String} {span span' : Span} (hspan : T.Covers i k span span') :
    T.Tracks k (nameOrCall e name span) (nameOrCall e name span') (T.ExprAt i) := by
  refine Tracks.peek.bind fun m a b hm hab => ?_
  refine Tracks.ite (TokenKind.eq_some_iff_of_rel hab (TokenKind.fixed_symbol .lparen)) ?_ (.pure ?_)
  · refine (arguments_tracks he).bind fun m₁ _ _ h₁ hargs => ?_
    have hi := hspan.lt
    exact (Tracks.spanFrom hspan.starts (by omega)).bind fun _ _ _ _ hspan =>
      .pure (.of_covers hspan (.dispatch hspan.corresponds .none hargs))
  · exact (ExprAt.of_covers hspan (.ident hspan.corresponds)).mono hm

theorem atom_tracks : T.Tracks k (atom e) (atom e) (T.ExprAt k) := by
  refine Tracks.ofHead ?_ ?_
  · intro s t hst hs ht a s' h
    simp [atom_eq, hs] at h
  · rintro s t hst ⟨kind, span⟩ ⟨kind', span'⟩ rest rest' hs ht hxy hspan hnext a s' h
    simp only [atom_eq, hs, ht] at h ⊢
    have hstart := hspan.starts
    have hk : k < k + 1 := Nat.lt_succ_self k
    obtain ⟨name, rfl⟩ | rfl := hxy.eq_or
    · cases h
    refine Answers.mono ?_ (Nat.le_succ k)
    cases kind' with
    | keyword word =>
        cases word with
        | ifKw => exact conditional_tracks he hstart hk hnext h
        | whileKw => exact whileLoop_tracks he hstart hk hnext h
        | letKw => exact letExpr_tracks he hstart hk hnext h
        | caseKw => exact caseExpr_tracks he hstart hk hnext h
        | newKw => exact newExpr_tracks hstart hk hnext h
        | trueKw | falseKw =>
            cases h
            exact ⟨k + 1, _, _, rfl, Nat.le_refl _, hnext, .of_covers hspan (.bool hspan.corresponds)⟩
        | _ => cases h
    | symbol sign =>
        cases sign with
        | lparen => exact parenthesized_tracks he hstart hk hnext h
        | lbrace => exact blockExpr_tracks he hstart hk hnext h
        | _ => cases h
    | identifier name => exact nameOrCall_tracks he hspan hnext h
    | integer _ =>
        cases h
        exact ⟨k + 1, _, _, rfl, Nat.le_refl _, hnext, .of_covers hspan (.int hspan.corresponds)⟩
    | string _ =>
        cases h
        exact ⟨k + 1, _, _, rfl, Nat.le_refl _, hnext, .of_covers hspan (.str hspan.corresponds)⟩
    | typeName _ => cases h

theorem callsN_tracks (n : Nat) {x y : Expr} (hxy : T.ExprAt i k x y) :
    T.Tracks k (callsN e n x) (callsN e n y) (T.ExprAt i) := by
  induction n generalizing k x y with
  | zero => exact .pure hxy
  | succ n ih =>
      have hi := hxy.lt
      refine Tracks.acceptSymbol.bind ?_
      rintro m dot _ hm rfl
      cases dot with
      | true =>
          refine Tracks.identifier.bind ?_
          rintro m₁ ⟨name, place⟩ ⟨_, place'⟩ h₁ ⟨_, ⟨⟩, _⟩
          refine (arguments_tracks he).bind fun m₂ _ _ h₂ hargs => ?_
          exact (Tracks.spanFrom hxy.starts (by omega)).bind fun _ _ _ _ hspan =>
            ih (.of_covers hspan (.dispatch hspan.corresponds (.some hxy.copy) hargs))
      | false =>
          refine Tracks.acceptSymbol.bind ?_
          rintro m₁ atSign _ h₁ rfl
          cases atSign with
          | true =>
              refine Tracks.typeName.bind fun m₂ _ _ h₂ _ => Tracks.expectSymbol.bind fun m₃ _ _ h₃ _ => ?_
              refine Tracks.identifier.bind ?_
              rintro m₄ ⟨name, place⟩ ⟨_, place'⟩ h₄ ⟨_, ⟨⟩, _⟩
              refine (arguments_tracks he).bind fun m₅ _ _ h₅ hargs => ?_
              exact (Tracks.spanFrom hxy.starts (by omega)).bind fun _ _ _ _ hspan =>
                ih (.of_covers hspan (.staticDispatch hspan.corresponds hxy.copy trivial hargs))
          | false => exact .pure (hxy.mono (by omega))

theorem postfixed_tracks (k : Nat) : T.Tracks k (postfixed e) (postfixed e) (T.ExprAt k) :=
  (atom_tracks he).bind fun _ x y _ hxy =>
    .ofFuel (p := fun n => callsN e n x) (q := fun n => callsN e n y) fun n => callsN_tracks he n hxy

end Parts

section Operators

variable {operand : Parser Expr} (hoperand : ∀ k, T.Tracks k operand operand (T.ExprAt k))
include hoperand

theorem unary_tracks {kind : TokenKind} (hfixed : kind.Fixed) (op : UnaryOp) (k : Nat) :
    T.Tracks k (unary kind op operand) (unary kind op operand) (T.ExprAt k) := by
  refine .ofFuel fun n => ?_
  induction n generalizing k with
  | zero => exact hoperand k
  | succ n ih =>
      refine Tracks.ofHead ?_ ?_
      · intro s t hst hs ht a s' h
        simp only [unaryN_succ_eq, hs, ht] at h ⊢
        exact hoperand k hst h
      · intro s t hst x y rest rest' hs ht hxy hspan hnext a s' h
        have hsame := hxy.eq_iff hfixed
        simp only [unaryN_succ_eq, hs, ht] at h ⊢
        split at h
        · rename_i hx
          rw [if_pos (hsame.mp hx)]
          split at h
          · rename_i z s₁ hz
            cases h
            obtain ⟨m, b, t', hb, hm, hst', hab⟩ := ih (k + 1) hnext hz
            obtain ⟨j, hj, hoperand⟩ := hab.covers
            have hcovers : T.Covers k j ⟨x.span.start, z.span.stop⟩ ⟨y.span.start, b.span.stop⟩ :=
              ⟨Nat.lt_of_succ_lt hoperand.lt, hoperand.le, by rw [hspan.left_eq, hoperand.left_eq],
                by rw [hspan.right_eq, hoperand.right_eq]⟩
            exact ⟨m, .unary ⟨y.span.start, b.span.stop⟩ op b, t', by rw [hb], Nat.le_of_succ_le hm, hst',
              ⟨j, hj, hcovers⟩, .unary hcovers.corresponds hab.copy⟩
          · cases h
        · rename_i hx
          rw [if_neg (mt hsame.mpr hx)]
          exact hoperand k hst h

theorem chain_tracks (ops : List BinaryOp) (k : Nat) :
    T.Tracks k (chain ops operand) (chain ops operand) (T.ExprAt k) := by
  have hN : ∀ n {m x y}, T.ExprAt k m x y →
      T.Tracks m (chainN ops operand n x) (chainN ops operand n y) (T.ExprAt k) := by
    intro n
    induction n with
    | zero => exact fun hxy => .pure hxy
    | succ n ih =>
        intro m x y hxy
        refine (Tracks.operator? ops).bind ?_
        rintro m₁ op _ h₁ rfl
        cases op with
        | none => exact .pure (hxy.mono h₁)
        | some op => exact (hoperand m₁).bind fun _ _ _ _ hab => ih ((hxy.mono h₁).mkBinary op hab)
  exact (hoperand k).bind fun _ x y _ hxy =>
    .ofFuel (p := fun n => chainN ops operand n x) (q := fun n => chainN ops operand n y)
      fun n => hN n hxy

end Operators

section Levels

variable {e : Parser Expr} (he : ∀ k, T.Tracks k e e (T.ExprAt k))
include he

theorem sum_tracks (k : Nat) : T.Tracks k (sum e) (sum e) (T.ExprAt k) :=
  chain_tracks (chain_tracks (unary_tracks (unary_tracks (postfixed_tracks he)
    (TokenKind.fixed_symbol _) _) (TokenKind.fixed_keyword _) _) _) _ k

theorem comparison_tracks (k : Nat) : T.Tracks k (comparison e) (comparison e) (T.ExprAt k) := by
  refine (sum_tracks he k).bind fun m x y _ hxy => (Tracks.operator? _).bind ?_
  rintro m₁ op _ h₁ rfl
  cases op with
  | none => exact .pure (hxy.mono h₁)
  | some op => exact (sum_tracks he m₁).bind fun _ _ _ _ hab => .pure ((hxy.mono h₁).mkBinary op hab)

omit he in
theorem assignment_iff {ts us : List Token} (h : List.Forall₂ Token.Alike ts us) {name : String} :
    (∃ place sign rest, ts = ⟨.identifier name, place⟩ :: ⟨.symbol .assign, sign⟩ :: rest) ↔
      ∃ place sign rest, us = ⟨.identifier name, place⟩ :: ⟨.symbol .assign, sign⟩ :: rest := by
  constructor
  · rintro ⟨place, sign, rest, rfl⟩
    obtain ⟨⟨_, place'⟩, _, hx, hrest, rfl⟩ := List.forall₂_cons_left_iff.mp h
    obtain ⟨⟨_, sign'⟩, rest', hy, _, rfl⟩ := List.forall₂_cons_left_iff.mp hrest
    obtain rfl := (hx.eq_iff (TokenKind.fixed_identifier name)).mp rfl
    obtain rfl := (hy.eq_iff (TokenKind.fixed_symbol .assign)).mp rfl
    exact ⟨place', sign', rest', rfl⟩
  · rintro ⟨place', sign', rest', rfl⟩
    obtain ⟨⟨_, place⟩, _, hx, hrest, rfl⟩ := List.forall₂_cons_right_iff.mp h
    obtain ⟨⟨_, sign⟩, rest, hy, _, rfl⟩ := List.forall₂_cons_right_iff.mp hrest
    obtain rfl := (hx.eq_iff (TokenKind.fixed_identifier name)).mpr rfl
    obtain rfl := (hy.eq_iff (TokenKind.fixed_symbol .assign)).mpr rfl
    exact ⟨place, sign, rest, rfl⟩

theorem assignment_tracks (k : Nat) : T.Tracks k (assignment e) (assignment e) (T.ExprAt k) := by
  intro s t hst a s' h
  rw [assignment_eq] at h
  split at h
  · rename_i name place sign rest hs
    obtain ⟨place', sign', rest', ht⟩ := (assignment_iff hst.alike).mp ⟨place, sign, rest, hs⟩
    obtain ⟨hspan, hnext⟩ := hst.cons hs ht
    obtain ⟨_, hnext'⟩ := hnext.cons rfl rfl
    have hvalue : T.Tracks (k + 1 + 1)
        (do let value ← e; return .assign (← spanFrom place.start) name value : Parser Expr)
        (do let value ← e; return .assign (← spanFrom place'.start) name value : Parser Expr)
        (T.ExprAt k) :=
      (he _).bind fun m _ _ hm hv => (Tracks.spanFrom hspan.starts (by omega)).bind fun _ _ _ _ hspan =>
        .pure (.of_covers hspan (.assign hspan.corresponds hv.copy))
    simp only [assignment_eq, ht]
    exact (hvalue hnext' h).mono (by omega)
  · rename_i hno
    rw [assignment_eq]
    split
    · rename_i name place' sign' rest' ht
      -- the words of `s` would be those of an assignment too
      obtain ⟨place, sign, rest, hs⟩ := (assignment_iff hst.alike).mpr ⟨place', sign', rest', ht⟩
      exact absurd hs (hno _ _ _ _)
    · exact unary_tracks (comparison_tracks he) (TokenKind.fixed_keyword _) _ k hst h

end Levels

theorem expr_tracks (k : Nat) : T.Tracks k expr expr (T.ExprAt k) := by
  refine .ofFuel (p := fun n => exprN (n + 1)) (q := fun n => exprN (n + 1)) fun n => ?_
  have hN : ∀ n k, T.Tracks k (exprN n) (exprN n) (T.ExprAt k) := by
    intro n
    induction n with
    | zero => exact fun _ _ _ _ _ _ h => by cases h
    | succ n ih => exact assignment_tracks ih
  exact hN (n + 1) k

/-! ## Programs -/

theorem param_tracks (k : Nat) :
    T.Tracks k param param fun _ => Param.Copy AnyTypes T.Corresponds := by
  refine Tracks.identifier.bind ?_
  rintro m ⟨name, place⟩ ⟨_, place'⟩ _ ⟨hk, ⟨⟩, hstart⟩
  refine Tracks.expectSymbol.bind fun m₁ _ _ h₁ _ => Tracks.typeName.bind fun m₂ _ _ h₂ _ => ?_
  exact (Tracks.spanFrom hstart (by omega)).bind fun _ _ _ _ hspan =>
    .pure ⟨rfl, trivial, hspan.corresponds⟩

section Features

variable {i k start start' : Nat} (hstart : T.Starts i start start') (hi : i < k)
include hstart hi

theorem methodDecl_tracks (name : String) :
    T.Tracks k (methodDecl name start) (methodDecl name start')
      fun _ => MethodDecl.Copy AnyTypes T.Corresponds := by
  refine Tracks.freshId.bind ?_
  rintro m id _ hm rfl
  refine (Tracks.sepByBefore param_tracks).bind fun m₁ _ _ h₁ hparams => ?_
  refine Tracks.expectSymbol.bind fun m₂ _ _ h₂ _ => Tracks.expectSymbol.bind fun m₃ _ _ h₃ _ => ?_
  refine Tracks.typeName.bind fun m₄ _ _ h₄ _ => Tracks.expectSymbol.bind fun m₅ _ _ h₅ _ => ?_
  refine (expr_tracks m₅).bind fun m₆ _ _ h₆ hbody => Tracks.expectSymbol.bind fun m₇ _ _ h₇ _ => ?_
  exact (Tracks.spanFrom hstart (by omega)).bind fun _ _ _ _ hspan =>
    .pure ⟨rfl, rfl, hparams, trivial, hbody.copy, hspan.corresponds⟩

theorem attrDecl_tracks (name : String) :
    T.Tracks k (attrDecl name start) (attrDecl name start')
      fun _ => AttrDecl.Copy AnyTypes T.Corresponds := by
  refine Tracks.expectSymbol.bind fun m₁ _ _ h₁ _ => Tracks.typeName.bind fun m₂ _ _ h₂ _ => ?_
  refine (Tracks.optionalAfter (copy_tracks expr_tracks) (TokenKind.fixed_symbol _)).bind
    fun m₃ _ _ h₃ hinit => ?_
  exact (Tracks.spanFrom hstart (by omega)).bind fun _ _ _ _ hspan =>
    .pure ⟨rfl, trivial, .of_rel hinit, hspan.corresponds⟩

end Features

theorem member_tracks (k : Nat) :
    T.Tracks k member member fun _ => Feature.Copy AnyTypes T.Corresponds := by
  have hfeature : T.Tracks k feature feature fun _ => Feature.Copy AnyTypes T.Corresponds := by
    refine Tracks.identifier.bind ?_
    rintro m ⟨name, place⟩ ⟨_, place'⟩ _ ⟨hk, ⟨⟩, hstart⟩
    refine Tracks.acceptSymbol.bind ?_
    rintro m₁ paren _ h₁ rfl
    cases paren with
    | true => exact (methodDecl_tracks hstart (by omega) name).bind fun _ _ _ _ h => .pure (.method h)
    | false => exact (attrDecl_tracks hstart (by omega) name).bind fun _ _ _ _ h => .pure (.attr h)
  exact hfeature.bind fun _ _ _ _ h => Tracks.expectSymbol.withHelp.bind fun _ _ _ _ _ => .pure h

theorem classDecl_tracks (k : Nat) :
    T.Tracks k classDecl classDecl fun _ => ClassDecl.Copy AnyTypes T.Corresponds := by
  refine Tracks.expectKeyword.bind fun m place place' _ hplace => Tracks.freshId.bind ?_
  rintro m₁ id _ h₁ rfl
  have hname (k : Nat) {expected : String} :
      T.Tracks k (typeName expected) (typeName expected) fun _ => AnyTypes :=
    Tracks.typeName.mono fun _ _ _ _ => trivial
  refine (hname m₁).bind fun m₂ _ _ h₂ _ => ?_
  refine (Tracks.optionalAfter (fun k => hname k) (TokenKind.fixed_keyword _)).bind
    fun m₃ _ _ h₃ hparent => ?_
  refine Tracks.expectSymbol.bind fun m₄ _ _ h₄ _ => ?_
  refine (Tracks.manyBefore member_tracks (TokenKind.fixed_symbol _)).bind fun m₅ _ _ h₅ hfeatures => ?_
  refine Tracks.expectSymbol.bind fun m₆ _ _ h₆ _ => ?_
  refine Tracks.expectSymbol.withHelp.bind fun m₇ _ _ h₇ _ => ?_
  exact (Tracks.spanFrom hplace.2 (by omega)).bind fun _ _ _ _ hspan =>
    .pure ⟨rfl, trivial, hparent, hfeatures, hspan.corresponds⟩

theorem classRun_tracks {n k : Nat} {s t : State} {cs : List ClassDecl} (h : ClassRun n s cs)
    (hst : T.At k s t) :
    ∃ ds, ClassRun n t ds ∧ List.Forall₂ (ClassDecl.Copy AnyTypes T.Corresponds) cs ds := by
  have hrest {k : Nat} {s t : State} (hst : T.At k s t) : s.rest = [] ↔ t.rest = [] := by
    rw [← List.length_eq_zero_iff, ← List.length_eq_zero_iff, hst.alike.length_eq]
  induction h generalizing k t with
  | done hend => exact ⟨[], .done (hend.imp_right (hrest hst).mp), .nil⟩
  | next hne hc _ ih =>
      obtain ⟨m, d, t', hd, _, hst', hcd⟩ := classDecl_tracks k hst hc
      obtain ⟨ds, hds, hcds⟩ := ih hst'
      exact ⟨d :: ds, .next (mt (hrest hst).mpr hne) hd hds, .cons hcd hcds⟩

/-- Two texts that differ in the names of types only are read as copies of each other, at corresponding
places. -/
theorem program_tracks {input input' : TokenStream} (hleft : input.tokens = T.left)
    (hright : input'.tokens = T.right) {p : Program} (h : Parser.program input = .ok p) :
    ∃ q, Parser.program input' = .ok q ∧ p.Copy AnyTypes T.Corresponds q := by
  have hlength : input.tokens.length = input'.tokens.length := by rw [hleft, hright, T.length_eq]
  have hst : T.At 0 ⟨input.tokens, 0, 0⟩ ⟨input'.tokens, 0, 0⟩ :=
    ⟨Nat.zero_le _, hleft, hright, rfl, rfl, rfl⟩
  obtain ⟨hrun, hne⟩ := program_eq_ok.mp h
  obtain ⟨classes, hrun', hclasses⟩ := classRun_tracks hrun hst
  rw [hlength] at hrun'
  refine ⟨⟨classes⟩, program_eq_ok.mpr ⟨hrun', ?_⟩, hclasses⟩
  rintro rfl
  exact hne (List.forall₂_nil_right_iff.mp hclasses)

end Twins

end CoolTyping
