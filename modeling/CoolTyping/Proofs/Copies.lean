import CoolTyping.Proofs.Fillings
import CoolTyping.Proofs.Layout
import CoolTyping.Proofs.Relocation

/-!
# Copies

A copy of a program has the same shape, names and numbers. Its types and its places may be others, as far
as two relations allow. What is a copy of a program is one of each filling of it, if any types are allowed.
The words of copies differ in the names of types only, and copies with the same words have the same types.
-/

namespace CoolTyping

/-- Relates any two types. -/
def AnyTypes (_ _ : TypeName) : Prop := True

/-- What `Q` relates to a type, `R` relates to what may be filled in for it. -/
def CarriesOver (U : List TypeName) (Q R : TypeName → TypeName → Prop) : Prop :=
  ∀ t t' x, t = t' ∨ t' ∈ U → Q t x → R t' x

theorem TypeName.Filled.kept_or {U : List TypeName} {t t' : TypeName} (h : TypeName.Filled U t t') :
    t = t' ∨ t' ∈ U := by
  cases h with
  | kept => exact Or.inl rfl
  | filled h => exact Or.inr h

namespace Expr

mutual

/-- Types that correspond are related by `Q`, and places that correspond by `S`. -/
inductive Copy (Q : TypeName → TypeName → Prop) (S : Span → Span → Prop) : Expr → Expr → Prop
  | assign {span span' name value value'} : S span span' → Copy Q S value value' →
      Copy Q S (.assign span name value) (.assign span' name value')
  | dispatch {span span' receiver receiver' method args args'} : S span span' →
      CopyOpt Q S receiver receiver' → CopyAll Q S args args' →
      Copy Q S (.dispatch span receiver method args) (.dispatch span' receiver' method args')
  | staticDispatch {span span' receiver receiver' ancestor ancestor' method args args'} : S span span' →
      Copy Q S receiver receiver' → Q ancestor ancestor' → CopyAll Q S args args' →
      Copy Q S (.staticDispatch span receiver ancestor method args)
        (.staticDispatch span' receiver' ancestor' method args')
  | cond {span span' test test' a a' b b'} : S span span' → Copy Q S test test' → Copy Q S a a' →
      Copy Q S b b' → Copy Q S (.cond span test a b) (.cond span' test' a' b')
  | loop {span span' test test' body body'} : S span span' → Copy Q S test test' →
      Copy Q S body body' → Copy Q S (.loop span test body) (.loop span' test' body')
  | letIn {span span' bindings bindings' body body'} : S span span' →
      CopyInits Q S bindings bindings' → Copy Q S body body' →
      Copy Q S (.letIn span bindings body) (.letIn span' bindings' body')
  | caseOf {span span' scrutinee scrutinee' arms arms'} : S span span' →
      Copy Q S scrutinee scrutinee' → CopyArms Q S arms arms' →
      Copy Q S (.caseOf span scrutinee arms) (.caseOf span' scrutinee' arms')
  | block {span span' body body'} : S span span' → CopyAll Q S body body' →
      Copy Q S (.block span body) (.block span' body')
  | binary {span span' op left left' right right'} : S span span' → Copy Q S left left' →
      Copy Q S right right' → Copy Q S (.binary span op left right) (.binary span' op left' right')
  | unary {span span' op operand operand'} : S span span' → Copy Q S operand operand' →
      Copy Q S (.unary span op operand) (.unary span' op operand')
  | new {span span' ty ty'} : S span span' → Q ty ty' → Copy Q S (.new span ty) (.new span' ty')
  | paren {span span' inner inner'} : S span span' → Copy Q S inner inner' →
      Copy Q S (.paren span inner) (.paren span' inner')
  | ident {span span' name} : S span span' → Copy Q S (.ident span name) (.ident span' name)
  | int {span span' value} : S span span' → Copy Q S (.int span value) (.int span' value)
  | str {span span' value} : S span span' → Copy Q S (.str span value) (.str span' value)
  | bool {span span' value} : S span span' → Copy Q S (.bool span value) (.bool span' value)

inductive CopyOpt (Q : TypeName → TypeName → Prop) (S : Span → Span → Prop) :
    Option Expr → Option Expr → Prop
  | none : CopyOpt Q S none none
  | some {e e'} : Copy Q S e e' → CopyOpt Q S (some e) (some e')

inductive CopyAll (Q : TypeName → TypeName → Prop) (S : Span → Span → Prop) :
    List Expr → List Expr → Prop
  | nil : CopyAll Q S [] []
  | cons {e e' es es'} : Copy Q S e e' → CopyAll Q S es es' → CopyAll Q S (e :: es) (e' :: es')

inductive CopyInits (Q : TypeName → TypeName → Prop) (S : Span → Span → Prop) :
    List (Binder × Option Expr) → List (Binder × Option Expr) → Prop
  | nil : CopyInits Q S [] []
  | cons {id name ty ty' span span' init init' rest rest'} : Q ty ty' → S span span' →
      CopyOpt Q S init init' → CopyInits Q S rest rest' →
      CopyInits Q S ((⟨id, name, ty, span⟩, init) :: rest) ((⟨id, name, ty', span'⟩, init') :: rest')

inductive CopyArms (Q : TypeName → TypeName → Prop) (S : Span → Span → Prop) :
    List (Binder × Expr) → List (Binder × Expr) → Prop
  | nil : CopyArms Q S [] []
  | cons {id name ty ty' span span' body body' rest rest'} : Q ty ty' → S span span' →
      Copy Q S body body' → CopyArms Q S rest rest' →
      CopyArms Q S ((⟨id, name, ty, span⟩, body) :: rest) ((⟨id, name, ty', span'⟩, body') :: rest')

end

section Fillings

variable {U : List TypeName} {Q R : TypeName → TypeName → Prop} {S : Span → Span → Prop}

mutual

/-- What is a copy of an expression is one of every filling of it, as far as types allow. -/
theorem Filled.copy (hQR : CarriesOver U Q R) : ∀ {e e' x}, Filled U e e' → Copy Q S e x → Copy R S e' x
  | _, _, _, .assign h, .assign s c => .assign s (h.copy hQR c)
  | _, _, _, .dispatch h hs, .dispatch s c cs => .dispatch s (h.copy hQR c) (hs.copy hQR cs)
  | _, _, _, .staticDispatch h hs, .staticDispatch s c q cs =>
      .staticDispatch s (h.copy hQR c) (hQR _ _ _ (.inl rfl) q) (hs.copy hQR cs)
  | _, _, _, .cond h₁ h₂ h₃, .cond s c₁ c₂ c₃ => .cond s (h₁.copy hQR c₁) (h₂.copy hQR c₂) (h₃.copy hQR c₃)
  | _, _, _, .loop h₁ h₂, .loop s c₁ c₂ => .loop s (h₁.copy hQR c₁) (h₂.copy hQR c₂)
  | _, _, _, .letIn hs h, .letIn s cs c => .letIn s (hs.copy hQR cs) (h.copy hQR c)
  | _, _, _, .caseOf h hs, .caseOf s c cs => .caseOf s (h.copy hQR c) (hs.copy hQR cs)
  | _, _, _, .block hs, .block s cs => .block s (hs.copy hQR cs)
  | _, _, _, .binary h₁ h₂, .binary s c₁ c₂ => .binary s (h₁.copy hQR c₁) (h₂.copy hQR c₂)
  | _, _, _, .unary h, .unary s c => .unary s (h.copy hQR c)
  | _, _, _, .new, .new s q => .new s (hQR _ _ _ (.inl rfl) q)
  | _, _, _, .paren h, .paren s c => .paren s (h.copy hQR c)
  | _, _, _, .ident, .ident s => .ident s
  | _, _, _, .int, .int s => .int s
  | _, _, _, .str, .str s => .str s
  | _, _, _, .bool, .bool s => .bool s

theorem FilledOpt.copy (hQR : CarriesOver U Q R) : ∀ {o o' x}, FilledOpt U o o' →
    CopyOpt Q S o x → CopyOpt R S o' x
  | _, _, _, .none, .none => .none
  | _, _, _, .some h, .some c => .some (h.copy hQR c)

theorem FilledAll.copy (hQR : CarriesOver U Q R) : ∀ {es es' xs}, FilledAll U es es' →
    CopyAll Q S es xs → CopyAll R S es' xs
  | _, _, _, .nil, .nil => .nil
  | _, _, _, .cons h hs, .cons c cs => .cons (h.copy hQR c) (hs.copy hQR cs)

theorem FilledInits.copy (hQR : CarriesOver U Q R) : ∀ {bs bs' xs}, FilledInits U bs bs' →
    CopyInits Q S bs xs → CopyInits R S bs' xs
  | _, _, _, .nil, .nil => .nil
  | _, _, _, .cons ht h hs, .cons q s c cs =>
      .cons (hQR _ _ _ ht.kept_or q) s (h.copy hQR c) (hs.copy hQR cs)

theorem FilledArms.copy (hQR : CarriesOver U Q R) : ∀ {arms arms' xs}, FilledArms U arms arms' →
    CopyArms Q S arms xs → CopyArms R S arms' xs
  | _, _, _, .nil, .nil => .nil
  | _, _, _, .cons ht h hs, .cons q s c cs =>
      .cons (hQR _ _ _ ht.kept_or q) s (h.copy hQR c) (hs.copy hQR cs)

end

end Fillings

variable {S : Span → Span → Prop} {σ τ : Span → Span}

mutual

/-- Copies with the same types are the same where maps take places that correspond to the same one. -/
theorem Copy.mapSpans_eq (hS : ∀ s t, S s t → σ s = τ t) : ∀ {e e'},
    Copy Eq S e e' → e.mapSpans σ = e'.mapSpans τ
  | _, _, .assign s c => by simp [mapSpans, hS _ _ s, c.mapSpans_eq hS]
  | _, _, .dispatch s c cs => by simp [mapSpans, hS _ _ s, c.mapSpans_eq hS, cs.mapSpans_eq hS]
  | _, _, .staticDispatch s c q cs => by
      simp [mapSpans, hS _ _ s, c.mapSpans_eq hS, q, cs.mapSpans_eq hS]
  | _, _, .cond s c₁ c₂ c₃ => by
      simp [mapSpans, hS _ _ s, c₁.mapSpans_eq hS, c₂.mapSpans_eq hS, c₃.mapSpans_eq hS]
  | _, _, .loop s c₁ c₂ | _, _, .binary s c₁ c₂ | _, _, .letIn s c₁ c₂ | _, _, .caseOf s c₁ c₂ => by
      simp [mapSpans, hS _ _ s, c₁.mapSpans_eq hS, c₂.mapSpans_eq hS]
  | _, _, .block s c | _, _, .unary s c | _, _, .paren s c => by
      simp [mapSpans, hS _ _ s, c.mapSpans_eq hS]
  | _, _, .new s q => by simp [mapSpans, hS _ _ s, q]
  | _, _, .ident s | _, _, .int s | _, _, .str s | _, _, .bool s => by simp [mapSpans, hS _ _ s]

theorem CopyOpt.mapSpans_eq (hS : ∀ s t, S s t → σ s = τ t) : ∀ {o o'},
    CopyOpt Eq S o o' → mapSpansOpt σ o = mapSpansOpt τ o'
  | _, _, .none => by simp [mapSpansOpt]
  | _, _, .some c => by simp [mapSpansOpt, c.mapSpans_eq hS]

theorem CopyAll.mapSpans_eq (hS : ∀ s t, S s t → σ s = τ t) : ∀ {es es'},
    CopyAll Eq S es es' → mapSpansAll σ es = mapSpansAll τ es'
  | _, _, .nil => by simp [mapSpansAll]
  | _, _, .cons c cs => by simp [mapSpansAll, c.mapSpans_eq hS, cs.mapSpans_eq hS]

theorem CopyInits.mapSpans_eq (hS : ∀ s t, S s t → σ s = τ t) : ∀ {bs bs'},
    CopyInits Eq S bs bs' → mapSpansInits σ bs = mapSpansInits τ bs'
  | _, _, .nil => by simp [mapSpansInits]
  | _, _, .cons q s c cs => by
      simp [mapSpansInits, Binder.mapSpan, q, hS _ _ s, c.mapSpans_eq hS, cs.mapSpans_eq hS]

theorem CopyArms.mapSpans_eq (hS : ∀ s t, S s t → σ s = τ t) : ∀ {arms arms'},
    CopyArms Eq S arms arms' → mapSpansArms σ arms = mapSpansArms τ arms'
  | _, _, .nil => by simp [mapSpansArms]
  | _, _, .cons q s c cs => by
      simp [mapSpansArms, Binder.mapSpan, q, hS _ _ s, c.mapSpans_eq hS, cs.mapSpans_eq hS]

end

end Expr

structure Param.Copy (Q : TypeName → TypeName → Prop) (S : Span → Span → Prop) (p p' : Param) : Prop where
  name : p.name = p'.name
  ty : Q p.ty p'.ty
  span : S p.span p'.span

structure AttrDecl.Copy (Q : TypeName → TypeName → Prop) (S : Span → Span → Prop) (a a' : AttrDecl) :
    Prop where
  name : a.name = a'.name
  ty : Q a.ty a'.ty
  init : Expr.CopyOpt Q S a.init a'.init
  span : S a.span a'.span

structure MethodDecl.Copy (Q : TypeName → TypeName → Prop) (S : Span → Span → Prop) (m m' : MethodDecl) :
    Prop where
  id : m.id = m'.id
  name : m.name = m'.name
  params : List.Forall₂ (Param.Copy Q S) m.params m'.params
  ret : Q m.ret m'.ret
  body : Expr.Copy Q S m.body m'.body
  span : S m.span m'.span

inductive Feature.Copy (Q : TypeName → TypeName → Prop) (S : Span → Span → Prop) :
    Feature → Feature → Prop
  | attr {a a'} : AttrDecl.Copy Q S a a' → Copy Q S (.attr a) (.attr a')
  | method {m m'} : MethodDecl.Copy Q S m m' → Copy Q S (.method m) (.method m')

structure ClassDecl.Copy (Q : TypeName → TypeName → Prop) (S : Span → Span → Prop) (c c' : ClassDecl) :
    Prop where
  id : c.id = c'.id
  name : Q c.name c'.name
  parent : Option.Rel Q c.parent c'.parent
  features : List.Forall₂ (Feature.Copy Q S) c.features c'.features
  span : S c.span c'.span

/-- `p'` is `p` with other types and in other places, as far as `Q` and `S` allow. -/
def Program.Copy (Q : TypeName → TypeName → Prop) (S : Span → Span → Prop) (p p' : Program) : Prop :=
  List.Forall₂ (ClassDecl.Copy Q S) p.classes p'.classes

/-! ## Fillings as copies -/

section Fillings

variable {U : List TypeName} {Q R : TypeName → TypeName → Prop} {S : Span → Span → Prop}

theorem forall₂_comp {α β γ : Type} {R : α → β → Prop} {T : α → γ → Prop} {V : β → γ → Prop}
    {xs : List α} {ys : List β} {zs : List γ} (h : List.Forall₂ R xs ys) (h' : List.Forall₂ T xs zs)
    (hV : ∀ x y z, R x y → T x z → V y z) : List.Forall₂ V ys zs := by
  induction h generalizing zs with
  | nil =>
      cases h'
      exact .nil
  | cons hxy _ ih =>
      cases h' with
      | cons hxz h' => exact .cons (hV _ _ _ hxy hxz) (ih h')

theorem rel_mono {α β : Type} {P P' : α → β → Prop} {x : Option α} {y : Option β} (h : Option.Rel P x y)
    (hP : ∀ a b, P a b → P' a b) : Option.Rel P' x y := by
  cases h with
  | none => exact .none
  | some h => exact .some (hP _ _ h)

variable (hQR : CarriesOver U Q R)
include hQR

theorem Param.Filled.copy {p p' x : Param} (h : p.Filled U p') (c : p.Copy Q S x) : p'.Copy R S x where
  name := h.name ▸ c.name
  ty := hQR _ _ _ h.ty.kept_or c.ty
  span := h.span ▸ c.span

theorem AttrDecl.Filled.copy {a a' x : AttrDecl} (h : a.Filled U a') (c : a.Copy Q S x) :
    a'.Copy R S x where
  name := h.name ▸ c.name
  ty := hQR _ _ _ h.ty.kept_or c.ty
  init := h.init.copy hQR c.init
  span := h.span ▸ c.span

theorem MethodDecl.Filled.copy {m m' x : MethodDecl} (h : m.Filled U m') (c : m.Copy Q S x) :
    m'.Copy R S x where
  id := h.id ▸ c.id
  name := h.name ▸ c.name
  params := forall₂_comp h.params c.params fun _ _ _ h c => h.copy hQR c
  ret := hQR _ _ _ h.ret.kept_or c.ret
  body := h.body.copy hQR c.body
  span := h.span ▸ c.span

theorem Feature.Filled.copy {f f' x : Feature} (h : f.Filled U f') (c : f.Copy Q S x) :
    f'.Copy R S x := by
  cases h with
  | attr h =>
      cases c with
      | attr c => exact .attr (h.copy hQR c)
  | method h =>
      cases c with
      | method c => exact .method (h.copy hQR c)

theorem ClassDecl.Filled.copy {c c' x : ClassDecl} (h : c.Filled U c') (k : c.Copy Q S x) :
    c'.Copy R S x where
  id := h.id ▸ k.id
  name := hQR _ _ _ (.inl h.name) k.name
  parent := h.parent ▸ rel_mono k.parent fun _ _ => hQR _ _ _ (.inl rfl)
  features := forall₂_comp h.features k.features fun _ _ _ h c => h.copy hQR c
  span := h.span ▸ k.span

/-- What is a copy of a program is one of every filling of it, as far as types allow. -/
theorem Program.Filled.copy {p p' q : Program} (h : p.Filled U p') (c : p.Copy Q S q) :
    p'.Copy R S q :=
  forall₂_comp h c fun _ _ _ h c => h.copy hQR c

end Fillings

/-! ## Copies in the same places -/

section Places

variable {S : Span → Span → Prop} {σ τ : Span → Span} (hS : ∀ s t, S s t → σ s = τ t)
include hS

omit hS in
theorem rel_eq {α : Type} {x y : Option α} (h : Option.Rel Eq x y) : x = y := by
  cases h with
  | none => rfl
  | some h => rw [h]

theorem Param.Copy.mapSpan_eq {p p' : Param} (h : p.Copy Eq S p') : p.mapSpan σ = p'.mapSpan τ := by
  simp [Param.mapSpan, h.name, h.ty, hS _ _ h.span]

theorem Feature.Copy.mapSpans_eq {f f' : Feature} (h : f.Copy Eq S f') :
    f.mapSpans σ = f'.mapSpans τ := by
  cases h with
  | attr h =>
      simp [Feature.mapSpans, AttrDecl.mapSpans, h.name, h.ty, h.init.mapSpans_eq hS, hS _ _ h.span]
  | method h =>
      have hparams := forall₂_map_eq h.params fun _ _ hp => hp.mapSpan_eq hS
      simp [Feature.mapSpans, MethodDecl.mapSpans, h.id, h.name, hparams, h.ret,
        h.body.mapSpans_eq hS, hS _ _ h.span]

theorem ClassDecl.Copy.mapSpans_eq {c c' : ClassDecl} (h : c.Copy Eq S c') :
    c.mapSpans σ = c'.mapSpans τ := by
  have hfeatures := forall₂_map_eq h.features fun _ _ hf => hf.mapSpans_eq hS
  have hparent : c.parent = c'.parent := rel_eq h.parent
  simp [ClassDecl.mapSpans, h.id, h.name, hparent, hfeatures, hS _ _ h.span]

/-- Copies with the same types are the same where maps take places that correspond to the same one. -/
theorem Program.Copy.mapSpans_eq {p p' : Program} (h : p.Copy Eq S p') : p.mapSpans σ = p'.mapSpans τ :=
  congrArg Program.mk (forall₂_map_eq h fun _ _ hc => hc.mapSpans_eq hS)

end Places

/-! ## Words -/

/-- The tokens are the same, or names of types that `Q` relates. -/
inductive TokenKind.Copy (Q : TypeName → TypeName → Prop) : TokenKind → TokenKind → Prop
  | same (kind : TokenKind) : Copy Q kind kind
  | type {t t' : TypeName} : Q t t' → Copy Q (.typeName t) (.typeName t')

theorem TokenKind.Copy.symm {Q : TypeName → TypeName → Prop} {a b : TokenKind} (h : TokenKind.Copy Q a b) :
    TokenKind.Copy AnyTypes b a := by
  cases h with
  | same => exact .same _
  | type => exact .type trivial

namespace Printer

/-- The words are copies, and if they are the same then `P`. -/
def Agree (Q : TypeName → TypeName → Prop) (P : Prop) (ps ps' : List Piece) : Prop :=
  List.Forall₂ (TokenKind.Copy Q) (tokensOf ps) (tokensOf ps') ∧ (tokensOf ps = tokensOf ps' → P)

namespace Agree

variable {Q : TypeName → TypeName → Prop} {P R : Prop} {ps ps' qs qs' : List Piece}

theorem refl (ps : List Piece) : Agree Q True ps ps :=
  ⟨List.forall₂_same.mpr fun kind _ => .same kind, fun _ => trivial⟩

theorem mono (h : Agree Q P ps ps') (hPR : P → R) : Agree Q R ps ps' := ⟨h.1, fun heq => hPR (h.2 heq)⟩

theorem append (h : Agree Q P ps ps') (h' : Agree Q R qs qs') :
    Agree Q (P ∧ R) (ps ++ qs) (ps' ++ qs') := by
  unfold Agree
  rw [tokensOf_append, tokensOf_append]
  refine ⟨List.rel_append h.1 h'.1, fun heq => ?_⟩
  obtain ⟨hps, hqs⟩ := List.append_inj heq h.1.length_eq
  exact ⟨h.2 hps, h'.2 hqs⟩

theorem cons {piece : Piece} (h : Agree Q P ps ps') : Agree Q P (piece :: ps) (piece :: ps') :=
  ((refl [piece]).append h).mono And.right

theorem type {t t' : TypeName} (hQ : Q t t') (h : Agree Q P ps ps') :
    Agree Q (t = t' ∧ P) (Printer.type t :: ps) (Printer.type t' :: ps') := by
  have htype : Agree Q (t = t') [Printer.type t] [Printer.type t'] :=
    ⟨.cons (.type hQ) .nil, fun heq => TokenKind.typeName.inj (List.cons.inj heq).1⟩
  exact htype.append h

theorem declared {x : String} {t t' : TypeName} (hQ : Q t t') :
    Agree Q (t = t') (Printer.declared x t) (Printer.declared x t') :=
  ((refl []).type hQ).cons.cons.cons.cons.mono And.left

theorem flatMap {α : Type} {R T : α → α → Prop} {f : α → List Piece} {as bs : List α}
    (h : List.Forall₂ R as bs) (hf : ∀ a b, R a b → Agree Q (T a b) (f a) (f b)) :
    Agree Q (List.Forall₂ T as bs) (as.flatMap f) (bs.flatMap f) := by
  induction h with
  | nil => exact (refl []).mono fun _ => .nil
  | @cons a b as bs hab _ ih =>
      rw [List.flatMap_cons, List.flatMap_cons]
      exact ((hf a b hab).append ih).mono fun ⟨h, hs⟩ => .cons h hs

end Agree

open CoolTyping.Expr (Copy CopyOpt CopyAll CopyInits CopyArms)

variable {Q : TypeName → TypeName → Prop} {S : Span → Span → Prop}

mutual

theorem agree_expr : ∀ {e e'}, Copy Q S e e' → ∀ n, Agree Q (Copy Eq S e e') (expr n e) (expr n e')
  | _, _, .assign s c, n => by
      simp only [expr]
      exact (agree_expr c n).cons.cons.cons.cons.mono (.assign s)
  | _, _, .dispatch s .none cs, n => by
      simp only [expr]
      exact ((agree_arguments cs n).cons.cons.append (.refl _)).mono fun ⟨cs, _⟩ =>
        .dispatch s .none cs
  | _, _, .dispatch s (.some c) cs, n => by
      simp only [expr]
      exact (((agree_expr c n).append (agree_arguments cs n).cons.cons.cons).append
        (.refl _)).mono fun ⟨⟨c, cs⟩, _⟩ => .dispatch s (.some c) cs
  | _, _, .staticDispatch s c q cs, n => by
      simp only [expr]
      exact (((agree_expr c n).append ((agree_arguments cs n).cons.cons.cons.type q |>.cons)).append
        (.refl _)).mono fun ⟨⟨c, q, cs⟩, _⟩ => .staticDispatch s c q cs
  | _, _, .cond s c₁ c₂ c₃, n => by
      simp only [expr]
      exact ((((agree_expr c₁ n).cons.cons.append (agree_expr c₂ n).cons.cons.cons).append
        (agree_expr c₃ n).cons.cons.cons).append (.refl _)).mono
          fun ⟨⟨⟨c₁, c₂⟩, c₃⟩, _⟩ => .cond s c₁ c₂ c₃
  | _, _, .loop s c₁ c₂, n => by
      simp only [expr]
      exact (((agree_expr c₁ n).cons.cons.append (agree_expr c₂ n).cons.cons.cons).append
        (.refl _)).mono fun ⟨⟨c₁, c₂⟩, _⟩ => .loop s c₁ c₂
  | _, _, .letIn s cs c, n => by
      simp only [expr]
      exact ((agree_bindingList cs n).cons.cons.append
        (agree_expr c n).cons.cons.cons).mono fun ⟨cs, c⟩ => .letIn s cs c
  | _, _, .caseOf s c cs, n => by
      simp only [expr]
      exact (((agree_expr c n).cons.cons.append (agree_armList cs n).cons.cons.cons).append
        (.refl _)).mono fun ⟨⟨c, cs⟩, _⟩ => .caseOf s c cs
  | _, _, .block s cs, n => by
      simp only [expr]
      exact ((agree_statements cs n).cons.cons.append (.refl _)).mono fun ⟨cs, _⟩ => .block s cs
  | _, _, .binary s c₁ c₂, n => by
      simp only [expr]
      exact ((agree_expr c₁ n).append (agree_expr c₂ n).cons.cons.cons).mono
        fun ⟨c₁, c₂⟩ => .binary s c₁ c₂
  | _, _, .unary s c, n => by
      simp only [expr]
      exact ((Agree.refl _).append (agree_expr c n)).mono fun ⟨_, c⟩ => .unary s c
  | _, _, .new s q, n => by
      simp only [expr]
      exact ((Agree.refl []).type q).cons.cons.mono fun ⟨q, _⟩ => .new s q
  | _, _, .paren s c, n => by
      simp only [expr]
      exact ((agree_expr c n).cons.append (.refl _)).mono fun ⟨c, _⟩ => .paren s c
  | _, _, .ident s, _ => (Agree.refl _).mono fun _ => .ident s
  | _, _, .int s, _ => (Agree.refl _).mono fun _ => .int s
  | _, _, .str s, _ => (Agree.refl _).mono fun _ => .str s
  | _, _, .bool s, _ => (Agree.refl _).mono fun _ => .bool s

theorem agree_arguments : ∀ {es es'}, CopyAll Q S es es' → ∀ n,
    Agree Q (CopyAll Eq S es es') (arguments n es) (arguments n es')
  | _, _, .nil, _ => (Agree.refl _).mono fun _ => .nil
  | _, _, .cons c cs, n => by
      simp only [arguments]
      exact ((agree_expr c n).append (agree_moreArguments cs n)).mono fun ⟨c, cs⟩ => .cons c cs

theorem agree_moreArguments : ∀ {es es'}, CopyAll Q S es es' → ∀ n,
    Agree Q (CopyAll Eq S es es') (moreArguments n es) (moreArguments n es')
  | _, _, .nil, _ => (Agree.refl _).mono fun _ => .nil
  | _, _, .cons c cs, n => by
      simp only [moreArguments]
      exact ((agree_expr c n).cons.cons.append (agree_moreArguments cs n)).mono
        fun ⟨c, cs⟩ => .cons c cs

theorem agree_initial : ∀ {o o'}, CopyOpt Q S o o' → ∀ n,
    Agree Q (CopyOpt Eq S o o') (initial n o) (initial n o')
  | _, _, .none, _ => (Agree.refl _).mono fun _ => .none
  | _, _, .some c, n => by
      simp only [initial]
      exact (agree_expr c n).cons.cons.cons.mono .some

theorem agree_bindingList : ∀ {bs bs'}, CopyInits Q S bs bs' → ∀ n,
    Agree Q (CopyInits Eq S bs bs') (bindingList n bs) (bindingList n bs')
  | _, _, .nil, _ => (Agree.refl _).mono fun _ => .nil
  | _, _, .cons q s c cs, n => by
      simp only [bindingList]
      exact (((Agree.declared q).append (agree_initial c n)).append (agree_moreBindings cs n)).mono
        fun ⟨⟨q, c⟩, cs⟩ => .cons q s c cs

theorem agree_moreBindings : ∀ {bs bs'}, CopyInits Q S bs bs' → ∀ n,
    Agree Q (CopyInits Eq S bs bs') (moreBindings n bs) (moreBindings n bs')
  | _, _, .nil, _ => (Agree.refl _).mono fun _ => .nil
  | _, _, .cons q s c cs, n => by
      simp only [moreBindings]
      exact (((Agree.declared q).cons.cons.append (agree_initial c n)).append
        (agree_moreBindings cs n)).mono fun ⟨⟨q, c⟩, cs⟩ => .cons q s c cs

theorem agree_armList : ∀ {arms arms'}, CopyArms Q S arms arms' → ∀ n,
    Agree Q (CopyArms Eq S arms arms') (armList n arms) (armList n arms')
  | _, _, .nil, _ => (Agree.refl _).mono fun _ => .nil
  | _, _, .cons q s c cs, n => by
      simp only [armList]
      exact (((Agree.declared q).cons.append (agree_expr c (n + 2)).cons.cons.cons).append
        (agree_armList cs n).cons.cons).mono fun ⟨⟨q, c⟩, cs⟩ => .cons q s c cs

theorem agree_statements : ∀ {es es'}, CopyAll Q S es es' → ∀ n,
    Agree Q (CopyAll Eq S es es') (statements n es) (statements n es')
  | _, _, .nil, _ => (Agree.refl _).mono fun _ => .nil
  | _, _, .cons c cs, n => by
      simp only [statements]
      exact ((agree_expr c (n + 2)).cons.append (agree_statements cs n).cons.cons).mono
        fun ⟨c, cs⟩ => .cons c cs

end

theorem agree_params {ps ps' : List Param} (h : List.Forall₂ (Param.Copy Q S) ps ps') :
    Agree Q (List.Forall₂ (Param.Copy Eq S) ps ps') (params ps) (params ps') := by
  have hparam : ∀ p p', Param.Copy Q S p p' →
      Agree Q (Param.Copy Eq S p p') (declared p.name p.ty) (declared p'.name p'.ty) := by
    intro p p' hp
    rw [hp.name]
    exact (Agree.declared hp.ty).mono fun hty => ⟨hp.name, hty, hp.span⟩
  cases h with
  | nil => exact (Agree.refl _).mono fun _ => .nil
  | cons hp hps =>
      have hmore := Agree.flatMap (f := fun p => sym .comma :: sp :: declared p.name p.ty) hps
        fun p p' hp => (hparam p p' hp).cons.cons
      exact ((hparam _ _ hp).append hmore).mono fun ⟨hp, hps⟩ => .cons hp hps

theorem agree_feature {f f' : Feature} (h : f.Copy Q S f') :
    Agree Q (f.Copy Eq S f') (feature f) (feature f') := by
  cases h with
  | @attr a a' h =>
      have hagree : Agree Q (a.Copy Eq S a') (attrDecl a) (attrDecl a') := by
        unfold attrDecl
        rw [h.name]
        exact (((Agree.declared h.ty).cons.append (agree_initial h.init 2)).append (.refl _)).mono
          fun ⟨⟨hty, hinit⟩, _⟩ => ⟨h.name, hty, hinit, h.span⟩
      exact hagree.mono .attr
  | @method m m' h =>
      have hagree : Agree Q (m.Copy Eq S m') (methodDecl m) (methodDecl m') := by
        unfold methodDecl
        rw [h.name]
        exact ((((agree_params h.params).cons.cons.cons.append
          ((Agree.refl _).type h.ret).cons.cons.cons.cons).append
          (agree_expr h.body 4)).append (.refl _)).mono
          fun ⟨⟨⟨hparams, hret, _⟩, hbody⟩, _⟩ => ⟨h.id, h.name, hparams, hret, hbody, h.span⟩
      exact hagree.mono .method

theorem agree_parent {t t' : Option TypeName} (h : Option.Rel Q t t') :
    Agree Q (Option.Rel Eq t t') (t.elim [] fun parent => [sp, word .inheritsKw, sp, type parent])
      (t'.elim [] fun parent => [sp, word .inheritsKw, sp, type parent]) := by
  cases h with
  | none => exact (Agree.refl _).mono fun _ => .none
  | some hQ => exact ((Agree.refl []).type hQ).cons.cons.cons.mono fun ⟨hparent, _⟩ => .some hparent

theorem agree_classDecl {c c' : ClassDecl} (h : c.Copy Q S c') :
    Agree Q (c.Copy Eq S c') (classDecl c) (classDecl c') := by
  have hfeatures := Agree.flatMap h.features fun _ _ => agree_feature
  exact (((((agree_parent h.parent).type h.name).cons.cons.append (.refl _)).append hfeatures).append
    (.refl _)).mono
    fun ⟨⟨⟨⟨hname, hparent⟩, _⟩, hfeatures⟩, _⟩ => ⟨h.id, hname, hparent, hfeatures, h.span⟩

/-- The words of copies differ in the names of types only. Copies with the same words have the same
types. -/
theorem agree_program {p p' : Program} (h : p.Copy Q S p') :
    Agree Q (p.Copy Eq S p') (program p) (program p') := by
  obtain ⟨cs⟩ := p
  obtain ⟨cs'⟩ := p'
  have h : List.Forall₂ (ClassDecl.Copy Q S) cs cs' := h
  cases h with
  | nil => exact (Agree.refl _).mono fun _ => .nil
  | cons hc hcs =>
      have hmore := Agree.flatMap (f := fun c => newline :: classDecl c) hcs
        fun _ _ hc => (agree_classDecl hc).cons
      exact ((agree_classDecl hc).append hmore).mono fun ⟨hc, hcs⟩ => .cons hc hcs

end Printer

end CoolTyping
