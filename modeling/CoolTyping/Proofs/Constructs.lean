import CoolTyping.Proofs.Positions

/-!
# Constructs and their tokens

Every construct is written with words and with other constructs, its parts, in a fixed order. `Occupies` says
that a construct is written with certain tokens of a text and that its place is the place of these tokens,
and the same of everything in it. Since tokens do not overlap, a construct then contains its parts, and the
parts follow one another without overlap.
-/

namespace CoolTyping

/-! ## Parts -/

/-- What has a place in a program. -/
inductive Construct where
  | expr (e : Expr)
  | binding (b : Binder × Option Expr)
  | arm (a : Binder × Expr)
  | param (p : Param)
  | feature (f : Feature)
  | classDecl (c : ClassDecl)

/-- A word, or a construct. -/
inductive Component where
  | word (kind : TokenKind)
  | node (c : Construct)

namespace Component

abbrev sign (s : Symbol) : Component := .word (.symbol s)

abbrev keyword (w : Keyword) : Component := .word (.keyword w)

abbrev name (x : String) : Component := .word (.identifier x)

abbrev type (t : TypeName) : Component := .word (.typeName t)

abbrev expr (e : Expr) : Component := .node (.expr e)

/-- The parts with commas between them. -/
def listed (xs : List Component) : List Component := xs.intersperse (sign .comma)

/-- The part and a semicolon. -/
def ended (x : Component) : List Component := [x, sign .semi]

/-- An initial value behind its sign, if there is one. -/
def initial (init : Option Expr) : List Component := init.elim [] fun e => [sign .assign, expr e]

/-- Arguments in parentheses. -/
def arguments (args : List Expr) : List Component :=
  sign .lparen :: (listed (args.map fun e => expr e) ++ [sign .rparen])

def construct? : Component → Option Construct
  | word _ => none
  | node c => some c

@[simp] theorem construct?_word (kind : TokenKind) : (word kind).construct? = none := rfl

@[simp] theorem construct?_node (c : Construct) : (node c).construct? = some c := rfl

end Component

def UnaryOp.word : UnaryOp → TokenKind
  | not => .keyword .notKw
  | negate => .symbol .tilde
  | isvoid => .keyword .isvoidKw

open Component in
/-- What the expression itself is written with. -/
def Expr.parts : Expr → List Component
  | assign _ x value => [name x, sign .assign, .expr value]
  | dispatch _ none m args => name m :: arguments args
  | dispatch _ (some receiver) m args => .expr receiver :: sign .dot :: name m :: arguments args
  | staticDispatch _ receiver t m args =>
      .expr receiver :: sign .atSign :: type t :: sign .dot :: name m :: arguments args
  | cond _ test a b =>
      [keyword .ifKw, .expr test, keyword .thenKw, .expr a, keyword .elseKw, .expr b, keyword .fiKw]
  | loop _ test body => [keyword .whileKw, .expr test, keyword .loopKw, .expr body, keyword .poolKw]
  | letIn _ bindings body =>
      keyword .letKw :: (listed (bindings.map fun b => .node (.binding b)) ++ [keyword .inKw, .expr body])
  | caseOf _ scrutinee arms =>
      keyword .caseKw :: .expr scrutinee :: keyword .ofKw ::
        (arms.map (fun a => .node (.arm a)) ++ [keyword .esacKw])
  | block _ body => sign .lbrace :: (body.flatMap (fun e => ended (.expr e)) ++ [sign .rbrace])
  | binary _ op left right => [.expr left, sign op.symbol, .expr right]
  | unary _ op operand => [.word op.word, .expr operand]
  | new _ t => [keyword .newKw, type t]
  | paren _ inner => [sign .lparen, .expr inner, sign .rparen]
  | ident _ x => [name x]
  | int _ value => [.word (.integer value.toNat)]
  | str _ value => [.word (.string value)]
  | bool _ value => [keyword (if value then .trueKw else .falseKw)]

namespace Construct

open Component

/-- A semicolon belongs to the arm or the class that it ends, but not to the feature. -/
def parts : Construct → List Component
  | expr e => e.parts
  | binding (b, init) => name b.name :: sign .colon :: type b.ty :: initial init
  | arm (b, body) => [name b.name, sign .colon, type b.ty, sign .arrow, .expr body, sign .semi]
  | param p => [name p.name, sign .colon, type p.ty]
  | feature (.attr a) => name a.name :: sign .colon :: type a.ty :: initial a.init
  | feature (.method m) =>
      name m.name :: sign .lparen :: (listed (m.params.map fun p => .node (.param p)) ++
        [sign .rparen, sign .colon, type m.ret, sign .lbrace, .expr m.body, sign .rbrace])
  | classDecl c =>
      keyword .classKw :: type c.name :: (c.parent.elim [] (fun t => [keyword .inheritsKw, type t]) ++
        sign .lbrace :: (c.features.flatMap (fun f => ended (.node (.feature f))) ++
          [sign .rbrace, sign .semi]))

def span : Construct → Span
  | expr e => e.span
  | binding b => b.1.span
  | arm a => a.1.span
  | param p => p.span
  | feature (.attr a) => a.span
  | feature (.method m) => m.span
  | classDecl c => c.span

/-- The constructs directly inside. -/
def inner (c : Construct) : List Construct := c.parts.filterMap construct?

theorem parts_ne_nil (c : Construct) : c.parts ≠ [] := by
  cases c with
  | expr e =>
      cases e with
      | dispatch _ receiver _ _ => cases receiver <;> simp [parts, Expr.parts]
      | _ => simp [parts, Expr.parts]
  | feature f => cases f <;> simp [parts]
  | _ => simp [parts]

end Construct

/-- The construct stands somewhere in the program. -/
inductive Program.Has (p : Program) : Construct → Prop
  | classDecl {c} : c ∈ p.classes → p.Has (.classDecl c)
  | inner {c d} : p.Has c → d ∈ c.inner → p.Has d

/-! ## Tokens -/

mutual

/-- The part is written with the tokens from number `i` up to number `j`. A construct has their place. -/
inductive Occupies (ts : List Token) : Component → Nat → Nat → Prop
  | word {kind place i} : ts[i]? = some ⟨kind, place⟩ → Occupies ts (.word kind) i (i + 1)
  | node {c i j} : OccupyAll ts c.parts i j → c.span = ⟨startAt ts i, stopAt ts j⟩ →
      Occupies ts (.node c) i j

/-- The parts are written one behind the other. -/
inductive OccupyAll (ts : List Token) : List Component → Nat → Nat → Prop
  | nil {i} : OccupyAll ts [] i i
  | cons {x xs i j k} : Occupies ts x i j → OccupyAll ts xs j k → OccupyAll ts (x :: xs) i k

end

mutual

theorem Occupies.bounds {ts : List Token} : ∀ {x i j}, Occupies ts x i j → i < j ∧ j ≤ ts.length
  | _, _, _, .word h => ⟨Nat.lt_succ_self _, (List.getElem?_eq_some_iff.mp h).1⟩
  | _, _, _, .node (c := c) h _ => (OccupyAll.bounds h).resolve_left fun heq => c.parts_ne_nil heq.1

theorem OccupyAll.bounds {ts : List Token} : ∀ {xs i j}, OccupyAll ts xs i j →
    xs = [] ∧ i = j ∨ i < j ∧ j ≤ ts.length
  | _, _, _, .nil => .inl ⟨rfl, rfl⟩
  | _, _, _, .cons h hs => by
      have hhead := h.bounds
      rcases OccupyAll.bounds hs with ⟨-, rfl⟩ | htail
      · exact .inr hhead
      · exact .inr ⟨by omega, htail.2⟩

end

variable {ts : List Token}

theorem OccupyAll.le {xs : List Component} {i j : Nat} (h : OccupyAll ts xs i j) : i ≤ j := by
  rcases h.bounds with ⟨-, rfl⟩ | h
  · exact Nat.le_refl _
  · exact Nat.le_of_lt h.1

theorem OccupyAll.single {x : Component} {i j : Nat} (h : Occupies ts x i j) : OccupyAll ts [x] i j :=
  .cons h .nil

theorem OccupyAll.append {xs ys : List Component} {i j k : Nat} (h : OccupyAll ts xs i j)
    (h' : OccupyAll ts ys j k) : OccupyAll ts (xs ++ ys) i k := by
  induction xs generalizing i with
  | nil => cases h; exact h'
  | cons x xs ih =>
      cases h with
      | cons hx hxs => exact .cons hx (ih hxs)

theorem Occupies.span_eq {c : Construct} {i j : Nat} (h : Occupies ts (.node c) i j) :
    c.span = ⟨startAt ts i, stopAt ts j⟩ := by
  cases h with
  | node _ hspan => exact hspan

theorem Occupies.parts {c : Construct} {i j : Nat} (h : Occupies ts (.node c) i j) :
    OccupyAll ts c.parts i j := by
  cases h with
  | node hparts _ => exact hparts

/-! ## Order -/

/-- The constructs stand one behind the other, with or without tokens between them, among the tokens from
number `i` up to number `j`. -/
inductive InOrder (ts : List Token) : List Construct → Nat → Nat → Prop
  | nil {i j} : i ≤ j → InOrder ts [] i j
  | cons {c cs i j k m} : i ≤ j → Occupies ts (.node c) j k → InOrder ts cs k m → InOrder ts (c :: cs) i m

namespace InOrder

variable {cs ds : List Construct} {i j k : Nat}

theorem widen (h : InOrder ts cs j k) (hij : i ≤ j) : InOrder ts cs i k := by
  cases h with
  | nil hjk => exact .nil (Nat.le_trans hij hjk)
  | cons hj hc hcs => exact .cons (Nat.le_trans hij hj) hc hcs

theorem append (h : InOrder ts cs i j) (h' : InOrder ts ds j k) : InOrder ts (cs ++ ds) i k := by
  induction h with
  | nil hij => exact h'.widen hij
  | cons hi hc _ ih => exact .cons hi hc (ih h')

theorem le (h : InOrder ts cs i j) : i ≤ j := by
  induction h with
  | nil hij => exact hij
  | cons hi hc _ ih => have := hc.bounds; omega

/-- Each construct may be replaced by constructs in it. -/
theorem flatMap {f : Construct → List Construct} (h : InOrder ts cs i j)
    (hf : ∀ c ∈ cs, ∀ a b, Occupies ts (.node c) a b → InOrder ts (f c) a b) :
    InOrder ts (cs.flatMap f) i j := by
  induction h with
  | nil hij => exact .nil hij
  | @cons c cs i a b j hi hc _ ih =>
      rw [List.flatMap_cons]
      exact ((hf c List.mem_cons_self a b hc).widen hi).append
        (ih fun d hd => hf d (List.mem_cons_of_mem c hd))

theorem exists_mem (h : InOrder ts cs i j) : ∀ c ∈ cs, ∃ a b, i ≤ a ∧ Occupies ts (.node c) a b ∧ b ≤ j := by
  induction h with
  | nil => simp
  | cons hi hc hcs ih =>
      refine List.forall_mem_cons.mpr ⟨⟨_, _, hi, hc, hcs.le⟩, fun d hd => ?_⟩
      obtain ⟨a, b, ha, hd, hb⟩ := ih d hd
      exact ⟨a, b, by have := hc.bounds; omega, hd, hb⟩

/-- Constructs in order do not overlap. -/
theorem pairwise (hts : Laid ts) (h : InOrder ts cs i j) :
    cs.Pairwise fun c d => c.span.stop ≤ d.span.start := by
  induction h with
  | nil => exact .nil
  | cons hi hc hcs ih =>
      refine .cons (fun d hd => ?_) ih
      obtain ⟨a, b, ha, hd, -⟩ := hcs.exists_mem d hd
      have hbounds := hd.bounds
      rw [hc.span_eq, hd.span_eq]
      exact hts.stop_le_start ha (by omega)

end InOrder

theorem OccupyAll.inOrder {xs : List Component} {i j : Nat} (h : OccupyAll ts xs i j) :
    InOrder ts (xs.filterMap Component.construct?) i j := by
  induction xs generalizing i with
  | nil => exact .nil h.le
  | cons x xs ih =>
      cases h with
      | cons hx hxs =>
          cases x with
          | word kind => exact (ih hxs).widen (Nat.le_of_lt hx.bounds.1)
          | node c => exact .cons (Nat.le_refl _) hx (ih hxs)

theorem Occupies.inOrder_inner {c : Construct} {i j : Nat} (h : Occupies ts (.node c) i j) :
    InOrder ts c.inner i j :=
  h.parts.inOrder

/-- A construct that is written with some of the tokens of another one stands in its place. -/
theorem Occupies.contains (hts : Laid ts) {c d : Construct} {i j a b : Nat}
    (h : Occupies ts (.node c) i j) (hd : Occupies ts (.node d) a b) (ha : i ≤ a) (hb : b ≤ j) :
    c.span.start ≤ d.span.start ∧ d.span.stop ≤ c.span.stop := by
  have hbounds := h.bounds
  have hbounds' := hd.bounds
  rw [h.span_eq, hd.span_eq]
  constructor
  · rcases Nat.lt_or_eq_of_le ha with ha | rfl
    · exact Nat.le_of_lt (hts.start_lt_start ha (by omega))
    · exact Nat.le_refl _
  · rcases Nat.lt_or_eq_of_le hb with hb | rfl
    · exact Nat.le_of_lt (hts.stop_lt_stop hb hbounds.2)
    · exact Nat.le_refl _

/-! ## Expressions -/

namespace Component

@[simp] theorem constructs_listed (xs : List Component) :
    (listed xs).filterMap construct? = xs.filterMap construct? := by
  unfold listed
  induction xs with
  | nil => rfl
  | cons x xs ih =>
      cases xs with
      | nil => rfl
      | cons y ys =>
          rw [List.intersperse_cons_cons, List.filterMap_cons, List.filterMap_cons_none rfl, ih,
            ← List.filterMap_cons]

@[simp] theorem construct?_comp_node {α : Type} (f : α → Construct) :
    (construct? ∘ fun a => node (f a)) = fun a => some (f a) := rfl

@[simp] theorem constructs_ended {α : Type} (f : α → Construct) (as : List α) :
    (as.flatMap fun a => ended (node (f a))).filterMap construct? = as.map f := by
  induction as with
  | nil => rfl
  | cons a as ih =>
      rw [List.flatMap_cons, List.filterMap_append, ih]
      rfl

@[simp] theorem constructs_initial (init : Option Expr) :
    (initial init).filterMap construct? = init.toList.map .expr := by
  cases init <;> rfl

@[simp] theorem constructs_arguments (args : List Expr) :
    (arguments args).filterMap construct? = args.map .expr := by
  simp [arguments, List.filterMap_cons]

end Component

/-- The expressions closest below a place: the construct itself, or those directly inside. -/
def Construct.exprs : Construct → List Construct
  | expr e => [expr e]
  | c => c.inner

namespace Construct

attribute [local simp] exprs inner parts List.filterMap_cons

theorem flatMap_exprs_expr (es : List Expr) : (es.map expr).flatMap exprs = es.map expr := by
  rw [List.flatMap_map, List.map_eq_flatMap]
  rfl

theorem flatMap_exprs_binding (bindings : List (Binder × Option Expr)) :
    (bindings.map binding).flatMap exprs = (bindings.filterMap (·.2)).map expr := by
  induction bindings with
  | nil => rfl
  | cons b bindings ih =>
      obtain ⟨b, init⟩ := b
      cases init <;> simpa using ih

theorem flatMap_exprs_arm (arms : List (Binder × Expr)) :
    (arms.map arm).flatMap exprs = (arms.map (·.2)).map expr := by
  induction arms with
  | nil => rfl
  | cons a arms ih => simpa using ih

end Construct

open Construct in
/-- The children of an expression are the expressions closest below it. A binding and an arm are no
expressions, but hold one. -/
theorem Expr.map_children (e : Expr) : e.children.map .expr = (Construct.expr e).inner.flatMap exprs := by
  unfold Construct.inner Construct.parts
  cases e with
  | dispatch _ receiver _ args =>
      cases receiver <;> simp [children, Expr.parts, flatMap_exprs_expr, List.filterMap_cons, exprs]
  | letIn _ bindings body =>
      simp [children, Expr.parts, flatMap_exprs_binding, List.filterMap_cons, exprs]
  | caseOf _ scrutinee arms =>
      simp [children, Expr.parts, flatMap_exprs_arm, List.filterMap_cons, exprs]
  | _ => simp [children, Expr.parts, flatMap_exprs_expr, List.filterMap_cons, exprs]

theorem Occupies.inOrder_exprs {c : Construct} {i j : Nat} (h : Occupies ts (.node c) i j) :
    InOrder ts c.exprs i j := by
  cases c with
  | expr e => exact .cons (Nat.le_refl i) h (.nil (Nat.le_refl j))
  | _ => exact h.inOrder_inner

theorem Occupies.inOrder_children {e : Expr} {i j : Nat} (h : Occupies ts (.expr e) i j) :
    InOrder ts (e.children.map .expr) i j :=
  e.map_children ▸ h.inOrder_inner.flatMap fun _ _ _ _ hc => hc.inOrder_exprs

namespace Expr

theorem walkAll_eq (es : List Expr) : walkAll es = es.flatMap walk := by
  induction es with
  | nil => rfl
  | cons e es ih => rw [walkAll, ih, List.flatMap_cons]

theorem walkInits_eq (bindings : List (Binder × Option Expr)) :
    walkInits bindings = (bindings.filterMap (·.2)).flatMap walk := by
  induction bindings with
  | nil => rfl
  | cons b bindings ih =>
      obtain ⟨b, init⟩ := b
      cases init with
      | none => rw [walkInits, ih]; rfl
      | some e => rw [walkInits, ih]; rfl

theorem walkArms_eq (arms : List (Binder × Expr)) : walkArms arms = (arms.map (·.2)).flatMap walk := by
  induction arms with
  | nil => rfl
  | cons a arms ih => rw [walkArms, ih, List.map_cons, List.flatMap_cons]

/-- The walk through an expression goes through its children. -/
theorem walk_eq (e : Expr) : e.walk = e :: e.children.flatMap walk := by
  cases e with
  | dispatch _ receiver _ args => cases receiver <;> simp [walk, children, walkAll_eq]
  | _ => simp [walk, children, walkAll_eq, walkInits_eq, walkArms_eq]

theorem length_walk_lt {e x : Expr} (h : x ∈ e.children) : x.walk.length < e.walk.length := by
  rw [e.walk_eq, List.flatMap_def]
  exact Nat.lt_succ_of_le (List.sublist_flatten_of_mem (List.mem_map_of_mem h)).length_le

end Expr

namespace Program.Has

variable {p : Program}

attribute [local simp] Construct.inner Construct.parts Expr.parts List.filterMap_cons

theorem feature {c : ClassDecl} {f : Feature} (h : p.Has (.classDecl c)) (hf : f ∈ c.features) :
    p.Has (.feature f) := by
  refine h.inner ?_
  cases hparent : c.parent <;> simpa [hparent] using hf

theorem param {m : MethodDecl} {q : Param} (h : p.Has (.feature (.method m))) (hq : q ∈ m.params) :
    p.Has (.param q) := h.inner (by simpa using hq)

theorem value {f : Feature} {e : Expr} (h : p.Has (.feature f)) (he : e ∈ f.expr?) : p.Has (.expr e) := by
  refine h.inner ?_
  cases f with
  | attr a => simpa [Feature.expr?] using he
  | method m => simpa [Feature.expr?, eq_comm] using he

theorem binding {span : Span} {bindings : List (Binder × Option Expr)} {body : Expr}
    (h : p.Has (.expr (.letIn span bindings body))) : ∀ b ∈ bindings, p.Has (.binding b) :=
  fun _ hb => h.inner (by simpa using hb)

theorem arm {span : Span} {scrutinee : Expr} {arms : List (Binder × Expr)}
    (h : p.Has (.expr (.caseOf span scrutinee arms))) : ∀ a ∈ arms, p.Has (.arm a) :=
  fun _ ha => h.inner (by simpa using ha)

theorem child {e x : Expr} (h : p.Has (.expr e)) (hx : x ∈ e.children) : p.Has (.expr x) := by
  have hmem : Construct.expr x ∈ (Construct.expr e).inner.flatMap Construct.exprs :=
    e.map_children ▸ List.mem_map_of_mem hx
  obtain ⟨c, hc, hxc⟩ := List.mem_flatMap.mp hmem
  have hc := h.inner hc
  cases c with
  | expr e' => rwa [List.mem_singleton.mp hxc]
  | _ => exact hc.inner hxc

/-- With an expression, the program has all that its walk comes to. -/
theorem walk {e : Expr} (h : p.Has (.expr e)) : ∀ x ∈ e.walk, p.Has (.expr x) := by
  induction hn : e.walk.length using Nat.strongRecOn generalizing e with
  | _ n ih =>
      rw [e.walk_eq]
      refine List.forall_mem_cons.mpr ⟨h, fun x hx => ?_⟩
      obtain ⟨y, hy, hxy⟩ := List.mem_flatMap.mp hx
      exact ih _ (hn ▸ Expr.length_walk_lt hy) (h.child hy) rfl x hxy

end Program.Has

/-- `A` holds of every class of the program, every feature, parameter and expression in it, and every binding
and arm in these. -/
structure Program.EachConstruct (p : Program) (A : Construct → Prop) : Prop where
  classes : ∀ c ∈ p.classes, A (.classDecl c)
  features : ∀ c ∈ p.classes, ∀ f ∈ c.features, A (.feature f)
  params : ∀ c ∈ p.classes, ∀ m ∈ c.methods, ∀ q ∈ m.params, A (.param q)
  exprs : ∀ c ∈ p.classes, ∀ f ∈ c.features, ∀ e ∈ f.expr?, ∀ x ∈ e.walk, A (.expr x)
  bindings : ∀ c ∈ p.classes, ∀ f ∈ c.features, ∀ e ∈ f.expr?, ∀ span bindings body,
    .letIn span bindings body ∈ e.walk → ∀ b ∈ bindings, A (.binding b)
  arms : ∀ c ∈ p.classes, ∀ f ∈ c.features, ∀ e ∈ f.expr?, ∀ span scrutinee arms,
    .caseOf span scrutinee arms ∈ e.walk → ∀ a ∈ arms, A (.arm a)

theorem Program.eachConstruct_of_has {p : Program} {A : Construct → Prop} (h : ∀ c, p.Has c → A c) :
    p.EachConstruct A where
  classes _ hc := h _ (.classDecl hc)
  features _ hc _ hf := h _ ((Has.classDecl hc).feature hf)
  params c hc m hm q hq := by
    obtain ⟨f, hf, hfm⟩ := List.mem_filterMap.mp hm
    cases f with
    | attr a => cases hfm
    | method m' =>
        cases hfm
        exact h _ (((Has.classDecl hc).feature hf).param hq)
  exprs _ hc _ hf _ he x hx := h _ ((((Has.classDecl hc).feature hf).value he).walk x hx)
  bindings _ hc _ hf _ he _ _ _ hx b hb :=
    h _ (((((Has.classDecl hc).feature hf).value he).walk _ hx).binding b hb)
  arms _ hc _ hf _ he _ _ _ hx a ha :=
    h _ (((((Has.classDecl hc).feature hf).value he).walk _ hx).arm a ha)

end CoolTyping
