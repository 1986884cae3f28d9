import CoolTyping.Proofs.Sweeping

/-!
# Sweeps on record

A sweep on record notes every expression that it visits, with the bag in which it does so and the tree at
that moment. Apart from the notes it is the sweep itself.
-/

namespace CoolTyping

/-- The visit of an expression by a sweep. -/
structure Sighting where
  bag : BagId
  tree : BagTree
  expr : Expr

/-- A part of a sweep, with what it notes from a given state on. -/
structure Recorded (α : Type) where
  run : Sweep α
  notes : Sweep.State → List Sighting

namespace Recorded

open Sweep

variable {α β : Type}

/-- A part of a sweep in which no expression is visited. -/
def ofSweep (x : Sweep α) : Recorded α := ⟨x, fun _ => []⟩

def note (bag : BagId) (e : Expr) : Recorded Unit := ⟨Pure.pure (), fun s => [⟨bag, s.tree, e⟩]⟩

instance : Monad Recorded where
  pure a := ofSweep (Pure.pure a)
  bind x f :=
    ⟨x.run >>= fun a => (f a).run, fun s => x.notes s ++ (f (result x.run s)).notes (next x.run s)⟩

instance : MonadLift Sweep Recorded := ⟨ofSweep⟩

@[simp] theorem run_pure (a : α) : (Pure.pure a : Recorded α).run = Pure.pure a := rfl

@[simp] theorem run_bind (x : Recorded α) (f : α → Recorded β) :
    (x >>= f).run = x.run >>= fun a => (f a).run := rfl

@[simp] theorem run_lift (x : Sweep α) : (liftM x : Recorded α).run = x := rfl

@[simp] theorem run_get : (get : Recorded State).run = get := rfl

@[simp] theorem run_note (bag : BagId) (e : Expr) : (note bag e).run = Pure.pure () := rfl

@[simp] theorem run_ite (c : Prop) [Decidable c] (x y : Recorded α) :
    (if c then x else y).run = if c then x.run else y.run := apply_ite ..

@[simp] theorem run_forM (f : α → Recorded Unit) (as : List α) :
    (forM as f).run = forM as fun a => (f a).run := by
  induction as with
  | nil => rfl
  | cons a as ih => simp [ih]

/-! ## Following a run -/

/-- From a state in `K`, the notes match `vs` one by one, and the run keeps to `K` and gives a value in
`post`. -/
structure Follows {ρ : Type} (K : State → Prop) (R : ρ → Sighting → Prop) (x : Recorded α) (vs : List ρ)
    (post : α → Prop) : Prop where
  notes : ∀ ⦃s⦄, K s → List.Forall₂ R vs (x.notes s)
  keeps : Keeps K x.run post

namespace Follows

variable {ρ : Type} {K : State → Prop} {R : ρ → Sighting → Prop} {vs ws : List ρ} {post : α → Prop}
  {post' : β → Prop}

theorem pure {a : α} (h : post a) : Follows K R (Pure.pure a) [] post := ⟨fun _ _ => .nil, .pure h⟩

theorem lift {x : Sweep α} (h : Keeps K x post) : Follows K R (liftM x) [] post := ⟨fun _ _ => .nil, h⟩

theorem bind {x : Recorded α} {f : α → Recorded β} (hx : Follows K R x vs post)
    (hf : ∀ a, post a → Follows K R (f a) ws post') : Follows K R (x >>= f) (vs ++ ws) post' where
  notes s hs := by
    obtain ⟨hs', ha⟩ := hx.keeps hs
    exact List.rel_append (hx.notes hs) ((hf _ ha).notes hs')
  keeps := hx.keeps.bind fun a ha => (hf a ha).keeps

/-- What comes after visits nothing. -/
theorem bind_nil {x : Recorded α} {f : α → Recorded β} (hx : Follows K R x vs post)
    (hf : ∀ a, post a → Follows K R (f a) [] post') : Follows K R (x >>= f) vs post' := by
  rw [← List.append_nil vs]
  exact hx.bind hf

/-- A step that visits nothing comes first. -/
theorem step {x : Sweep α} {f : α → Recorded β} (hx : Keeps K x post)
    (hf : ∀ a, post a → Follows K R (f a) vs post') : Follows K R (liftM x >>= f) vs post' :=
  (lift hx).bind hf

/-- A step that visits nothing comes last. -/
theorem last {x : Sweep α} (h : Keeps K x post) : Follows K R (liftM x) [] (fun _ => True) :=
  lift fun _ hs => ⟨(h hs).1, trivial⟩

theorem get {f : State → Recorded β} (hf : ∀ s, K s → Follows K R (f s) vs post') :
    Follows K R (MonadState.get >>= f) vs post' :=
  step Keeps.get hf

theorem note {v : ρ} {bag : BagId} {e : Expr} {x : Recorded β} (hv : ∀ s, K s → R v ⟨bag, s.tree, e⟩)
    (hx : Follows K R x vs post') : Follows K R (Recorded.note bag e >>= fun _ => x) (v :: vs) post' where
  notes s hs := .cons (hv s hs) (hx.notes hs)
  keeps := hx.keeps

theorem ite {c : Prop} [Decidable c] {x y : Recorded α} (hx : c → Follows K R x vs post)
    (hy : ¬ c → Follows K R y vs post) : Follows K R (if c then x else y) vs post := by
  by_cases hc : c
  · rw [if_pos hc]; exact hx hc
  · rw [if_neg hc]; exact hy hc

end Follows

end Recorded

namespace Sweep

open Recorded (note)

mutual

/-- The visit of an expression, and of all its parts, on record. -/
def record (Γ : Env) (bag : BagId) (restriction : Option Candidates) (e : Expr) :
    Recorded Candidates := do
  note bag e
  match e with
  | .int .. => return Candidates.single TypeName.int
  | .str .. => return Candidates.single TypeName.string
  | .bool .. => return Candidates.single TypeName.bool
  | .ident _ name =>
    match ← snapshot Γ bag (.var name) with
    | some found => return found
    | none => everything
  | .new _ ty =>
    if ty == TypeName.selfType then return Candidates.single Γ.current
    else if ty == TypeName.auto || !Γ.context.contains ty then everything
    else return Candidates.single ty
  | .paren _ inner => record Γ bag restriction inner
  | .assign _ name value =>
    let target ← snapshot Γ bag (.var name)
    let found ← record Γ bag target value
    store Γ bag value found bag (.var name)
    return (← snapshot Γ bag (.var name)).getD found
  | .block _ body => recordBlock Γ bag restriction body
  | .binary _ op left right =>
    if op.isArithmetic then
      let int := Candidates.single TypeName.int
      let _ ← record Γ bag (some int) left
      let _ ← record Γ bag (some int) right
      narrowVar Γ bag left int
      narrowVar Γ bag right int
      return int
    else
      let _ ← record Γ bag none left
      let _ ← record Γ bag none right
      return Candidates.single TypeName.bool
  | .unary _ op operand =>
    match op with
    | .not =>
      let bool := Candidates.single TypeName.bool
      let _ ← record Γ bag (some bool) operand
      narrowVar Γ bag operand bool
      return bool
    | .negate =>
      let int := Candidates.single TypeName.int
      let _ ← record Γ bag (some int) operand
      narrowVar Γ bag operand int
      return int
    | .isvoid =>
      let _ ← record Γ bag none operand
      return Candidates.single TypeName.bool
  | .loop _ test body =>
    let bool := Candidates.single TypeName.bool
    let _ ← record Γ bag (some bool) test
    narrowVar Γ bag test bool
    let _ ← record Γ bag none body
    return Candidates.single TypeName.object
  | .cond _ test thenBranch elseBranch =>
    let bool := Candidates.single TypeName.bool
    let _ ← record Γ bag (some bool) test
    narrowVar Γ bag test bool
    let a ← record Γ bag none thenBranch
    let b ← record Γ bag none elseBranch
    return a.merge b
  | .letIn _ bindings body =>
    let scope ← recordBindings Γ bag bindings
    record Γ scope restriction body
  | .caseOf _ scrutinee arms =>
    let _ ← record Γ bag none scrutinee
    recordArms Γ bag Candidates.none arms
  | .dispatch span receiver method args =>
    let found ← recordReceiver Γ bag receiver
    let fits := found.types.filter fun t => (fitting? Γ.context t method args.length).isSome
    if fits.isEmpty then
      report (.noMethodCandidate (describe receiver found) method args.length) span
      recordAll Γ bag args
      everything
    else
      narrowReceiver Γ bag receiver ⟨fits, false⟩
      match onlyMethod? Γ.context fits method with
      | some (owner, m) =>
        recordArgs Γ bag ((← get).tree.methodBag? owner m.name) m.params args
        return resultsOf Γ.context (← get).tree method fits
      | none =>
        let result := resultsOf Γ.context (← get).tree method fits
        recordAll Γ bag args
        return result
  | .staticDispatch span receiver ancestor method args =>
    let found ← record Γ bag none receiver
    let t := if Γ.context.contains ancestor then ancestor else TypeName.error
    match fitting? Γ.context t method args.length with
    | none =>
      report (.noMethodCandidate ancestor method args.length) span
      recordAll Γ bag args
      everything
    | some (owner, m) =>
      recordArgs Γ bag ((← get).tree.methodBag? owner m.name) m.params args
      if m.ret == TypeName.selfType then
        return found
      else
        return resultOf Γ.context (← get).tree owner t m
termination_by structural e

def recordReceiver (Γ : Env) (bag : BagId) : Option Expr → Recorded Candidates
  | some e => record Γ bag none e
  | none => return Candidates.single Γ.current
termination_by structural receiver => receiver

def recordAll (Γ : Env) (bag : BagId) : List Expr → Recorded Unit
  | [] => return
  | e :: es => do
    let _ ← record Γ bag none e
    recordAll Γ bag es
termination_by structural es => es

def recordBlock (Γ : Env) (bag : BagId) (restriction : Option Candidates) :
    List Expr → Recorded Candidates
  | [] => return Candidates.single TypeName.object
  | [e] => do
    let found ← record Γ bag restriction e
    narrowTo Γ bag e restriction
    return found
  | e :: e' :: es => do
    let _ ← record Γ bag none e
    recordBlock Γ bag restriction (e' :: es)
termination_by structural es => es

def recordArgs (Γ : Env) (bag : BagId) (methodBag : Option BagId) :
    List (String × TypeName) → List Expr → Recorded Unit
  | _, [] => return
  | [], _ :: _ => return
  | param :: params, e :: es => do
    let types ← paramTypes Γ methodBag param
    let found ← record Γ bag (some types) e
    narrowParam Γ methodBag param.1 found
    narrowVar Γ bag e types
    recordArgs Γ bag methodBag params es
termination_by structural _ es => es

def recordInit (Γ : Env) (bag inner : BagId) (name : String) : Option Expr → Recorded Unit
  | some e => do
    let found ← record Γ bag none e
    store Γ bag e found inner (.var name)
  | none => return
termination_by structural init => init

def recordBindings (Γ : Env) (bag : BagId) : List (Binder × Option Expr) → Recorded BagId
  | [] => return bag
  | (b, init) :: bindings => do
    let inner ← scopeBag b.id bag
    recordInit Γ bag inner b.name init
    recordBindings Γ inner bindings
termination_by structural bindings => bindings

def recordArms (Γ : Env) (bag : BagId) (acc : Candidates) :
    List (Binder × Expr) → Recorded Candidates
  | [] => return acc
  | (b, body) :: arms => do
    let inner ← scopeBag b.id bag
    let found ← record Γ inner none body
    recordArms Γ bag (acc.union found) arms
termination_by structural arms => arms

end

def recordFeature (Γ : Env) (bag : BagId) : Feature → Recorded Unit
  | .attr a => recordInit Γ bag bag a.name a.init
  | .method m => do
    match (← get).tree.bagOf? m.id with
    | some inner =>
      let found ← record Γ inner none m.body
      store Γ inner m.body found inner (.result m.name)
    | none => return

def recordClass (ctx : Context) (c : ClassDecl) : Recorded Unit := do
  match (← get).tree.bagOf? c.id with
  | some bag => c.features.forM (recordFeature ⟨ctx, c.name⟩ bag)
  | none => return

/-! ## Without the notes -/

mutual

theorem run_record (Γ : Env) (bag : BagId) (restriction : Option Candidates) :
    (e : Expr) → (record Γ bag restriction e).run = visit Γ bag restriction e
  | .int .. | .str .. | .bool .. => rfl
  | .ident _ name => by
      simp only [record, visit, Recorded.run_bind, Recorded.run_note, Recorded.run_lift, pure_bind]
      apply bind_congr
      intro o
      cases o <;> rfl
  | .new _ ty => by
      simp only [record, visit, Recorded.run_bind, Recorded.run_note, pure_bind, Recorded.run_ite]
      rfl
  | .paren _ inner => by simp [record, visit, run_record _ _ _ inner]
  | .assign _ name value => by simp [record, visit, run_record _ _ _ value]
  | .block _ body => by simp [record, visit, run_recordBlock _ _ _ body]
  | .binary _ op left right => by
      simp [record, visit, run_record _ _ _ left, run_record _ _ _ right]
  | .unary _ op operand => by cases op <;> simp [record, visit, run_record _ _ _ operand]
  | .loop _ test body => by simp [record, visit, run_record _ _ _ test, run_record _ _ _ body]
  | .cond _ test thenBranch elseBranch => by
      simp [record, visit, run_record _ _ _ test, run_record _ _ _ thenBranch,
        run_record _ _ _ elseBranch]
  | .letIn _ bindings body => by
      simp [record, visit, run_recordBindings _ _ bindings, run_record _ _ _ body]
  | .caseOf _ scrutinee arms => by
      simp [record, visit, run_record _ _ _ scrutinee, run_recordArms _ _ _ arms]
  | .dispatch span receiver method args => by
      simp only [record, visit, Recorded.run_bind, Recorded.run_note, pure_bind, Recorded.run_ite,
        run_recordReceiver _ _ receiver, run_recordAll _ _ args, Recorded.run_lift]
      apply bind_congr
      intro found
      congr 1
      apply bind_congr
      intro _
      generalize onlyMethod? _ _ _ = only
      cases only <;> simp [run_recordArgs _ _ _ _ args, run_recordAll _ _ args]
  | .staticDispatch span receiver ancestor method args => by
      simp only [record, visit, Recorded.run_bind, Recorded.run_note, pure_bind,
        run_record _ _ _ receiver]
      apply bind_congr
      intro found
      generalize fitting? _ _ _ _ = meant
      cases meant <;> simp [run_recordArgs _ _ _ _ args, run_recordAll _ _ args]

theorem run_recordReceiver (Γ : Env) (bag : BagId) :
    (receiver : Option Expr) → (recordReceiver Γ bag receiver).run = visitReceiver Γ bag receiver
  | some e => run_record Γ bag none e
  | none => rfl

theorem run_recordAll (Γ : Env) (bag : BagId) :
    (es : List Expr) → (recordAll Γ bag es).run = visitAll Γ bag es
  | [] => rfl
  | e :: es => by simp [recordAll, visitAll, run_record _ _ _ e, run_recordAll _ _ es]

theorem run_recordBlock (Γ : Env) (bag : BagId) (restriction : Option Candidates) :
    (es : List Expr) → (recordBlock Γ bag restriction es).run = visitBlock Γ bag restriction es
  | [] => rfl
  | [e] => by simp [recordBlock, visitBlock, run_record _ _ _ e]
  | e :: e' :: es => by
      simp [recordBlock, visitBlock, run_record _ _ _ e, run_recordBlock _ _ _ (e' :: es)]

theorem run_recordArgs (Γ : Env) (bag : BagId) (methodBag : Option BagId) :
    (params : List (String × TypeName)) → (es : List Expr) →
      (recordArgs Γ bag methodBag params es).run = visitArgs Γ bag methodBag params es
  | _, [] => by unfold recordArgs visitArgs; rfl
  | [], _ :: _ => rfl
  | param :: params, e :: es => by
      simp [recordArgs, visitArgs, run_record _ _ _ e, run_recordArgs _ _ _ params es]

theorem run_recordInit (Γ : Env) (bag inner : BagId) (name : String) :
    (init : Option Expr) → (recordInit Γ bag inner name init).run = visitInit Γ bag inner name init
  | some e => by simp [recordInit, visitInit, run_record _ _ _ e]
  | none => rfl

theorem run_recordBindings (Γ : Env) (bag : BagId) : (bindings : List (Binder × Option Expr)) →
    (recordBindings Γ bag bindings).run = visitBindings Γ bag bindings
  | [] => rfl
  | (b, init) :: bindings => by
      simp [recordBindings, visitBindings, run_recordInit _ _ _ _ init,
        run_recordBindings _ _ bindings]

theorem run_recordArms (Γ : Env) (bag : BagId) (acc : Candidates) :
    (arms : List (Binder × Expr)) → (recordArms Γ bag acc arms).run = visitArms Γ bag acc arms
  | [] => rfl
  | (b, body) :: arms => by
      simp [recordArms, visitArms, run_record _ _ _ body, run_recordArms _ _ _ arms]

end

theorem run_recordFeature (Γ : Env) (bag : BagId) (f : Feature) :
    (recordFeature Γ bag f).run = feature Γ bag f := by
  cases f with
  | attr a => exact run_recordInit Γ bag bag a.name a.init
  | method m =>
      simp only [recordFeature, feature, Recorded.run_bind, Recorded.run_get]
      apply bind_congr
      intro s
      cases s.tree.bagOf? m.id with
      | none => rfl
      | some inner => simp [run_record]

theorem run_recordClass (ctx : Context) (c : ClassDecl) :
    (recordClass ctx c).run = classDecl ctx c := by
  simp only [recordClass, classDecl, Recorded.run_bind, Recorded.run_get]
  apply bind_congr
  intro s
  cases s.tree.bagOf? c.id with
  | none => rfl
  | some bag => simp [run_recordFeature]

end Sweep

namespace ClassTable

open Sweep

/-- A sweep through the registered classes on record. -/
def recordedSweep (t : ClassTable) : Recorded Unit := t.classes.forM (recordClass t.context)

/-- What a sweep from `tree` visits, in order. -/
def sightings (t : ClassTable) (tree : BagTree) : List Sighting := t.recordedSweep.notes ⟨tree, []⟩

theorem run_recordedSweep (t : ClassTable) :
    t.recordedSweep.run = t.classes.forM (Sweep.classDecl t.context) := by
  simp [recordedSweep, run_recordClass]

end ClassTable

end CoolTyping
