import CoolTyping.Proofs.ValueTypes

/-!
# Frames

`typeOf` is handed what is in sight and hands on more of it. Here the same check runs on one state: it opens a
frame for a `let` and for each arm of a `case`, declares variables in it while initial values are still to be
checked, closes it, and collects diagnostics as it goes. Both agree: a visit of an expression ends with what was
in sight before, with the type that `typeOf` gives, and with its reports behind the earlier diagnostics.
-/

namespace CoolTyping

open Reporting

theorem Diagnostics.insertAll_append (d : Diagnostics) (rs rs' : List Report) :
    d.insertAll (rs ++ rs') = (d.insertAll rs).insertAll rs' := List.foldl_append

theorem Diagnostics.isPrefix_insertAll (d : Diagnostics) (rs : List Report) : d <+: d.insertAll rs := by
  unfold insertAll
  induction rs generalizing d with
  | nil => exact List.prefix_rfl
  | cons r rs ih =>
      refine List.IsPrefix.trans ?_ (ih (d.insert r))
      unfold insert
      split
      · exact List.prefix_rfl
      · exact List.prefix_append _ _

/-! ## The innermost frame -/

/-- Without the innermost frame. -/
def Env.outer (Γ : Env) : Env := { Γ with scope := Γ.scope.pop }

@[simp] theorem Env.outer_nested (Γ : Env) : Γ.nested.outer = Γ := rfl

/-- A variable is declared in the innermost frame, if there is one. -/
theorem Env.outer_declare {Γ : Env} (h : Γ.scope.frames ≠ []) (name : String) (t : TypeName) :
    (Γ.declare name t).outer = Γ.outer := by
  obtain ⟨_, _, _, ⟨frames⟩⟩ := Γ
  cases frames with
  | nil => exact absurd rfl h
  | cons frame frames => rfl

theorem Env.declare_frames (Γ : Env) (name : String) (t : TypeName) : (Γ.declare name t).scope.frames ≠ [] := by
  unfold Env.declare Scope.declare
  dsimp only
  split <;> simp

theorem Env.outer_typeBindings {Γ : Env} (h : Γ.scope.frames ≠ []) (bindings : List (Binder × Option Expr)) :
    (typeBindings Γ bindings).value.outer = Γ.outer := by
  induction bindings generalizing Γ with
  | nil => rfl
  | cons b bindings ih => exact (ih (Γ.declare_frames _ _)).trans (outer_declare h _ _)

namespace Check

/-- What is in sight, and what was found so far. -/
structure State where
  env : Env
  diagnostics : Diagnostics

end Check

abbrev Check := StateM Check.State

namespace Check

variable {α β : Type}

/-- Makes the reports of an operation on what is in sight. -/
def ask (f : Env → Reporting α) : Check α :=
  modifyGet fun s => ((f s.env).value, { s with diagnostics := s.diagnostics.insertAll (f s.env).reports })

def openFrame : Check Unit := modify fun s => { s with env := s.env.nested }

def closeFrame : Check Unit := modify fun s => { s with env := s.env.outer }

def declare (name : String) (t : TypeName) : Check Unit :=
  modify fun s => { s with env := s.env.declare name t }

/-- Joins the type of one more arm to those before it. -/
def joinArm (Γ : Env) (joined : Option TypeName) (t : TypeName) : TypeName :=
  joined.elim t (Γ.context.join · t)

mutual

/-- Checks an expression, and gives its type. -/
def visit : Expr → Check TypeName
  | .assign span name value => do
    let found ← visit value
    if name == selfName then
      ask fun _ => report .selfReadonly span
      return TypeName.error
    else
      match ← ask fun Γ => return Γ.scope.lookup? name with
      | some target =>
        ask (·.expect found target value.span)
        return target
      | none =>
        ask fun Γ => report (.variableNotDefined name Γ.place) span
        return TypeName.error
  | .dispatch span receiver method args => do
    let t ← visitReceiver receiver
    let r ← ask (·.invoke t method args.length span)
    visitArgs args r.1
    return r.2
  | .staticDispatch span receiver ancestor method args => do
    let t ← visit receiver
    let owner ← ask (·.declaredAt ancestor span)
    ask (·.descends t owner receiver.span)
    let r ← ask (·.call owner t method args.length span)
    visitArgs args r.1
    return r.2
  | .cond _ test thenBranch elseBranch => do
    let t ← visit test
    ask (·.condition t test.span)
    let a ← visit thenBranch
    let b ← visit elseBranch
    ask fun Γ => return Γ.context.join a b
  | .loop _ test body => do
    let t ← visit test
    ask (·.condition t test.span)
    let _ ← visit body
    return TypeName.object
  | .letIn _ bindings body => do
    openFrame
    visitBindings bindings
    let t ← visit body
    closeFrame
    return t
  | .caseOf _ scrutinee arms => do
    let _ ← visit scrutinee
    let joined ← visitArms none arms
    return joined.getD TypeName.object
  | .block _ body => visitBlock TypeName.object body
  | .binary span op left right => do
    let a ← visit left
    let b ← visit right
    ask (·.binary op a b span)
  | .unary span op operand => do
    let t ← visit operand
    ask (·.unary op t operand.span span)
  | .new span ty => ask (·.declaredAt ty span)
  | .paren _ inner => visit inner
  | .ident span name => ask (·.variableType name span)
  | .int .. => return TypeName.int
  | .str .. => return TypeName.string
  | .bool .. => return TypeName.bool
termination_by structural e => e

def visitReceiver : Option Expr → Check TypeName
  | some e => visit e
  | none => ask fun Γ => return Γ.current
termination_by structural receiver => receiver

def visitArgs : List Expr → List TypeName → Check Unit
  | [], _ => return
  | e :: es, [] => do
    let _ ← visit e
    visitArgs es []
  | e :: es, t :: ts => do
    let found ← visit e
    ask (·.expect found t e.span)
    visitArgs es ts
termination_by structural es => es

def visitBlock (last : TypeName) : List Expr → Check TypeName
  | [] => return last
  | e :: es => do
    let t ← visit e
    visitBlock t es
termination_by structural es => es

def visitInit (t : TypeName) : Option Expr → Check Unit
  | some e => do
    let found ← visit e
    ask (·.expect found t e.span)
  | none => return
termination_by structural init => init

/-- Declares the variables one by one in the innermost frame. -/
def visitBindings : List (Binder × Option Expr) → Check Unit
  | [] => return
  | (b, init) :: bindings => do
    let t ← ask (·.declaredAt b.ty b.span)
    visitInit t init
    declare b.name t
    visitBindings bindings
termination_by structural bindings => bindings

/-- Checks the bodies, each in a frame of its own, where `joined` is the join of those before. -/
def visitArms (joined : Option TypeName) : List (Binder × Expr) → Check (Option TypeName)
  | [] => return joined
  | (b, body) :: arms => do
    openFrame
    let t ← ask (·.declaredAt b.ty b.span)
    declare b.name t
    let found ← visit body
    closeFrame
    let found ← ask fun Γ => return joinArm Γ joined found
    visitArms (some found) arms
termination_by structural arms => arms

end

/-! ## Runs -/

/-- From `Γ` the check comes to `Δ` with the result `a` and makes the reports `rs`, whatever was found
before. -/
def Runs (x : Check α) (Γ : Env) (a : α) (rs : List Report) (Δ : Env) : Prop :=
  ∀ d, x.run ⟨Γ, d⟩ = (a, ⟨Δ, d.insertAll rs⟩)

namespace Runs

variable {Γ Δ Θ : Env} {x : Check α} {f : α → Check β} {a : α} {b : β} {rs rs' : List Report}

theorem pure (a : α) (Γ : Env) : Runs (pure a) Γ a [] Γ := fun _ => rfl

theorem ask (f : Env → Reporting α) (Γ : Env) : Runs (ask f) Γ (f Γ).value (f Γ).reports Γ := fun _ => rfl

theorem openFrame (Γ : Env) : Runs openFrame Γ () [] Γ.nested := fun _ => rfl

theorem closeFrame (Γ : Env) : Runs closeFrame Γ () [] Γ.outer := fun _ => rfl

theorem declare (Γ : Env) (name : String) (t : TypeName) : Runs (declare name t) Γ () [] (Γ.declare name t) :=
  fun _ => rfl

theorem bind (hx : Runs x Γ a rs Δ) (hf : Runs (f a) Δ b rs' Θ) : Runs (x >>= f) Γ b (rs ++ rs') Θ := by
  intro d
  rw [StateT.run_bind, hx d, Diagnostics.insertAll_append]
  exact hf _

/-- Closing a frame behind the last step. -/
theorem close (hx : Runs x Γ a rs Δ) (hΔ : Δ.outer = Θ) :
    Runs (do let a ← x; Check.closeFrame; return a) Γ a rs Θ := by
  subst hΔ
  rw [← List.append_nil rs]
  exact hx.bind ((closeFrame Δ).bind (pure a Δ.outer))

end Runs

theorem foldl_joinArm (Γ : Env) (a : TypeName) (ts : List TypeName) :
    ts.foldl (fun joined t => some (joinArm Γ joined t)) (some a) = some (ts.foldl Γ.context.join a) := by
  induction ts generalizing a with
  | nil => rfl
  | cons t ts ih => exact ih _

theorem joinAll_eq_foldl (Γ : Env) (ts : List TypeName) : Γ.context.joinAll ts =
    (ts.foldl (fun joined t => some (joinArm Γ joined t)) none).getD TypeName.object := by
  cases ts with
  | nil => rfl
  | cons t ts =>
      rw [List.foldl_cons]
      exact (congrArg (·.getD TypeName.object) (foldl_joinArm Γ t ts)).symm

mutual

/-- A visit leaves what is in sight as it was, and finds what `typeOf` finds. -/
theorem visit_runs (Γ : Env) : (e : Expr) → Runs (visit e) Γ (typeOf Γ e).value (typeOf Γ e).reports Γ
  | .assign span name value => by
      rw [visit, typeOf]
      refine (visit_runs Γ value).bind ?_
      split
      · exact (Runs.ask _ Γ).bind (Runs.pure _ Γ)
      · cases hfound : Γ.scope.lookup? name with
        | some target =>
            have hlookup : Runs (ask fun Γ => return Γ.scope.lookup? name) Γ (some target) [] Γ :=
              hfound ▸ Runs.ask _ Γ
            exact hlookup.bind ((Runs.ask _ Γ).bind (Runs.pure _ Γ))
        | none =>
            have hlookup : Runs (ask fun Γ => return Γ.scope.lookup? name) Γ none [] Γ := hfound ▸ Runs.ask _ Γ
            exact hlookup.bind ((Runs.ask _ Γ).bind (Runs.pure _ Γ))
  | .dispatch span receiver method args => by
      rw [visit, typeOf_dispatch]
      exact (visitReceiver_runs Γ receiver).bind ((Runs.ask _ Γ).bind
        ((visitArgs_runs Γ args _).bind (Runs.pure _ Γ)))
  | .staticDispatch span receiver ancestor method args => by
      rw [visit, typeOf]
      exact (visit_runs Γ receiver).bind ((Runs.ask _ Γ).bind ((Runs.ask _ Γ).bind ((Runs.ask _ Γ).bind
        ((visitArgs_runs Γ args _).bind (Runs.pure _ Γ)))))
  | .cond _ test thenBranch elseBranch => by
      rw [visit, typeOf]
      exact (visit_runs Γ test).bind ((Runs.ask _ Γ).bind ((visit_runs Γ thenBranch).bind
        ((visit_runs Γ elseBranch).bind (Runs.ask _ Γ))))
  | .loop _ test body => by
      rw [visit, typeOf]
      exact (visit_runs Γ test).bind ((Runs.ask _ Γ).bind ((visit_runs Γ body).bind (Runs.pure _ Γ)))
  | .letIn _ bindings body => by
      rw [visit, typeOf]
      have hbody := visit_runs (typeBindings Γ.nested bindings).value body
      -- the frame that is closed last is the one that the bindings were declared in
      have houter : (typeBindings Γ.nested bindings).value.outer = Γ := by
        rw [Env.outer_typeBindings (List.cons_ne_nil _ _), Env.outer_nested]
      exact (Runs.openFrame Γ).bind ((visitBindings_runs Γ.nested bindings).bind (hbody.close houter))
  | .caseOf _ scrutinee arms => by
      rw [visit, typeOf]
      change Runs _ Γ (Γ.context.joinAll (typeArms Γ arms).value) _ Γ
      rw [joinAll_eq_foldl]
      exact (visit_runs Γ scrutinee).bind ((visitArms_runs Γ none arms).bind (Runs.pure _ Γ))
  | .block _ body => by
      rw [visit, typeOf]
      exact visitBlock_runs Γ _ body
  | .binary span op left right => by
      rw [visit, typeOf]
      exact (visit_runs Γ left).bind ((visit_runs Γ right).bind (Runs.ask _ Γ))
  | .unary span op operand => by
      rw [visit, typeOf]
      exact (visit_runs Γ operand).bind (Runs.ask _ Γ)
  | .new span ty => by
      rw [visit, typeOf]
      exact Runs.ask _ Γ
  | .paren _ inner => by
      rw [visit, typeOf]
      exact visit_runs Γ inner
  | .ident span name => by
      rw [visit, typeOf]
      exact Runs.ask _ Γ
  | .int .. => by
      rw [visit, typeOf]
      exact Runs.pure _ Γ
  | .str .. => by
      rw [visit, typeOf]
      exact Runs.pure _ Γ
  | .bool .. => by
      rw [visit, typeOf]
      exact Runs.pure _ Γ

theorem visitReceiver_runs (Γ : Env) : (receiver : Option Expr) →
    Runs (visitReceiver receiver) Γ (typeReceiver Γ receiver).value (typeReceiver Γ receiver).reports Γ
  | some e => by
      rw [visitReceiver, typeReceiver]
      exact visit_runs Γ e
  | none => by
      rw [visitReceiver, typeReceiver]
      exact Runs.ask _ Γ

theorem visitArgs_runs (Γ : Env) : (es : List Expr) → (ts : List TypeName) →
    Runs (visitArgs es ts) Γ () (typeArgs Γ es ts).reports Γ
  | [], _ => by
      rw [visitArgs, typeArgs]
      exact Runs.pure _ Γ
  | e :: es, [] => by
      rw [visitArgs, typeArgs]
      exact (visit_runs Γ e).bind (visitArgs_runs Γ es [])
  | e :: es, t :: ts => by
      rw [visitArgs, typeArgs]
      exact (visit_runs Γ e).bind ((Runs.ask _ Γ).bind (visitArgs_runs Γ es ts))

theorem visitBlock_runs (Γ : Env) (last : TypeName) : (es : List Expr) →
    Runs (visitBlock last es) Γ (typeBlock Γ last es).value (typeBlock Γ last es).reports Γ
  | [] => by
      rw [visitBlock, typeBlock]
      exact Runs.pure _ Γ
  | e :: es => by
      rw [visitBlock, typeBlock]
      exact (visit_runs Γ e).bind (visitBlock_runs Γ _ es)

theorem visitInit_runs (Γ : Env) (t : TypeName) : (init : Option Expr) →
    Runs (visitInit t init) Γ () (checkInit Γ t init).reports Γ
  | some e => by
      rw [visitInit, checkInit]
      exact (visit_runs Γ e).bind (Runs.ask _ Γ)
  | none => by
      rw [visitInit, checkInit]
      exact Runs.pure _ Γ

theorem visitBindings_runs (Γ : Env) : (bindings : List (Binder × Option Expr)) →
    Runs (visitBindings bindings) Γ () (typeBindings Γ bindings).reports (typeBindings Γ bindings).value
  | [] => by
      rw [visitBindings, typeBindings]
      exact Runs.pure _ Γ
  | (b, init) :: bindings => by
      rw [visitBindings, typeBindings]
      exact (Runs.ask _ Γ).bind ((visitInit_runs Γ _ init).bind ((Runs.declare Γ _ _).bind
        (visitBindings_runs _ bindings)))

theorem visitArms_runs (Γ : Env) (joined : Option TypeName) : (arms : List (Binder × Expr)) →
    Runs (visitArms joined arms) Γ
      ((typeArms Γ arms).value.foldl (fun joined t => some (joinArm Γ joined t)) joined)
      (typeArms Γ arms).reports Γ
  | [] => by
      rw [visitArms, typeArms]
      exact Runs.pure _ Γ
  | (b, body) :: arms => by
      rw [visitArms, typeArms]
      simp only [value_bind, reports_bind, value_pure, reports_pure, List.append_nil, List.foldl_cons]
      have hbody := visit_runs (Γ.nested.declare b.name (Γ.declaredAt b.ty b.span).value) body
      exact (Runs.openFrame Γ).bind ((Runs.ask _ Γ.nested).bind ((Runs.declare Γ.nested _ _).bind
        (hbody.bind ((Runs.closeFrame _).bind ((Runs.ask _ Γ).bind (visitArms_runs Γ _ arms))))))

end

/-- A visit of any expression, in a class or in a method of it or wherever else only types that a value may
have are in sight, leaves all frames, the class at hand and the place as they were. It only adds diagnostics.
The type that it ends with exists and is not `SELF_TYPE`. It is the type that `typeOf` gives, and what is added
are the reports of `typeOf`. -/
theorem visit_restores (p : Program) :
    let table := (ClassTable.build p).value
    (∀ c ∈ table.classes, (classEnv table.context c.name).Valued ∧
      ∀ m, (methodEnv (classEnv table.context c.name) m).Valued) ∧
    ∀ (e : Expr) (s : State), s.env.context = table.context → s.env.Valued →
      let r := (visit e).run s
      r.2.env = s.env ∧ s.diagnostics <+: r.2.diagnostics ∧
        table.context.contains r.1 = true ∧ r.1 ≠ TypeName.selfType ∧
        r.1 = (typeOf s.env e).value ∧ r.2.diagnostics = s.diagnostics.insertAll (typeOf s.env e).reports := by
  refine ⟨fun c hc => ?_, fun e s hcontext hvalued => ?_⟩
  · have hclass := ClassTable.classEnv_closed p hc
    exact ⟨hclass.toValued, fun m => (hclass.methodEnv m).toValued⟩
  · have hclosed : s.env.Closed := ⟨hvalued, hcontext ▸ ClassTable.build_closed p⟩
    have htype := typeOf_expressible hclosed e
    rw [hcontext] at htype
    have hrun : (visit e).run s =
        ((typeOf s.env e).value, ⟨s.env, s.diagnostics.insertAll (typeOf s.env e).reports⟩) :=
      visit_runs s.env e s.diagnostics
    simp only [hrun]
    exact ⟨trivial, Diagnostics.isPrefix_insertAll _ _, htype.1, htype.2, trivial, trivial⟩

/-- A class with a method that gives back its receiver. -/
def chained : Program :=
  ⟨[⟨0, "A", none, [.attr ⟨"x", TypeName.int, none, ⟨1, 2⟩⟩,
    .method ⟨1, "me", [], TypeName.selfType, .ident ⟨2, 3⟩ selfName, ⟨2, 4⟩⟩], ⟨0, 9⟩⟩]⟩

/-- In the method of that class, where one error was found before. -/
def midway : State :=
  let ctx := (ClassTable.build chained).value.context
  ⟨methodEnv (classEnv ctx "A") ⟨2, "f", [⟨"n", "Missing", ⟨2, 3⟩⟩], TypeName.object, .int ⟨3, 4⟩ 0, ⟨2, 9⟩⟩,
    [⟨.variableNotDefined "u" "f", ⟨5, 6⟩⟩]⟩

/-- `let x : SELF_TYPE <- u, y : Int in case y of x : Missing => x; y : Int => x.me() esac` -/
def shadows : Expr :=
  .letIn ⟨4, 20⟩
    [(⟨3, "x", TypeName.selfType, ⟨4, 5⟩⟩, some (.ident ⟨5, 6⟩ "u")), (⟨4, "y", TypeName.int, ⟨6, 7⟩⟩, none)]
    (.caseOf ⟨7, 19⟩ (.ident ⟨8, 9⟩ "y")
      [(⟨5, "x", "Missing", ⟨10, 11⟩⟩, .ident ⟨11, 12⟩ "x"),
        (⟨6, "y", TypeName.int, ⟨12, 13⟩⟩, .dispatch ⟨13, 15⟩ (some (.ident ⟨13, 14⟩ "x")) "me" [])])

/-- The frames of a `let` and of two arms, which hide an attribute and each other's variables, are gone. The
error that was found before is found again and listed once. -/
theorem shadows_restored :
    let r := (visit shadows).run midway
    midway.env.Valued ∧ r.2.env = midway.env ∧ midway.diagnostics <+: r.2.diagnostics ∧ r.1 = "A" ∧
      r.2.diagnostics = [⟨.variableNotDefined "u" "f", ⟨5, 6⟩⟩, ⟨.unknownType "Missing", ⟨10, 11⟩⟩] := by
  have hvalued : midway.env.Valued := by
    constructor <;> decide +kernel
  obtain ⟨henv, hadded, _, _, htype, hdiagnostics⟩ := (visit_restores chained).2 shadows midway rfl hvalued
  refine ⟨hvalued, henv, hadded, htype.trans ?_, hdiagnostics.trans ?_⟩
  · decide +kernel
  · decide +kernel

end Check

end CoolTyping
