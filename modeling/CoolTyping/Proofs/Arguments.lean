import CoolTyping.Proofs.Conflicts
import Mathlib

/-!
# Placeholders as arguments

A call narrows the variable that is passed to a parameter to the declared type of the parameter, not to the
types that conform to it. A placeholder with other candidates does not stay as it is, even if the parameter
accepts all of them: the declared type takes their place, or it is added to them and makes a conflict.
-/

namespace CoolTyping

namespace BagTree

variable {t : BagTree} {ctx : Context} {i j : BagId} {slot s : Slot} {e : Entry} {incoming : Candidates}

theorem get?_narrow (he : t.get? ctx i slot = some e) :
    (t.narrow ctx i slot incoming).get? ctx i slot = some (e.narrow incoming) := by
  obtain ⟨j, hj, he⟩ := Option.bind_eq_some_iff.mp he
  rw [get?, (t.evolvesTo_narrow ctx i slot incoming).resolve?, hj, Option.bind_some, entryAt?_narrow,
    if_pos ⟨hj, rfl⟩, he, Option.map_some]

/-- No use has an effect on a declared type. -/
theorem get?_narrow_of_locked (he : t.get? ctx i slot = some e) (hlocked : e.locked = true) :
    (t.narrow ctx i slot incoming).get? ctx j s = t.get? ctx j s := by
  obtain ⟨k, hk, he⟩ := Option.bind_eq_some_iff.mp he
  have hentries : ∀ l, (t.narrow ctx i slot incoming).entryAt? l s = t.entryAt? l s := by
    intro l
    rw [entryAt?_narrow]
    split
    · rename_i h
      obtain ⟨hl, rfl⟩ := h
      obtain rfl := Option.some.inj (hk.symm.trans hl)
      rw [he, Option.map_some, (e.evolvesTo_narrow incoming).fixed hlocked]
    · rfl
  rw [get?, get?, (t.evolvesTo_narrow ctx i slot incoming).resolve?]
  exact congrArg (Option.bind _) (funext hentries)

end BagTree

namespace Entry

variable {e : Entry} {T : TypeName}

/-- What is left of an open entry after a use for which only the type `T` fits. -/
def settledOn (e : Entry) (T : TypeName) : Entry :=
  if e.candidates.contains T then { e with candidates := TypeSet.single T }
  else { e with candidates := e.candidates.union (TypeSet.single T), ambiguous := true }

theorem narrow_single (hopen : e.locked = false) (hclear : e.ambiguous = false) :
    e.narrow (Candidates.single T) = e.settledOn T := by
  have hmem : ∀ u ∈ e.candidates.inter (TypeSet.single T), u ∈ e.candidates ∧ u = T := fun u hu =>
    ⟨(TypeSet.mem_inter.mp hu).1, TypeSet.mem_single.mp (TypeSet.mem_inter.mp hu).2⟩
  unfold settledOn
  rcases narrow_cases e (Candidates.single T) with
    ⟨hlocked, -⟩ | ⟨-, hnone, heq⟩ | ⟨-, -, hcommon, ⟨hambiguous, -⟩ | ⟨-, heq⟩⟩
  · rw [hopen] at hlocked
    cases hlocked
  · have hT : T ∉ e.candidates := fun hT => by
      have hnil := hnone.resolve_left (by simp [hclear])
      exact List.ne_nil_of_mem (TypeSet.mem_inter.mpr ⟨hT, TypeSet.mem_single.mpr rfl⟩) hnil
    rw [heq, if_neg (by simpa using hT)]
    rfl
  · cases hambiguous
  · obtain ⟨u, hu⟩ := List.exists_mem_of_ne_nil _ hcommon
    have hT : T ∈ e.candidates := (hmem u hu).2 ▸ (hmem u hu).1
    rw [heq, if_pos (by simpa using hT), TypeSet.eq_single hcommon fun u hu => (hmem u hu).2]

theorem settledOn_eq_self (hclear : e.ambiguous = false) :
    e.settledOn T = e ↔ e.candidates = TypeSet.single T := by
  obtain ⟨candidates, locked, ambiguous, span⟩ := e
  unfold settledOn
  constructor
  · split <;> simp_all
  · rintro rfl
    simp

theorem settledOn_unambiguous (h : (e.settledOn T).ambiguous = false) :
    T ∈ e.candidates ∧ (e.settledOn T).candidates = TypeSet.single T := by
  unfold settledOn at h ⊢
  split at h
  · rename_i hT
    exact ⟨TypeSet.contains_iff.mp hT, by rw [if_pos hT]⟩
  · cases h

end Entry

/-- In every tree that a sweep comes across, a declared type is the only candidate for itself. -/
theorem ClassTable.snapshot_of_locked {t : ClassTable} {T : BagTree} (hT : t.seed.EvolvesTo T) {ctx : Context}
    {i : BagId} {slot : Slot} {e : Entry} (he : T.get? ctx i slot = some e) (hlocked : e.locked = true)
    {ty : TypeName} (hty : ty ∈ e.candidates) : e.snapshot = Candidates.single ty := by
  obtain ⟨j, -, he⟩ := Option.bind_eq_some_iff.mp he
  obtain ⟨b, hb, hx⟩ := BagTree.mem_of_entryAt? he
  obtain ⟨a, ha, hab⟩ := forall₂_mem_right hT.bags hb
  obtain ⟨y, hy, -, hyx⟩ := forall₂_mem_right hab.entries hx
  obtain rfl : e = y.2 := hyx.fixed (hyx.locked.symm.trans hlocked)
  have hsingle : ∃ C span, y.2 = Entry.ofType C span := by
    obtain ⟨c, -, heq | ⟨f, -, ty, -, span, heq⟩⟩ := ClassTable.mem_seed_entries ha hy
    · exact ⟨_, _, heq⟩
    · rw [heq]
      rw [heq] at hlocked
      unfold Seed.entry at hlocked ⊢
      by_cases hauto : (ty == TypeName.auto) = true
      · rw [if_pos hauto] at hlocked
        cases hlocked
      · rw [if_neg hauto]
        split <;> exact ⟨_, _, rfl⟩
  obtain ⟨C, span, heq⟩ := hsingle
  rw [heq] at hty ⊢
  rw [TypeSet.mem_single.mp hty]
  rfl

namespace Sweep

variable {t : ClassTable} {Γ : Env} {bag : BagId} {methodBag : Option BagId} {s : State}

theorem next_bind {α β : Type} (x : Sweep α) (f : α → Sweep β) :
    next (x >>= f) s = next (f (result x s)) (next x s) := rfl

/-- Gives one argument to a parameter. -/
def visitArg (Γ : Env) (bag : BagId) (methodBag : Option BagId) (param : String × TypeName) (e : Expr) :
    Sweep Unit := do
  let types ← paramTypes Γ methodBag param
  let found ← visit Γ bag (some types) e
  narrowParam Γ methodBag param.1 found
  narrowVar Γ bag e types

theorem visitArgs_cons (param : String × TypeName) (params : List (String × TypeName)) (e : Expr)
    (es : List Expr) : visitArgs Γ bag methodBag (param :: params) (e :: es) =
      (do visitArg Γ bag methodBag param e; visitArgs Γ bag methodBag params es) := by
  rw [visitArgs, visitArg]
  rfl

/-- Arguments are given one after the other. -/
theorem visitArgs_append {params params' : List (String × TypeName)} {es es' : List Expr}
    (h : params.length = es.length) : visitArgs Γ bag methodBag (params ++ params') (es ++ es') =
      (do visitArgs Γ bag methodBag params es; visitArgs Γ bag methodBag params' es') := by
  induction params generalizing es with
  | nil =>
      obtain rfl := List.length_eq_zero_iff.mp h.symm
      rw [visitArgs]
      rfl
  | cons param params ih =>
      cases es with
      | nil => cases h
      | cons e es =>
          rw [List.cons_append, List.cons_append, visitArgs_cons, visitArgs_cons,
            ih (Nat.succ.inj h), bind_assoc]

/-- Visiting an expression lets the tree evolve. -/
theorem visit_evolvesTo (Γ : Env) (bag : BagId) (restriction : Option Candidates) (e : Expr) (s : State) :
    s.tree.EvolvesTo (next (visit Γ bag restriction e) s).tree :=
  (visit_keeps (Γ.covers_true s.tree) (fun _ _ _ _ => trivial) e (fun _ _ _ _ _ _ _ => trivial)
    (.refl ⟨fun _ _ => trivial, fun _ _ _ _ _ _ => trivial⟩)).1.tree

theorem visitArgs_evolvesTo (Γ : Env) (bag : BagId) (methodBag : Option BagId)
    (params : List (String × TypeName)) (es : List Expr) (s : State) :
    s.tree.EvolvesTo (next (visitArgs Γ bag methodBag params es) s).tree :=
  (visitArgs_keeps (Γ.covers_true s.tree) params (fun _ _ => .inl trivial) es
    (fun _ _ _ _ _ _ _ _ _ => trivial)
    (.refl ⟨fun _ _ => trivial, fun _ _ _ _ _ _ => trivial⟩)).1.tree

/-! ## One argument -/

/-- The parameter of a method is declared with the type `T`. Basic methods have no bag. -/
def DeclaredWith (ctx : Context) (tree : BagTree) (methodBag : Option BagId) (param : String × TypeName)
    (T : TypeName) : Prop :=
  methodBag = none ∧ param.2 = T ∨ ∃ b e, methodBag = some b ∧ tree.get? ctx b (.var param.1) = some e ∧
    e.locked = true ∧ T ∈ e.candidates

namespace DeclaredWith

variable {param : String × TypeName} {T : TypeName}

theorem evolvesTo {ctx : Context} {tree tree' : BagTree} (h : DeclaredWith ctx tree methodBag param T)
    (hev : tree.EvolvesTo tree') : DeclaredWith ctx tree' methodBag param T := by
  rcases h with h | ⟨b, e, hbag, he, hlocked, hT⟩
  · exact .inl h
  · obtain ⟨f, hf, hef⟩ := hev.get?_eq_some he
    exact .inr ⟨b, e, hbag, hef.fixed hlocked ▸ hf, hlocked, hT⟩

theorem result_paramTypes (h : DeclaredWith Γ.context s.tree methodBag param T)
    (hs : t.seed.EvolvesTo s.tree) : result (paramTypes Γ methodBag param) s = Candidates.single T := by
  rcases h with ⟨rfl, rfl⟩ | ⟨b, e, rfl, he, hlocked, hT⟩
  · rfl
  · change ((s.tree.get? Γ.context b (.var param.1)).map Entry.snapshot).getD _ = _
    rw [he, Option.map_some, Option.getD_some, ClassTable.snapshot_of_locked hs he hlocked hT]

/-- What is passed to a parameter has no effect on its declared type. -/
theorem get?_narrowParam (h : DeclaredWith Γ.context s.tree methodBag param T) (found : Candidates)
    (bag : BagId) (slot : Slot) :
    (next (narrowParam Γ methodBag param.1 found) s).tree.get? Γ.context bag slot =
      s.tree.get? Γ.context bag slot := by
  rcases h with ⟨rfl, -⟩ | ⟨b, e, rfl, he, hlocked, -⟩
  · rfl
  · exact BagTree.get?_narrow_of_locked he hlocked

end DeclaredWith

theorem next_paramTypes (param : String × TypeName) : next (paramTypes Γ methodBag param) s = s := by
  cases methodBag <;> rfl

/-- A placeholder that is passed settles on the declared type of the parameter. -/
theorem get?_visitArg {param : String × TypeName} {T : TypeName} {e : Expr} {x : String} {entry : Entry}
    (hs : t.seed.EvolvesTo s.tree) (hparam : DeclaredWith Γ.context s.tree methodBag param T)
    (harg : (next (visit Γ bag (some (Candidates.single T)) e) s).tree.OpenVariable Γ.context bag e x entry) :
    (next (visitArg Γ bag methodBag param e) s).tree.get? Γ.context bag (.var x) =
      some (entry.settledOn T) := by
  have hvisited := hparam.evolvesTo (visit_evolvesTo Γ bag (some (Candidates.single T)) e s)
  have hpassed := hvisited.get?_narrowParam (result (visit Γ bag (some (Candidates.single T)) e) s) bag (.var x)
  rw [harg.resolved] at hpassed
  rw [visitArg, next_bind, next_bind, next_bind, next_paramTypes, hparam.result_paramTypes hs, narrowVar,
    harg.named]
  refine (BagTree.get?_narrow hpassed).trans ?_
  rw [Entry.narrow_single harg.unlocked harg.unambiguous]

end Sweep

namespace ClassTable

open Sweep

/-- A call in which the placeholder `x` is passed to a parameter of the declared type `T`. When its argument
is given, the entry settles on `T`, and it stays as it is just if `T` was its only candidate. At the end of
the call there is a conflict, or `T` was one of the candidates and is the only one left. It does not matter
which of the candidates conform to `T`. -/
theorem passed_placeholder {t : ClassTable} {Γ : Sweep.Env} {s : State} {bag : BagId}
    {methodBag : Option BagId} {params params' : List (String × TypeName)} {param : String × TypeName}
    {es es' : List Expr} {e : Expr} {T : TypeName} {x : String} {entry : Entry}
    (hs : t.seed.EvolvesTo s.tree) (hlength : params.length = es.length)
    (hparam : DeclaredWith Γ.context s.tree methodBag param T)
    (harg : (next (do
      visitArgs Γ bag methodBag params es
      visit Γ bag (some (Candidates.single T)) e) s).tree.OpenVariable Γ.context bag e x entry) :
    ∃ passed left,
      (next (visitArgs Γ bag methodBag (params ++ [param]) (es ++ [e])) s).tree.get? Γ.context bag (.var x) =
        some passed ∧
      passed = entry.settledOn T ∧ (passed = entry ↔ entry.candidates = TypeSet.single T) ∧
      (next (visitArgs Γ bag methodBag (params ++ param :: params') (es ++ e :: es')) s).tree.get?
        Γ.context bag (.var x) = some left ∧
      (left.ambiguous = false → T ∈ entry.candidates ∧ left.candidates = TypeSet.single T) := by
  have hbefore := visitArgs_evolvesTo Γ bag methodBag params es s
  have hpassed := get?_visitArg (hs.trans hbefore) (hparam.evolvesTo hbefore) harg
  have hrest := visitArgs_evolvesTo Γ bag methodBag params' es'
    (next (visitArg Γ bag methodBag param e) (next (visitArgs Γ bag methodBag params es) s))
  obtain ⟨left, hleft, hev⟩ := hrest.get?_eq_some hpassed
  refine ⟨entry.settledOn T, left, ?_, rfl, Entry.settledOn_eq_self harg.unambiguous, ?_, fun hclear => ?_⟩
  · rw [visitArgs_append hlength, visitArgs_cons, next_bind, next_bind, visitArgs]
    exact hpassed
  · rw [visitArgs_append hlength, visitArgs_cons, next_bind, next_bind]
    exact hleft
  · obtain ⟨hsettled, hsublist⟩ := hev.shrinks hclear
    obtain ⟨hT, hsingle⟩ := Entry.settledOn_unambiguous hsettled
    rw [hsingle] at hsublist
    have hnonempty := hev.nonempty (by rw [hsingle]; exact List.cons_ne_nil T [])
    exact ⟨hT, TypeSet.eq_single hnonempty fun u hu => List.mem_singleton.mp (hsublist.subset hu)⟩

/-! ## A value of one type for a parameter of another -/

/-- The text of a class in which a placeholder that starts as a number is passed as an object. -/
def boxingText : String :=
  "class A { f(o : Object) : Object { o }; g() : Object { let x : AUTO_TYPE <- 1 in f(x) }; };"

namespace Boxing

def binding : Binder × Option Expr := (⟨3, "x", TypeName.auto, ⟨59, 77⟩⟩, some (.int ⟨76, 77⟩ 1))

def argument : Expr := .ident ⟨83, 84⟩ "x"

def program : Program :=
  ⟨[⟨0, "A", none, [
    .method ⟨1, "f", [⟨"o", TypeName.object, ⟨12, 22⟩⟩], TypeName.object, .ident ⟨35, 36⟩ "o", ⟨10, 38⟩⟩,
    .method ⟨2, "g", [], TypeName.object,
      .letIn ⟨55, 85⟩ [binding] (.dispatch ⟨81, 85⟩ none "f" [argument]), ⟨40, 87⟩⟩], ⟨0, 91⟩⟩]⟩

def table : ClassTable := (typecheck program).value

def env : Sweep.Env := ⟨table.context, "A"⟩

/-- Where the first sweep is when it comes to the call. -/
def atCall : State := next (visitBindings env 2 [binding]) ⟨table.seed, []⟩

theorem atCall_reached : table.seed.EvolvesTo atCall.tree := by
  have hkeeps : Keeps (After (fun _ => True) ⟨table.seed, []⟩) (visitBindings env 2 [binding])
      (fun _ => True) :=
    visitBindings_keeps (env.covers_true table.seed) [binding]
      fun _ _ => ⟨fun _ _ _ => trivial, fun _ _ _ _ _ _ _ _ _ => trivial⟩
  exact (hkeeps (.refl ⟨fun _ _ => trivial, fun _ _ _ _ _ _ => trivial⟩)).1.tree

theorem atCall_declared : DeclaredWith table.context atCall.tree (some 1) ("o", TypeName.object)
    TypeName.object :=
  .inr ⟨1, Entry.ofType TypeName.object ⟨12, 22⟩, rfl, by decide +kernel, rfl, TypeSet.mem_single.mpr rfl⟩

/-- The entry for the placeholder when the sweep comes to the call. -/
def numberEntry : Entry := ⟨TypeSet.single TypeName.int, false, false, ⟨59, 77⟩⟩

/-- Only the first argument of the call is left to give. -/
theorem numberEntry_open : (next (do
    visitArgs env 3 (some 1) [] []
    visit env 3 (some (Candidates.single TypeName.object)) argument) atCall).tree.OpenVariable
      table.context 3 argument "x" numberEntry :=
  ⟨rfl, by decide +kernel, rfl, rfl⟩

theorem passed_number : table.seed.EvolvesTo atCall.tree ∧
    DeclaredWith table.context atCall.tree (some 1) ("o", TypeName.object) TypeName.object ∧
    atCall.tree.OpenVariable table.context 3 argument "x" numberEntry ∧
    ∃ passed, (next (visitArgs env 3 (some 1) [("o", TypeName.object)] [argument]) atCall).tree.get?
      table.context 3 (.var "x") = some passed ∧ passed = numberEntry.settledOn TypeName.object ∧
      passed ≠ numberEntry := by
  obtain ⟨passed, -, hpassed, hsettled, heq, -⟩ := @passed_placeholder table env atCall 3 (some 1) [] []
    ("o", TypeName.object) [] [] argument TypeName.object "x" numberEntry atCall_reached rfl
    atCall_declared numberEntry_open
  exact ⟨atCall_reached, atCall_declared, ⟨rfl, by decide +kernel, rfl, rfl⟩, passed, hpassed, hsettled,
    fun h => absurd (heq.mp h) (by decide +kernel)⟩

/-- A number is accepted as an object. Passing it as one makes a conflict all the same. -/
theorem accepted_number_disturbed :
    parse boxingText = .ok program ∧ (typecheck program).diagnostics = [] ∧
      Sweep.onlyMethod? table.context (TypeSet.single "A") "f" =
        some ("A", ⟨"f", [("o", TypeName.object)], TypeName.object⟩) ∧
      atCall.tree.methodBag? "A" "f" = some 1 ∧
      table.seed.EvolvesTo atCall.tree ∧
      DeclaredWith table.context atCall.tree (some 1) ("o", TypeName.object) TypeName.object ∧
      atCall.tree.OpenVariable table.context 3 argument "x" numberEntry ∧
      (∀ t ∈ numberEntry.candidates.toList, table.context.conforms t TypeName.object = true) ∧
      (next (visitArgs env 3 (some 1) [("o", TypeName.object)] [argument]) atCall).tree.get?
        table.context 3 (.var "x") = some { numberEntry with
          candidates := TypeSet.ofList [TypeName.int, TypeName.object], ambiguous := true } := by
  have hp : parse boxingText = .ok program := by cbv
  exact ⟨hp, by decide +kernel, by decide +kernel, by decide +kernel, atCall_reached, atCall_declared,
    ⟨rfl, by decide +kernel, rfl, rfl⟩, by decide +kernel, by decide +kernel⟩

end Boxing

end ClassTable

end CoolTyping
