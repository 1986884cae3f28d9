import CoolTyping.Proofs.RoundTrip
import CoolTyping.Proofs.WrittenTypes

/-!
# Conditions on all parts of a program

What holds of an expression and of everything in it, and one such fact about programs that were read from a
text: no `case` is without arms.
-/

namespace CoolTyping

namespace Expr

variable {A B : Expr → Prop} {e : Expr}

/-- `A` holds of the expression and of all its parts. -/
def Everywhere (A : Expr → Prop) (e : Expr) : Prop := ∀ x ∈ e.walk, A x

instance [DecidablePred A] (e : Expr) : Decidable (e.Everywhere A) :=
  inferInstanceAs (Decidable (∀ x ∈ e.walk, A x))

theorem everywhere_iff : e.Everywhere A ↔ A e ∧ ∀ x ∈ e.children, x.Everywhere A := by
  cases e with
  | dispatch _ receiver _ args =>
      cases receiver <;> simp [Everywhere, walk, children, forall_walkAll, or_imp, forall_and]
  | letIn _ bindings body =>
      simp only [Everywhere, walk, children, List.forall_mem_cons, List.forall_mem_append,
        forall_walkInits, List.mem_filterMap, forall_exists_index, and_imp, List.not_mem_nil, false_imp_iff,
        implies_true, and_true]
      exact and_congr_right fun _ => and_congr_left fun _ =>
        ⟨fun h x b hb hx => h b hb x hx, fun h b hb x hx => h x b hb hx⟩
  | caseOf _ scrutinee arms =>
      simp only [Everywhere, walk, children, List.forall_mem_cons, List.forall_mem_append,
        forall_walkArms, List.forall_mem_map]
  | _ => simp [Everywhere, walk, children, forall_walkAll, or_imp, forall_and]

theorem Everywhere.here (h : e.Everywhere A) : A e := (everywhere_iff.mp h).1

theorem Everywhere.child (h : e.Everywhere A) {x : Expr} (hx : x ∈ e.children) : x.Everywhere A :=
  (everywhere_iff.mp h).2 x hx

theorem Everywhere.and (h : e.Everywhere A) (h' : e.Everywhere B) : e.Everywhere fun x => A x ∧ B x :=
  fun x hx => ⟨h x hx, h' x hx⟩

/-- If the expression is a `case`, it has arms. -/
def HasArms : Expr → Prop
  | caseOf _ _ arms => arms ≠ []
  | _ => True

end Expr

namespace Grammar

open CoolTyping.Expr

attribute [local simp] children HasArms

mutual

theorem Derives.hasArms : ∀ {l e w}, Derives l e w → e.Everywhere HasArms
  | _, _, _, .ofNegation h | _, _, _, .ofComparison h | _, _, _, .ofSum h | _, _, _, .ofTerm h
  | _, _, _, .ofFactor h | _, _, _, .ofNegated h | _, _, _, .ofPostfixed h | _, _, _, .ofAtom h => h.hasArms
  | _, _, _, .assign h | _, _, _, .not h | _, _, _, .isvoid h | _, _, _, .negate h | _, _, _, .paren h =>
      everywhere_iff.mpr (by simpa using h.hasArms)
  | _, _, _, .compare _ hl hr | _, _, _, .add _ hl hr | _, _, _, .mul _ hl hr | _, _, _, .loop hl hr =>
      everywhere_iff.mpr (by simpa using ⟨hl.hasArms, hr.hasArms⟩)
  | _, _, _, .call h hargs | _, _, _, .staticCall h hargs =>
      everywhere_iff.mpr (by simpa using ⟨h.hasArms, Listed.hasArms hargs⟩)
  | _, _, _, .cond ha hb hc => everywhere_iff.mpr (by simpa using ⟨ha.hasArms, hb.hasArms, hc.hasArms⟩)
  | _, _, _, .letIn hbindings he => by
      refine everywhere_iff.mpr ⟨trivial, fun x hx => ?_⟩
      rcases List.mem_append.mp hx with hx | hx
      · obtain ⟨b, hb, hx⟩ := List.mem_filterMap.mp hx
        exact SepBy.hasArms_bindings hbindings b hb x hx
      · rw [List.mem_singleton.mp hx]
        exact he.hasArms
  | _, _, _, .caseOf he harms hne => by
      refine everywhere_iff.mpr ⟨hne, List.forall_mem_cons.mpr ⟨he.hasArms, ?_⟩⟩
      exact List.forall_mem_map.mpr (Ended.hasArms_arms harms)
  | _, _, _, .block h _ => everywhere_iff.mpr ⟨trivial, Ended.hasArms h⟩
  | _, _, _, .selfCall hargs => everywhere_iff.mpr (by simpa using Listed.hasArms hargs)
  | _, _, _, .int | _, _, _, .new | _, _, _, .ident | _, _, _, .str | _, _, _, .bool =>
      everywhere_iff.mpr (by simp)

theorem Listed.hasArms : ∀ {es w}, Listed (Derives .expr) es w → ∀ e ∈ es, e.Everywhere HasArms
  | _, _, .none => by simp
  | _, _, .some h => SepBy.hasArms h

theorem SepBy.hasArms : ∀ {es w}, SepBy (Derives .expr) (.symbol .comma) es w → ∀ e ∈ es, e.Everywhere HasArms
  | _, _, .one h => by simpa using h.hasArms
  | _, _, .more h hs => List.forall_mem_cons.mpr ⟨h.hasArms, SepBy.hasArms hs⟩

theorem SepBy.hasArms_bindings : ∀ {bs w}, SepBy (Binding (Derives .expr)) (.symbol .comma) bs w →
    ∀ b ∈ bs, ∀ e ∈ b.2, e.Everywhere HasArms
  | _, _, .one (.mk h) => by simpa using OptionalAfter.hasArms h
  | _, _, .more (.mk h) hs =>
      List.forall_mem_cons.mpr ⟨OptionalAfter.hasArms h, SepBy.hasArms_bindings hs⟩

theorem OptionalAfter.hasArms : ∀ {e w}, OptionalAfter (.symbol .assign) (Derives .expr) e w →
    ∀ x ∈ e, x.Everywhere HasArms
  | _, _, .none => by simp
  | _, _, .some h => by simpa using h.hasArms

theorem Ended.hasArms_arms : ∀ {arms w}, Ended (Arm (Derives .expr)) arms w →
    ∀ a ∈ arms, a.2.Everywhere HasArms
  | _, _, .nil => by simp
  | _, _, .cons (.mk h) hs => List.forall_mem_cons.mpr ⟨h.hasArms, Ended.hasArms_arms hs⟩

theorem Ended.hasArms : ∀ {es w}, Ended (Derives .expr) es w → ∀ e ∈ es, e.Everywhere HasArms
  | _, _, .nil => by simp
  | _, _, .cons h hs => List.forall_mem_cons.mpr ⟨h.hasArms, Ended.hasArms hs⟩

end

theorem DerivesFeature.hasArms {f : Feature} {w : Words} (h : DerivesFeature f w) :
    ∀ e ∈ f.expr?, e.Everywhere HasArms := by
  cases h with
  | attr h => exact OptionalAfter.hasArms h
  | method _ h => simpa [Feature.expr?] using h.hasArms

theorem Ended.forall_mem {α : Type} {D : α → Words → Prop} {as : List α} {w : Words} (h : Ended D as w) :
    ∀ a ∈ as, ∃ v, D a v := by
  induction h with
  | nil => simp
  | cons h _ ih => exact List.forall_mem_cons.mpr ⟨⟨_, h⟩, ih⟩

end Grammar

/-- `A` holds of every expression that stands in the program. -/
def Program.Everywhere (A : Expr → Prop) (p : Program) : Prop :=
  ∀ c ∈ p.classes, ∀ f ∈ c.features, ∀ e ∈ f.expr?, e.Everywhere A

instance {A : Expr → Prop} [DecidablePred A] (p : Program) : Decidable (p.Everywhere A) :=
  inferInstanceAs (Decidable (∀ c ∈ p.classes, ∀ f ∈ c.features, ∀ e ∈ f.expr?, e.Everywhere A))

/-- No program that was read has a `case` without arms. -/
theorem parse_hasArms {source : String} {p : Program} (h : parse source = .ok p) :
    p.Everywhere Expr.HasArms := by
  obtain ⟨input, _, hprogram⟩ := parse_eq_ok.mp h
  cases Parser.program_reads hprogram with
  | mk hclasses _ =>
      intro c hc f hf
      obtain ⟨_, ⟨_, hfeatures⟩⟩ := hclasses.forall_mem c hc
      obtain ⟨_, hfeature⟩ := hfeatures.forall_mem f hf
      exact hfeature.hasArms

end CoolTyping
