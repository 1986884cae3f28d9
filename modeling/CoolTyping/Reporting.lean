import CoolTyping.SemanticError

/-!
# Computing with reports

Analyses do not stop at an error: they report it and go on with a value that makes do. `Reporting α`
is a value of type `α` with the reports made on the way to it, in order.
-/

namespace CoolTyping

structure Reporting (α : Type) where
  value : α
  reports : List Report

namespace Reporting

variable {α β : Type}

protected def pure (a : α) : Reporting α := ⟨a, []⟩

protected def bind (x : Reporting α) (f : α → Reporting β) : Reporting β :=
  let y := f x.value
  ⟨y.value, x.reports ++ y.reports⟩

instance : Monad Reporting where
  pure := Reporting.pure
  bind := Reporting.bind

/-- Makes all the given reports. -/
def tell (rs : List Report) : Reporting Unit := ⟨(), rs⟩

/-- Reports an error. -/
def report (error : SemanticError) (span : Span) : Reporting Unit := tell [⟨error, span⟩]

/-- Reports an error unless `ok` holds. -/
def reportUnless (ok : Bool) (error : SemanticError) (span : Span) : Reporting Unit :=
  if ok then return else report error span

def diagnostics (x : Reporting α) : Diagnostics := Diagnostics.ofReports x.reports

@[simp] theorem value_pure (a : α) : (pure a : Reporting α).value = a := rfl

@[simp] theorem reports_pure (a : α) : (pure a : Reporting α).reports = [] := rfl

@[simp] theorem value_bind (x : Reporting α) (f : α → Reporting β) :
    (x >>= f).value = (f x.value).value := rfl

@[simp] theorem reports_bind (x : Reporting α) (f : α → Reporting β) :
    (x >>= f).reports = x.reports ++ (f x.value).reports := rfl

@[simp] theorem value_map (f : α → β) (x : Reporting α) : (f <$> x).value = f x.value := rfl

@[simp] theorem reports_map (f : α → β) (x : Reporting α) : (f <$> x).reports = x.reports :=
  List.append_nil _

@[simp] theorem reports_tell (rs : List Report) : (tell rs).reports = rs := rfl

@[simp] theorem reports_report (error : SemanticError) (span : Span) :
    (report error span).reports = [⟨error, span⟩] := rfl

@[simp] theorem reports_reportUnless (ok : Bool) (error : SemanticError) (span : Span) :
    (reportUnless ok error span).reports = if ok then [] else [⟨error, span⟩] := by
  cases ok <;> rfl

theorem reportUnless_clean {ok : Bool} {error : SemanticError} {span : Span} :
    (reportUnless ok error span).reports = [] ↔ ok = true := by
  cases ok <;> simp

@[simp] theorem diagnostics_eq_nil {x : Reporting α} : x.diagnostics = [] ↔ x.reports = [] :=
  Diagnostics.ofReports_eq_nil

instance : LawfulMonad Reporting :=
  .mk' Reporting
    (fun x => by
      change (⟨x.value, x.reports ++ []⟩ : Reporting _) = x
      rw [List.append_nil])
    (fun _ _ => rfl)
    (fun x f g => congrArg (Reporting.mk (g (f x.value).value).value) (List.append_assoc _ _ _))

theorem eq_pure {x : Reporting α} (h : x.reports = []) : x = pure x.value := by
  obtain ⟨value, reports⟩ := x
  cases h
  rfl

/-! ## Lists -/

@[simp] theorem reports_forM (f : α → Reporting Unit) (as : List α) :
    (as.forM f).reports = as.flatMap fun a => (f a).reports := by
  induction as with
  | nil => rfl
  | cons a as ih =>
      change (f a).reports ++ (as.forM f).reports = _
      rw [ih, List.flatMap_cons]

@[simp] theorem value_mapM (f : α → Reporting β) (as : List α) :
    (as.mapM f).value = as.map fun a => (f a).value := by
  induction as with
  | nil => rfl
  | cons a as ih => simp only [List.mapM_cons, value_bind, value_pure, ih, List.map_cons]

@[simp] theorem reports_mapM (f : α → Reporting β) (as : List α) :
    (as.mapM f).reports = as.flatMap fun a => (f a).reports := by
  induction as with
  | nil => rfl
  | cons a as ih =>
      simp only [List.mapM_cons, reports_bind, reports_pure, ih, List.append_nil, List.flatMap_cons]

theorem foldlM_value {motive : β → Prop} {f : β → α → Reporting β} {as : List α} {b : β}
    (hb : motive b) (hstep : ∀ b, motive b → ∀ a ∈ as, motive (f b a).value) :
    motive (as.foldlM f b).value := by
  induction as generalizing b with
  | nil => exact hb
  | cons a as ih =>
      rw [List.foldlM_cons, value_bind]
      refine ih (hstep b hb a List.mem_cons_self) fun b hb a ha => ?_
      exact hstep b hb a (List.mem_cons_of_mem _ ha)

/-- In a fold without reports, no step makes a report. -/
theorem foldlM_clean {motive : β → Prop} {f : β → α → Reporting β} {as : List α} {b : β}
    (hb : motive b) (hstep : ∀ b, motive b → ∀ a ∈ as, motive (f b a).value)
    (h : (as.foldlM f b).reports = []) : ∀ a ∈ as, ∃ b, motive b ∧ (f b a).reports = [] := by
  induction as generalizing b with
  | nil => exact fun _ ha => absurd ha List.not_mem_nil
  | cons a as ih =>
      rw [List.foldlM_cons, reports_bind, List.append_eq_nil_iff] at h
      refine List.forall_mem_cons.mpr ⟨⟨b, hb, h.1⟩, ?_⟩
      refine ih (hstep b hb a List.mem_cons_self) (fun b hb a ha => ?_) h.2
      exact hstep b hb a (List.mem_cons_of_mem _ ha)

/-- The reports of a fold are those of its steps. -/
theorem mem_reports_foldlM {f : β → α → Reporting β} {as : List α} {b : β} {r : Report}
    (h : r ∈ (as.foldlM f b).reports) : ∃ b, ∃ a ∈ as, r ∈ (f b a).reports := by
  induction as generalizing b with
  | nil => cases h
  | cons a as ih =>
      rw [List.foldlM_cons, reports_bind, List.mem_append] at h
      rcases h with h | h
      · exact ⟨b, a, List.mem_cons_self, h⟩
      · obtain ⟨b, a, ha, h⟩ := ih h
        exact ⟨b, a, List.mem_cons_of_mem _ ha, h⟩

end Reporting

end CoolTyping
