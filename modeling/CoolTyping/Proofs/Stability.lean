import CoolTyping.Proofs.Elimination
import CoolTyping.Proofs.Rereading
import CoolTyping.Proofs.RoundTrip

/-!
# The printed result of inference

A program with its placeholders filled in is printed as a text that is read as the same program, apart from
its places. Its check reports the same errors in the same order: two reports have the same place in the one
text if and only if they have in the other, so the same ones are dropped as repeated.
-/

namespace CoolTyping

/-! ## Places as numbers of tokens -/

/-- The position of a number in a list, and other numbers for those not in it. -/
def rank (ns : List Nat) (n : Nat) : Nat := if n ∈ ns then 2 * ns.idxOf n else 2 * n + 1

theorem rank_injective (ns : List Nat) : Function.Injective (rank ns) := by
  intro m n h
  unfold rank at h
  split at h
  · rename_i hm
    split at h
    · exact (List.idxOf_inj hm).mp (by omega)
    · omega
  · split at h
    · omega
    · omega

theorem rank_getElem {ns : List Nat} (hns : ns.Nodup) {i : Nat} (hi : i < ns.length) :
    rank ns ns[i] = 2 * i := by
  rw [rank, if_pos (List.getElem_mem hi), hns.idxOf_getElem]

/-- A place by the numbers of the tokens that start and end there. -/
def tokenSpan (ts : List Token) (s : Span) : Span :=
  ⟨rank (ts.map (·.span.start)) s.start, rank (ts.map (·.span.stop)) s.stop⟩

theorem tokenSpan_injective (ts : List Token) : Function.Injective (tokenSpan ts) := by
  intro s t h
  obtain ⟨hstart, hstop⟩ := Span.mk.inj h
  obtain ⟨a, b⟩ := s
  obtain ⟨c, d⟩ := t
  rw [Span.mk.injEq]
  exact ⟨rank_injective _ hstart, rank_injective _ hstop⟩

theorem Laid.tokenSpan_eq {ts : List Token} (h : Laid ts) {i j : Nat} (hi : i < ts.length)
    (hj : j < ts.length) : tokenSpan ts ⟨startAt ts i, stopAt ts (j + 1)⟩ = ⟨2 * i, 2 * j⟩ := by
  have hstart := rank_getElem h.starts_nodup (i := i) (by simpa using hi)
  have hstop := rank_getElem h.stops_nodup (i := j) (by simpa using hj)
  rw [tokenSpan, startAt_of_lt hi, stopAt_succ_of_lt hj]
  simpa using And.intro hstart hstop

theorem Twins.Corresponds.tokenSpan_eq {T : Twins} {s t : Span} (h : T.Corresponds s t) :
    tokenSpan T.left s = tokenSpan T.right t := by
  obtain ⟨i, j, hlt, hle, rfl, rfl⟩ := h
  obtain ⟨j, rfl⟩ := Nat.exists_eq_succ_of_ne_zero (Nat.ne_zero_of_lt hlt)
  have hi : i < T.left.length := Nat.lt_of_lt_of_le hlt hle
  rw [T.left_laid.tokenSpan_eq hi hle,
    T.right_laid.tokenSpan_eq (T.length_eq ▸ hi) (T.length_eq ▸ hle)]

/-! ## Forgetting places -/

namespace Expr

mutual

theorem eraseSpans_eq : (e : Expr) → e.eraseSpans = e.mapSpans fun _ => default
  | assign _ _ value => by simp [eraseSpans, mapSpans, eraseSpans_eq value]
  | dispatch _ none _ args => by simp [eraseSpans, mapSpans, mapSpansOpt, eraseAll_eq_mapSpans args]
  | dispatch _ (some receiver) _ args => by
      simp [eraseSpans, mapSpans, mapSpansOpt, eraseSpans_eq receiver, eraseAll_eq_mapSpans args]
  | staticDispatch _ receiver _ _ args => by
      simp [eraseSpans, mapSpans, eraseSpans_eq receiver, eraseAll_eq_mapSpans args]
  | cond _ test thenBranch elseBranch => by
      simp [eraseSpans, mapSpans, eraseSpans_eq test, eraseSpans_eq thenBranch, eraseSpans_eq elseBranch]
  | loop _ test body => by simp [eraseSpans, mapSpans, eraseSpans_eq test, eraseSpans_eq body]
  | letIn _ bindings body => by
      simp [eraseSpans, mapSpans, eraseBindings_eq_mapSpans bindings, eraseSpans_eq body]
  | caseOf _ scrutinee arms => by
      simp [eraseSpans, mapSpans, eraseSpans_eq scrutinee, eraseArms_eq_mapSpans arms]
  | block _ body => by simp [eraseSpans, mapSpans, eraseAll_eq_mapSpans body]
  | binary _ _ left right => by simp [eraseSpans, mapSpans, eraseSpans_eq left, eraseSpans_eq right]
  | unary _ _ operand => by simp [eraseSpans, mapSpans, eraseSpans_eq operand]
  | paren _ inner => by simp [eraseSpans, mapSpans, eraseSpans_eq inner]
  | new .. | ident .. | int .. | str .. | bool .. => by simp [eraseSpans, mapSpans]

theorem eraseAll_eq_mapSpans : (es : List Expr) → eraseAll es = mapSpansAll (fun _ => default) es
  | [] => by simp [eraseAll, mapSpansAll]
  | e :: es => by simp [eraseAll, mapSpansAll, eraseSpans_eq e, eraseAll_eq_mapSpans es]

theorem eraseOption_eq_mapSpans : (init : Option Expr) →
    eraseOption init = mapSpansOpt (fun _ => default) init
  | none => by simp [eraseOption, mapSpansOpt]
  | some e => by simp [eraseOption, mapSpansOpt, eraseSpans_eq e]

theorem eraseBindings_eq_mapSpans : (bindings : List (Binder × Option Expr)) →
    eraseBindings bindings = mapSpansInits (fun _ => default) bindings
  | [] => by simp [eraseBindings, mapSpansInits]
  | (_, init) :: bindings => by
      simp [eraseBindings, mapSpansInits, Binder.eraseSpan, Binder.mapSpan, eraseOption_eq_mapSpans init,
        eraseBindings_eq_mapSpans bindings]

theorem eraseArms_eq_mapSpans : (arms : List (Binder × Expr)) →
    eraseArms arms = mapSpansArms (fun _ => default) arms
  | [] => by simp [eraseArms, mapSpansArms]
  | (_, body) :: arms => by
      simp [eraseArms, mapSpansArms, Binder.eraseSpan, Binder.mapSpan, eraseSpans_eq body,
        eraseArms_eq_mapSpans arms]

end

end Expr

theorem Feature.eraseSpans_eq (f : Feature) : f.eraseSpans = f.mapSpans fun _ => default := by
  cases f with
  | attr a =>
      simp [eraseSpans, mapSpans, AttrDecl.eraseSpans, AttrDecl.mapSpans, ← Expr.eraseOption_eq,
        Expr.eraseOption_eq_mapSpans]
  | method m =>
      simp [eraseSpans, mapSpans, MethodDecl.eraseSpans, MethodDecl.mapSpans, Param.eraseSpan,
        Param.mapSpan, Expr.eraseSpans_eq]

theorem Program.eraseSpans_eq (p : Program) : p.eraseSpans = p.mapSpans fun _ => default := by
  simp [eraseSpans, mapSpans, ClassDecl.eraseSpans, ClassDecl.mapSpans, Feature.eraseSpans_eq]

/-! ## Readable types -/

namespace Context

theorem readable_basic {t : TypeName} (h : t ∈ basic.concreteTypes) : Lexer.Readable (.typeName t) := by
  have hbasic : basic.concreteTypes = ["Object", "IO", "Int", "String", "Bool"] := by decide
  rw [hbasic] at h
  simp only [List.mem_cons, List.not_mem_nil, or_false] at h
  rcases h with rfl | rfl | rfl | rfl | rfl <;>
    exact ⟨_, _, rfl, by decide, List.all_eq_true.mp (by decide), by decide⟩

end Context

/-- The types that a class table offers can be written: the basic ones, and those that the text itself
declares. -/
theorem readable_concreteTypes {input : TokenStream} {p : Program} (h : Parser.program input = .ok p)
    (hread : ∀ t ∈ input.tokens, Lexer.Readable t.kind) (hclean : (typecheck p).diagnostics = []) :
    ∀ t ∈ (typecheck p).value.context.concreteTypes, Lexer.Readable (.typeName t) := by
  intro t ht
  have hwrites := Parser.program_writes (Q := fun t => Lexer.Readable (.typeName t))
    (fun t ht name hname => hname ▸ hread t ht) h
  obtain ⟨kind, hlabel, hkind⟩ := Context.mem_concreteTypes.mp ht
  have hlabels : (typecheck p).value.context.labels = _ := (ClassTable.build_wellFormed p).labels
  rw [hlabels] at hlabel
  rcases List.mem_append.mp hlabel with hlabel | hlabel
  · exact Context.readable_basic (Context.mem_concreteTypes.mpr ⟨kind, hlabel, hkind⟩)
  · obtain ⟨c, hc, hlabel⟩ := List.mem_map.mp hlabel
    cases hlabel
    exact (hwrites c (ClassTable.typecheck_classes hclean ▸ hc)).name

/-! ## Reading the filled program -/

theorem readable_of_copy {U : List TypeName} {w w' : List TokenKind}
    (h : List.Forall₂ (TokenKind.Copy fun t' t => t' = t ∨ t' ∈ U) w' w)
    (hw : ∀ kind ∈ w, Lexer.Readable kind) (hU : ∀ t ∈ U, Lexer.Readable (.typeName t)) :
    ∀ kind ∈ w', Lexer.Readable kind := by
  intro kind' hkind'
  obtain ⟨kind, hkind, hcopy⟩ := forall₂_mem_left h hkind'
  cases hcopy with
  | same => exact hw _ hkind
  | type ht =>
      rcases ht with rfl | ht
      · exact hw _ hkind
      · exact hU _ ht

section Filled

variable {source : String} {input : TokenStream} {p p' : Program} {U : List TypeName}
  (hlex : lex source = .ok input) (hp : Parser.program input = .ok p) (hfilled : p.Filled U p')
  (hU : ∀ t ∈ U, Lexer.Readable (.typeName t))
include hlex hp

/-- A text is its own twin, so what is read from it is a copy of itself. -/
theorem copy_self : ∃ S : Span → Span → Prop, p.Copy Eq S p := by
  have hlaid := lex_laid hlex
  let T : Twins := ⟨input.tokens, input.tokens, hlaid, hlaid, List.forall₂_same.mpr fun t _ => .same t.kind⟩
  obtain ⟨q, hq, hcopy⟩ := Twins.program_tracks (T := T) rfl rfl hp
  obtain rfl : p = q := Except.ok.inj (hp.symm.trans hq)
  exact ⟨T.Corresponds, (Printer.agree_program hcopy).2 rfl⟩

include hfilled hU

/-- A filling is printed as a text that differs from the one that was read in the names of types only. -/
theorem lex_filled : ∃ output, lex p'.format = .ok output ∧
    output.tokens.map (·.kind) = Printer.tokensOf (Printer.program p') ∧
    List.Forall₂ Token.Alike input.tokens output.tokens := by
  obtain ⟨S, hself⟩ := copy_self hlex hp
  have hcopy : p'.Copy (fun t' t => t' = t ∨ t' ∈ U) S p := by
    refine hfilled.copy (fun t t' x ht hx => ?_) hself
    subst hx
    exact ht.imp_left Eq.symm
  have hwords := (Printer.agree_program hcopy).1
  rw [Printer.program_words (Parser.program_reads hp)] at hwords
  have hread : ∀ kind ∈ input.tokens.map (·.kind), Lexer.Readable kind :=
    List.forall_mem_map.mpr (lex_readable hlex)
  obtain ⟨output, hlex', hkinds⟩ := lex_written
    ((Printer.program_spaced p').written (readable_of_copy hwords hread hU))
  rw [← hkinds, List.forall₂_map_left_iff, List.forall₂_map_right_iff] at hwords
  exact ⟨output, hlex', hkinds, hwords.flip.imp fun _ _ h => h.symm⟩

/-- A filling of a program that was read is read from its standard layout, as it is and at corresponding
places. -/
theorem parse_filled :
    ∃ (T : Twins) (q : Program), parse p'.format = .ok q ∧ p'.Copy Eq T.Corresponds q := by
  obtain ⟨output, hlex', hkinds, halike⟩ := lex_filled hlex hp hfilled hU
  let T : Twins := ⟨input.tokens, output.tokens, lex_laid hlex, lex_laid hlex', halike⟩
  have hright : output.tokens = T.right := rfl
  obtain ⟨q, hq, hpq⟩ := Twins.program_tracks (T := T) rfl hright hp
  have hcopy : p'.Copy AnyTypes T.Corresponds q := hfilled.copy (fun _ _ _ _ _ => trivial) hpq
  have hwords : Printer.tokensOf (Printer.program q) = output.tokens.map (·.kind) :=
    Printer.program_words (Parser.program_reads hq)
  exact ⟨T, q, parse_eq_ok.mpr ⟨output, hlex', hq⟩,
    (Printer.agree_program hcopy).2 (hkinds.symm.trans hwords.symm)⟩

end Filled

/-! ## Analyzing the filled program -/

theorem analyze_of_not_hasPlaceholders {p : Program} (h : p.hasPlaceholders = false) (options : Options) :
    analyze p options = .ok ⟨p, (typecheck p).diagnostics, none, []⟩ := by
  simp [analyze, h]

theorem analyzeSource_eq_ok {source : String} {options : Options} {a : Analysis} :
    analyzeSource source options = .ok a ↔ ∃ p, parse source = .ok p ∧ analyze p options = .ok a := by
  unfold analyzeSource
  cases parse source with
  | error errors => simp
  | ok p => cases h : analyze p options <;> simp [h]

theorem Program.Copy.tokenSpans_eq {T : Twins} {p q : Program} (h : p.Copy Eq T.Corresponds q) :
    p.mapSpans (tokenSpan T.left) = q.mapSpans (tokenSpan T.right) :=
  Program.Copy.mapSpans_eq (S := T.Corresponds) (fun _ _ hst => hst.tokenSpan_eq) h

/-- The check of a copy reports the same errors. -/
theorem Program.Copy.errors_eq {T : Twins} {p q : Program} (h : p.Copy Eq T.Corresponds q) :
    (typecheck q).diagnostics.map (·.error) = (typecheck p).diagnostics.map (·.error) := by
  have hp := diagnostics_mapSpans _ (tokenSpan_injective T.left) p
  have hq := diagnostics_mapSpans _ (tokenSpan_injective T.right) q
  have herror (σ : Span → Span) (rs : List Report) :
      (rs.map (Report.mapSpan σ)).map (·.error) = rs.map (·.error) := by
    rw [List.map_map]
    rfl
  rw [h.tokenSpans_eq, hq] at hp
  rw [← herror (tokenSpan T.right), hp, herror]

/-- The result of inference is stable: its standard layout can be analyzed, is read as the same program
apart from places, leaves nothing to infer, and has the errors that were found in the result, in their
order. -/
theorem analyze_inferred_stable {source : String} {options : Options} {a : Analysis}
    (ha : analyzeSource source options = .ok a) (hi : a.inferred.isSome = true) (options' : Options) :
    ∃ a', analyzeSource a.program.format options' = .ok a' ∧ a'.inferred = none ∧
      a'.program.eraseSpans = a.program.eraseSpans ∧
      a'.errors.map (·.error) = a.finalErrors.map (·.error) := by
  obtain ⟨p, hp, ha⟩ := analyzeSource_eq_ok.mp ha
  obtain ⟨i, hi⟩ := Option.isSome_iff_exists.mp hi
  obtain ⟨input, hlex, hprogram⟩ := parse_eq_ok.mp hp
  obtain ⟨hclean, -, rfl⟩ := analyze_inferred ha hi
  have hfilled := filled_inferred hp ha hi
  have hnone := hasPlaceholders_inferred hp ha hi
  obtain ⟨T, q, hq, hcopy⟩ := parse_filled hlex hprogram hfilled
    (readable_concreteTypes hprogram (lex_readable hlex) hclean)
  have herase : q.eraseSpans = i.program.eraseSpans := by
    rw [Program.eraseSpans_eq, Program.eraseSpans_eq]
    exact (hcopy.mapSpans_eq fun _ _ _ => rfl).symm
  have hplaceholders : q.hasPlaceholders = false := by
    rw [← Program.hasPlaceholders_mapSpans (tokenSpan T.right), ← hcopy.tokenSpans_eq,
      Program.hasPlaceholders_mapSpans, hnone]
  exact ⟨_, analyzeSource_eq_ok.mpr ⟨q, hq, analyze_of_not_hasPlaceholders hplaceholders options'⟩, rfl,
    herase, hcopy.errors_eq⟩

/-- The text of a class with an attribute that turns out to hold a string where two methods promise a
number. -/
def mismatchText : String :=
  "class A\x7bx:AUTO_TYPE<-\"s\";f():Int\x7bx\x7d;g(y:AUTO_TYPE):Int\x7bif y<1 then x else x fi\x7d;\x7d;"

def mismatch : Program :=
  ⟨[⟨0, "A", none, [
    .attr ⟨"x", TypeName.auto, some (.str ⟨21, 24⟩ "s"), ⟨8, 24⟩⟩,
    .method ⟨1, "f", [], TypeName.int, .ident ⟨33, 34⟩ "x", ⟨25, 35⟩⟩,
    .method ⟨2, "g", [⟨"y", TypeName.auto, ⟨38, 49⟩⟩], TypeName.int,
      .cond ⟨55, 78⟩ (.binary ⟨58, 61⟩ .lt (.ident ⟨58, 59⟩ "y") (.int ⟨60, 61⟩ 1)) (.ident ⟨67, 68⟩ "x")
        (.ident ⟨74, 75⟩ "x"), ⟨36, 79⟩⟩], ⟨0, 82⟩⟩]⟩

theorem mismatch_stable : ∃ a a', analyzeSource mismatchText ⟨true, none⟩ = .ok a ∧
    a.inferred.isSome = true ∧
    a.finalErrors.map (·.error) =
      [.incompatibleTypes TypeName.string TypeName.int, .incompatibleTypes TypeName.string TypeName.int] ∧
    analyzeSource a.program.format ⟨true, none⟩ = .ok a' ∧ a'.inferred = none ∧
    a'.program.eraseSpans = a.program.eraseSpans ∧
    a'.errors.map (·.error) = a.finalErrors.map (·.error) := by
  have hp : parse mismatchText = .ok mismatch := by cbv
  obtain ⟨a, ha, hruns⟩ := exists_analysis
    (P := fun a => a.inferred.isSome && a.finalErrors.map (·.error) ==
      [.incompatibleTypes TypeName.string TypeName.int, .incompatibleTypes TypeName.string TypeName.int])
    (p := mismatch) (o := ⟨true, none⟩) (by decide +kernel)
  obtain ⟨hsome, herrors⟩ := Bool.and_eq_true_iff.mp hruns
  have ha := analyzeSource_eq_ok.mpr ⟨mismatch, hp, ha⟩
  obtain ⟨a', hstable⟩ := analyze_inferred_stable ha hsome ⟨true, none⟩
  exact ⟨a, a', ha, hsome, beq_iff_eq.mp herrors, hstable⟩

end CoolTyping
