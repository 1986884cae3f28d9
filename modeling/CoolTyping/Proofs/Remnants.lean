import CoolTyping.Proofs.Stability

/-!
# Placeholders that stay

In the words of a program a type stands behind a word that declares it, such as a colon, or behind one of `new`
and `@`, where an expression names it. Inference fills in placeholders of the first kind and does not look at
the others. The check accepts these, so they are printed as they were written.
-/

namespace CoolTyping

open Grammar (Words)

/-! ## Types among the words -/

namespace TokenKind

def isType : TokenKind → Bool
  | typeName _ => true
  | _ => false

/-- What stands behind the word is a type that an expression names: the class of a new object, or the one
whose method is called. -/
def namesType : TokenKind → Bool
  | keyword .newKw | symbol .atSign => true
  | _ => false

variable {kind : TokenKind}

theorem ne_typeName (h : kind.isType = false) (t : TypeName) : kind ≠ .typeName t := by
  rintro rfl
  cases h

theorem isType_of_namesType (h : kind.namesType = true) : kind.isType = false := by
  cases kind with
  | typeName t => cases h
  | _ => rfl

end TokenKind

/-- `w'` is `w` with the declared types filled. Types that are named are the same. -/
inductive FilledWords (U : List TypeName) : Words → Words → Prop
  | nil : FilledWords U [] []
  | word {kind w w'} : kind.isType = false → FilledWords U w w' → FilledWords U (kind :: w) (kind :: w')
  | named {kind t w w'} : kind.namesType = true → FilledWords U w w' →
      FilledWords U (kind :: .typeName t :: w) (kind :: .typeName t :: w')
  | declared {kind t t' w w'} : kind.isType = false → kind.namesType = false → TypeName.Filled U t t' →
      FilledWords U w w' → FilledWords U (kind :: .typeName t :: w) (kind :: .typeName t' :: w')

namespace FilledWords

variable {U : List TypeName} {u u' w w' : Words}

theorem append (hu : FilledWords U u u') (hw : FilledWords U w w') :
    FilledWords U (u ++ w) (u' ++ w') := by
  induction hu with
  | nil => exact hw
  | word hkind _ ih => exact .word hkind ih
  | named hkind _ ih => exact .named hkind ih
  | declared hkind hnames ht _ ih => exact .declared hkind hnames ht ih

theorem flatMap {α : Type} {R : α → α → Prop} {f : α → List Printer.Piece} {as bs : List α}
    (h : List.Forall₂ R as bs)
    (hf : ∀ a b, R a b → FilledWords U (Printer.tokensOf (f a)) (Printer.tokensOf (f b))) :
    FilledWords U (Printer.tokensOf (as.flatMap f)) (Printer.tokensOf (bs.flatMap f)) := by
  induction h with
  | nil => exact .nil
  | @cons a b as bs hab _ ih =>
      rw [List.flatMap_cons, List.flatMap_cons, Printer.tokensOf_append, Printer.tokensOf_append]
      exact (hf a b hab).append ih

end FilledWords

/-! ## The words of a filling -/

namespace Printer

open CoolTyping.Expr (Filled FilledOpt FilledAll FilledInits FilledArms)

variable {U : List TypeName}

/-- `x : T` -/
theorem declared_filled {x : String} {t t' : TypeName} (h : TypeName.Filled U t t') :
    FilledWords U (tokensOf (declared x t)) (tokensOf (declared x t')) := .word rfl (.declared rfl rfl h .nil)

mutual

theorem expr_filled : ∀ {e e'}, Filled U e e' → ∀ n, FilledWords U (tokensOf (expr n e)) (tokensOf (expr n e'))
  | _, _, .assign h, n => by
      simp only [expr]
      exact .word rfl (.word rfl (expr_filled h n))
  | _, _, .dispatch .none hargs, n => by
      simp only [expr, tokensOf_append]
      exact .append (.word rfl (.word rfl (arguments_filled hargs n))) (.word rfl .nil)
  | _, _, .dispatch (.some h) hargs, n => by
      simp only [expr, tokensOf_append]
      exact .append (.append (expr_filled h n)
        (.word rfl (.word rfl (.word rfl (arguments_filled hargs n))))) (.word rfl .nil)
  | _, _, .staticDispatch h hargs, n => by
      simp only [expr, tokensOf_append]
      exact .append (.append (expr_filled h n)
        (.named rfl (.word rfl (.word rfl (.word rfl (arguments_filled hargs n)))))) (.word rfl .nil)
  | _, _, .cond ha hb hc, n => by
      simp only [expr, tokensOf_append]
      exact .append (.append (.append (.word rfl (expr_filled ha n)) (.word rfl (expr_filled hb n)))
        (.word rfl (expr_filled hc n))) (.word rfl .nil)
  | _, _, .loop ha hb, n => by
      simp only [expr, tokensOf_append]
      exact .append (.append (.word rfl (expr_filled ha n)) (.word rfl (expr_filled hb n))) (.word rfl .nil)
  | _, _, .letIn hbindings h, n => by
      simp only [expr, tokensOf_append]
      exact .append (.word rfl (bindingList_filled hbindings n)) (.word rfl (expr_filled h n))
  | _, _, .caseOf h harms, n => by
      simp only [expr, tokensOf_append]
      exact .append (.append (.word rfl (expr_filled h n)) (.word rfl (armList_filled harms n)))
        (.word rfl .nil)
  | _, _, .block h, n => by
      simp only [expr, tokensOf_append]
      exact .append (.word rfl (statements_filled h n)) (.word rfl .nil)
  | _, _, .binary hl hr, n => by
      simp only [expr, tokensOf_append]
      exact .append (expr_filled hl n) (.word rfl (expr_filled hr n))
  | _, _, @Filled.unary _ _ op _ _ h, n => by
      simp only [expr, tokensOf_append]
      cases op with
      | not | negate | isvoid => exact .append (.word rfl .nil) (expr_filled h n)
  | _, _, .new, n => .named rfl .nil
  | _, _, .paren h, n => by
      simp only [expr, tokensOf_append]
      exact .append (.word rfl (expr_filled h n)) (.word rfl .nil)
  | _, _, .int, n => by
      unfold expr number
      split
      · exact .word rfl (.word rfl .nil)
      · exact .word rfl .nil
  | _, _, .ident, n | _, _, .str, n | _, _, .bool, n => .word rfl .nil

theorem arguments_filled : ∀ {es es'}, FilledAll U es es' → ∀ n,
    FilledWords U (tokensOf (arguments n es)) (tokensOf (arguments n es'))
  | _, _, .nil, _ => .nil
  | _, _, .cons h hs, n => by
      simp only [arguments, tokensOf_append]
      exact .append (expr_filled h n) (moreArguments_filled hs n)

theorem moreArguments_filled : ∀ {es es'}, FilledAll U es es' → ∀ n,
    FilledWords U (tokensOf (moreArguments n es)) (tokensOf (moreArguments n es'))
  | _, _, .nil, _ => .nil
  | _, _, .cons h hs, n => by
      simp only [moreArguments, tokensOf_append]
      exact .append (.word rfl (expr_filled h n)) (moreArguments_filled hs n)

theorem initial_filled : ∀ {o o'}, FilledOpt U o o' → ∀ n,
    FilledWords U (tokensOf (initial n o)) (tokensOf (initial n o'))
  | _, _, .none, _ => .nil
  | _, _, .some h, n => .word rfl (expr_filled h n)

theorem bindingList_filled : ∀ {bs bs'}, FilledInits U bs bs' → ∀ n,
    FilledWords U (tokensOf (bindingList n bs)) (tokensOf (bindingList n bs'))
  | _, _, .nil, _ => .nil
  | _, _, .cons ht h hs, n => by
      simp only [bindingList, tokensOf_append]
      exact .append (.append (declared_filled ht) (initial_filled h n)) (moreBindings_filled hs n)

theorem moreBindings_filled : ∀ {bs bs'}, FilledInits U bs bs' → ∀ n,
    FilledWords U (tokensOf (moreBindings n bs)) (tokensOf (moreBindings n bs'))
  | _, _, .nil, _ => .nil
  | _, _, .cons ht h hs, n => by
      simp only [moreBindings, tokensOf_append]
      exact .append (.append (.word rfl (declared_filled ht)) (initial_filled h n)) (moreBindings_filled hs n)

theorem armList_filled : ∀ {arms arms'}, FilledArms U arms arms' → ∀ n,
    FilledWords U (tokensOf (armList n arms)) (tokensOf (armList n arms'))
  | _, _, .nil, _ => .nil
  | _, _, .cons ht h hs, n => by
      simp only [armList, tokensOf_append]
      exact .append (.append (declared_filled ht) (.word rfl (expr_filled h (n + 2))))
        (.word rfl (armList_filled hs n))

theorem statements_filled : ∀ {es es'}, FilledAll U es es' → ∀ n,
    FilledWords U (tokensOf (statements n es)) (tokensOf (statements n es'))
  | _, _, .nil, _ => .nil
  | _, _, .cons h hs, n => by
      simp only [statements, tokensOf_append]
      exact .append (expr_filled h (n + 2)) (.word rfl (statements_filled hs n))

end

theorem params_filled {ps ps' : List Param} (h : List.Forall₂ (Param.Filled U) ps ps') :
    FilledWords U (tokensOf (params ps)) (tokensOf (params ps')) := by
  have hparam : ∀ p p', Param.Filled U p p' →
      FilledWords U (tokensOf (declared p.name p.ty)) (tokensOf (declared p'.name p'.ty)) := by
    intro p p' hp
    rw [hp.name]
    exact declared_filled hp.ty
  cases h with
  | nil => exact .nil
  | cons hp hps =>
      simp only [params, tokensOf_append]
      exact .append (hparam _ _ hp) (.flatMap hps fun p p' hp => .word rfl (hparam p p' hp))

theorem feature_filled {f f' : Feature} (h : f.Filled U f') :
    FilledWords U (tokensOf (feature f)) (tokensOf (feature f')) := by
  cases h with
  | attr h =>
      simp only [feature, attrDecl, tokensOf_append, h.name]
      exact .append (.append (declared_filled h.ty) (initial_filled h.init 2)) (.word rfl .nil)
  | method h =>
      simp only [feature, methodDecl, tokensOf_append, h.name]
      exact .append (.append (.append (.word rfl (.word rfl (params_filled h.params)))
        (.word rfl (.declared rfl rfl h.ret (.word rfl .nil)))) (expr_filled h.body 4))
        (.word rfl (.word rfl .nil))

theorem classDecl_filled {c c' : ClassDecl} (h : c.Filled U c') (hname : c.name ≠ TypeName.auto)
    (hparent : ∀ t ∈ c.parent, t ≠ TypeName.auto) :
    FilledWords U (tokensOf (classDecl c)) (tokensOf (classDecl c')) := by
  have hfeatures := FilledWords.flatMap h.features fun _ _ => feature_filled
  have hlinks : FilledWords U
      (tokensOf (c.parent.elim [] fun parent => [sp, word .inheritsKw, sp, type parent]))
      (tokensOf (c.parent.elim [] fun parent => [sp, word .inheritsKw, sp, type parent])) := by
    cases hp : c.parent with
    | none => exact .nil
    | some t => exact .declared rfl rfl (.kept (hparent t hp)) .nil
  simp only [classDecl, tokensOf_append, ← h.name, ← h.parent]
  exact .append (.append (.append (.declared rfl rfl (.kept hname) hlinks) (.word rfl .nil)) hfeatures)
    (.word rfl (.word rfl .nil))

theorem program_filled {p p' : Program} (h : p.Filled U p')
    (hproper : ∀ c ∈ p.classes, c.name ≠ TypeName.auto ∧ ∀ t ∈ c.parent, t ≠ TypeName.auto) :
    FilledWords U (tokensOf (program p)) (tokensOf (program p')) := by
  obtain ⟨cs⟩ := p
  obtain ⟨cs'⟩ := p'
  have hcs := (List.forall₂_and_left cs cs').mpr ⟨hproper, h⟩
  cases hcs with
  | nil => exact .nil
  | cons hc hcs =>
      simp only [program, tokensOf_append]
      exact .append (classDecl_filled hc.2 hc.1.1 hc.1.2)
        (.flatMap hcs fun c c' hc => classDecl_filled hc.2 hc.1.1 hc.1.2)

end Printer

theorem ClassTable.Fitting.proper {cs : List ClassDecl} (h : Fitting cs) {c : ClassDecl} (hc : c ∈ cs) :
    c.name ≠ TypeName.auto ∧ ∀ t ∈ c.parent, t ≠ TypeName.auto := by
  constructor
  · intro hname
    exact h.names.not_basic hc (hname ▸ by decide)
  · rintro t ht rfl
    refine h.parentName_ne hc (t := TypeName.auto) (by decide) (by decide) ?_
    rw [ClassDecl.parentName, Option.mem_def.mp ht]
    rfl

/-! ## Placeholders among the words -/

def TokenStream.words (input : TokenStream) : Words := input.tokens.map (·.kind)

/-- The word numbered `i` is a placeholder. -/
def PlaceholderAt (w : Words) (i : Nat) : Prop := w[i]? = some (.typeName TypeName.auto)

/-- The word numbered `i` stands behind `new` or `@`. -/
def NamedAt (w : Words) : Nat → Prop
  | 0 => False
  | i + 1 => ∃ kind ∈ w[i]?, kind.namesType = true

section Placeholders

variable {U : List TypeName} {kind : TokenKind} {t : TypeName} {w w' : Words} {i : Nat}

@[simp] theorem placeholderAt_nil : ¬ PlaceholderAt [] i := by simp [PlaceholderAt]

@[simp] theorem placeholderAt_zero : PlaceholderAt (kind :: w) 0 ↔ kind = .typeName TypeName.auto := by
  simp [PlaceholderAt]

@[simp] theorem placeholderAt_succ : PlaceholderAt (kind :: w) (i + 1) ↔ PlaceholderAt w i := Iff.rfl

@[simp] theorem not_namedAt_zero : ¬ NamedAt w 0 := id

@[simp] theorem namedAt_one : NamedAt (kind :: w) 1 ↔ kind.namesType = true := by simp [NamedAt]

@[simp] theorem namedAt_succ : NamedAt (kind :: w) (i + 2) ↔ NamedAt w (i + 1) := Iff.rfl

/-- Every type stands behind a word that is none. -/
theorem FilledWords.not_placeholderAt_zero (h : FilledWords U w w') : ¬ PlaceholderAt w 0 := by
  cases h with
  | nil => exact placeholderAt_nil
  | word hkind | declared hkind => exact TokenKind.ne_typeName hkind _ ∘ placeholderAt_zero.mp
  | named hkind => exact TokenKind.ne_typeName (TokenKind.isType_of_namesType hkind) _ ∘ placeholderAt_zero.mp

/-- The placeholders that a filling keeps are those that are named. -/
theorem FilledWords.placeholderAt_iff (h : FilledWords U w w') (hU : TypeName.auto ∉ U) (i : Nat) :
    PlaceholderAt w' i ↔ PlaceholderAt w i ∧ NamedAt w i := by
  -- what holds of the words behind `kind` does so in their place, since the first of them is no placeholder
  have shift : ∀ {kind w w'}, FilledWords U w w' → (∀ i, PlaceholderAt w' i ↔ PlaceholderAt w i ∧ NamedAt w i) →
      ∀ i, PlaceholderAt w' i ↔ PlaceholderAt w i ∧ NamedAt (kind :: w) (i + 1) := by
    intro kind w w' hw ih i
    cases i with
    | zero => simpa [hw.not_placeholderAt_zero] using ih 0
    | succ i => exact ih (i + 1)
  induction h generalizing i with
  | nil => simp
  | word hkind hw ih =>
      cases i with
      | zero => simp [TokenKind.ne_typeName hkind]
      | succ i => exact shift hw ih i
  | named hkind hw ih =>
      match i with
      | 0 => simp [TokenKind.ne_typeName (TokenKind.isType_of_namesType hkind)]
      | 1 => simp [hkind]
      | i + 2 => exact shift hw ih i
  | declared hkind hnames ht hw ih =>
      match i with
      | 0 => simp [TokenKind.ne_typeName hkind]
      | 1 => simp [hnames, ht.ne_auto hU]
      | i + 2 => exact shift hw ih i

end Placeholders

/-! ## Types of copies -/

section Writes

variable {Q : TypeName → Prop} {σ : Span → Span}

theorem Expr.ownTypes_mapSpans (e : Expr) : (e.mapSpans σ).ownTypes = e.ownTypes := by
  cases e with
  | letIn span bindings body => exact map_ty_ownBinders_mapSpans σ (.letIn span bindings body)
  | caseOf span scrutinee arms => exact map_ty_ownBinders_mapSpans σ (.caseOf span scrutinee arms)
  | _ => simp [mapSpans, ownTypes, ownBinders]

theorem Expr.writes_mapSpans (e : Expr) : (e.mapSpans σ).Writes Q ↔ e.Writes Q := by
  simp only [Writes, walk_mapSpans, List.forall_mem_map, ownTypes_mapSpans]

theorem Feature.writes_mapSpans (f : Feature) : (f.mapSpans σ).Writes Q ↔ f.Writes Q := by
  cases f with
  | attr a =>
      cases hinit : a.init <;>
        simp [mapSpans, AttrDecl.mapSpans, Writes, hinit, Expr.mapSpansOpt, Expr.writes_mapSpans]
  | method m => simp [mapSpans, MethodDecl.mapSpans, Writes, Param.mapSpan, Expr.writes_mapSpans]

theorem ClassDecl.writes_mapSpans (c : ClassDecl) : (c.mapSpans σ).Writes Q ↔ c.Writes Q := by
  have hfeatures : (∀ f ∈ (c.mapSpans σ).features, f.Writes Q) ↔ ∀ f ∈ c.features, f.Writes Q := by
    simp only [mapSpans, List.forall_mem_map, Feature.writes_mapSpans]
  exact ⟨fun h => ⟨h.name, h.parent, hfeatures.mp h.features⟩,
    fun h => ⟨h.name, h.parent, hfeatures.mpr h.features⟩⟩

/-- A copy with the same types writes the same types. -/
theorem Program.Copy.writes {S : Span → Span → Prop} {p q : Program} (h : p.Copy Eq S q)
    (hq : ∀ c ∈ q.classes, c.Writes Q) : ∀ c ∈ p.classes, c.Writes Q := by
  have hsame : p.mapSpans (fun _ => default) = q.mapSpans fun _ => default := h.mapSpans_eq fun _ _ _ => rfl
  intro c hc
  have hmem : c.mapSpans (fun _ => default) ∈ (q.mapSpans fun _ => default).classes :=
    hsame ▸ List.mem_map_of_mem hc
  obtain ⟨d, hd, heq⟩ := List.mem_map.mp hmem
  exact c.writes_mapSpans.mp (heq ▸ d.writes_mapSpans.mpr (hq d hd))

end Writes

/-! ## The words of the result -/

section Inferred

variable {source : String} {p : Program} {options : Options} {a : Analysis} {i : Inference}
  (hp : parse source = .ok p) (ha : analyze p options = .ok a) (hi : a.inferred = some i)
include hp ha hi

/-- The words of the result of inference are those that were read, with the declared types filled. -/
theorem lex_inferred : ∃ input output, lex source = .ok input ∧ lex a.program.format = .ok output ∧
    output.words = Printer.tokensOf (Printer.program a.program) ∧
    FilledWords (typecheck p).value.context.concreteTypes input.words output.words := by
  obtain ⟨input, hlex, hprogram⟩ := parse_eq_ok.mp hp
  have hclean := (analyze_inferred ha hi).1
  have hfilled := filled_inferred hp ha hi
  obtain ⟨hfit, -⟩ := ClassTable.build_fitting (ClassTable.reports_of_typecheck hclean).1
  obtain ⟨output, hlex', hkinds, -⟩ := lex_filled hlex hprogram hfilled
    (readable_concreteTypes hprogram (lex_readable hlex) hclean)
  have hinput : input.words = Printer.tokensOf (Printer.program p) :=
    (Printer.program_words (Parser.program_reads hprogram)).symm
  have houtput : output.words = Printer.tokensOf (Printer.program a.program) := hkinds
  refine ⟨input, output, hlex, hlex', houtput, ?_⟩
  rw [hinput, houtput]
  exact Printer.program_filled hfilled fun c hc => hfit.proper hc

/-- All types that the result of inference writes are among its words. -/
theorem writes_inferred {Q : TypeName → Prop} {output : TokenStream} (hlex : lex a.program.format = .ok output)
    (hQ : ∀ t, .typeName t ∈ output.words → Q t) : ∀ c ∈ a.program.classes, c.Writes Q := by
  obtain ⟨input, hlex', hprogram⟩ := parse_eq_ok.mp hp
  obtain ⟨T, q, hq, hcopy⟩ := parse_filled hlex' hprogram (filled_inferred hp ha hi)
    (readable_concreteTypes hprogram (lex_readable hlex') (analyze_inferred ha hi).1)
  obtain ⟨output', hlex', hprogram⟩ := parse_eq_ok.mp hq
  obtain rfl : output = output' := Except.ok.inj (hlex.symm.trans hlex')
  refine hcopy.writes (Parser.program_writes (fun t ht name hname => ?_) hprogram)
  exact hQ name (List.mem_map.mpr ⟨t, ht, hname⟩)

end Inferred

/-- The result of inference is printed with the placeholders that stand behind `new` and `@` in the text that
was read, and with no others. If the text has none there, the second check is one of a program without
placeholders. -/
theorem analyze_inferred_placeholders {source : String} {options : Options} {a : Analysis}
    (ha : analyzeSource source options = .ok a) (hi : a.inferred.isSome = true) :
    ∃ input output, lex source = .ok input ∧ lex a.program.format = .ok output ∧
      (∀ i, PlaceholderAt output.words i ↔ PlaceholderAt input.words i ∧ NamedAt input.words i) ∧
      ((∀ i, PlaceholderAt input.words i → ¬ NamedAt input.words i) →
        ∀ c ∈ a.program.classes, c.Writes (· ≠ TypeName.auto)) := by
  obtain ⟨p, hp, ha⟩ := analyzeSource_eq_ok.mp ha
  obtain ⟨i, hi⟩ := Option.isSome_iff_exists.mp hi
  obtain ⟨input, output, hlex, hlex', -, hwords⟩ := lex_inferred hp ha hi
  have hregular := ClassTable.typecheck_regular hp (analyze_inferred ha hi).1
  have hiff := hwords.placeholderAt_iff fun hauto => (hregular.proper hauto).1 rfl
  refine ⟨input, output, hlex, hlex', hiff, fun hnone => writes_inferred hp ha hi hlex' ?_⟩
  rintro t ht rfl
  obtain ⟨i, hauto⟩ := List.getElem?_of_mem ht
  obtain ⟨hinput, hnamed⟩ := (hiff i).mp hauto
  exact hnone i hinput hnamed

/-- The text of a class with a placeholder that is declared, one behind `new` and one behind `@`. -/
def leftoverText : String :=
  "class A\x7bx:AUTO_TYPE<-1;f():Object\x7bnew AUTO_TYPE\x7d;g():Object\x7bx@AUTO_TYPE.copy()\x7d;\x7d;"

def leftover : Program :=
  ⟨[⟨0, "A", none, [
    .attr ⟨"x", TypeName.auto, some (.int ⟨21, 22⟩ 1), ⟨8, 22⟩⟩,
    .method ⟨1, "f", [], TypeName.object, .new ⟨34, 47⟩ TypeName.auto, ⟨23, 48⟩⟩,
    .method ⟨2, "g", [], TypeName.object,
      .staticDispatch ⟨60, 78⟩ (.ident ⟨60, 61⟩ "x") TypeName.auto "copy" [], ⟨49, 79⟩⟩], ⟨0, 82⟩⟩]⟩

theorem parse_leftoverText : parse leftoverText = .ok leftover := by cbv

theorem leftover_analyzed : ∃ a, analyze leftover ⟨true, none⟩ = .ok a ∧ a.inferred.isSome = true ∧
    a.isClean = true ∧ (Printer.tokensOf (Printer.program a.program)).count (.typeName TypeName.auto) = 2 := by
  obtain ⟨a, ha, hruns⟩ := exists_analysis
    (P := fun a => a.inferred.isSome && a.isClean &&
      (Printer.tokensOf (Printer.program a.program)).count (.typeName TypeName.auto) == 2)
    (p := leftover) (o := ⟨true, none⟩) (by decide +kernel)
  simp only [Bool.and_eq_true, beq_iff_eq, and_assoc] at hruns
  exact ⟨a, ha, hruns⟩

theorem leftover_placeholders : ∃ a, analyzeSource leftoverText ⟨true, none⟩ = .ok a ∧
    a.inferred.isSome = true ∧
    ∃ input output, lex leftoverText = .ok input ∧ lex a.program.format = .ok output ∧
      (∀ i, PlaceholderAt output.words i ↔ PlaceholderAt input.words i ∧ NamedAt input.words i) ∧
      ((∀ i, PlaceholderAt input.words i → ¬ NamedAt input.words i) →
        ∀ c ∈ a.program.classes, c.Writes (· ≠ TypeName.auto)) := by
  obtain ⟨a, ha, hsome, -⟩ := leftover_analyzed
  have ha := analyzeSource_eq_ok.mpr ⟨leftover, parse_leftoverText, ha⟩
  exact ⟨a, ha, hsome, analyze_inferred_placeholders ha hsome⟩

/-- Inference succeeds without an error, and still two placeholders are printed. -/
theorem leftover_printed : ∃ a output, analyzeSource leftoverText ⟨true, none⟩ = .ok a ∧
    a.inferred.isSome = true ∧ a.isClean = true ∧ lex a.program.format = .ok output ∧
    output.words.count (.typeName TypeName.auto) = 2 := by
  obtain ⟨a, ha, hsome, hclean, hcount⟩ := leftover_analyzed
  obtain ⟨i, hi⟩ := Option.isSome_iff_exists.mp hsome
  obtain ⟨-, output, -, hlex, hwords, -⟩ := lex_inferred parse_leftoverText ha hi
  exact ⟨a, output, analyzeSource_eq_ok.mpr ⟨leftover, parse_leftoverText, ha⟩, hsome, hclean, hlex,
    hwords ▸ hcount⟩

end CoolTyping
