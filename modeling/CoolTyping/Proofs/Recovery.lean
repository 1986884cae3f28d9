import CoolTyping.Proofs.Cursors
import CoolTyping.Proofs.Progress
import Mathlib.Data.List.TakeWhile

/-!
# Recovery from broken classes

Classes are attempted one behind the other, each where the last one ended or, if it could not be read, at
the next word `class` behind the token that did not fit. The run is described by the states in which a class
is attempted. Each of them has fewer tokens in front of it than the one before, so there is an end; each
attempt gives a class or one failure; and each failure lies behind the one before. With a cursor, the same
attempts are made, and the cursor goes to the end of the input and no further.
-/

namespace CoolTyping

/-- The place of the token with number `i`, or the end of the text behind the last token. -/
def TokenStream.spanAt (input : TokenStream) (i : Nat) : Span :=
  (input.tokens[i]?).elim ⟨input.stop, input.stop⟩ (·.span)

namespace Parser

/-! ## Passing over tokens -/

/-- What follows the first of the tokens `rest`, from the next word `class` on. -/
def fromNextClass (rest : List Token) : List Token :=
  rest.tail.dropWhile fun t => t.kind != .keyword .classKw

theorem skipToClassN_eq {n : Nat} {s : State} (hn : s.rest.length ≤ n) : ∃ s',
    (skipToClassN n : Parser Unit) s = .ok ((), s') ∧
      s'.rest = s.rest.dropWhile fun t => t.kind != .keyword .classKw := by
  induction n generalizing s with
  | zero => exact ⟨s, rfl, by rw [List.length_eq_zero_iff.mp (Nat.le_zero.mp hn)]; rfl⟩
  | succ n ih =>
      rw [skipToClassN, next?_bind]
      cases hrest : s.rest with
      | nil => exact ⟨s, rfl, hrest⟩
      | cons t rest =>
          dsimp only [List.head?_cons]
          by_cases ht : t.kind = .keyword .classKw
          · rw [if_pos ht]
            exact ⟨s, rfl, by simp [hrest, ht]⟩
          · rw [if_neg ht, advance_bind hrest]
            have hlen : rest.length ≤ n := by simpa [hrest] using hn
            obtain ⟨s', hs', hrest'⟩ := ih (s := s.advance t rest) hlen
            exact ⟨s', hs', by simpa [ht, State.advance] using hrest'⟩

theorem resync_eq (s : State) :
    ∃ s', (resync : Parser Unit) s = .ok ((), s') ∧ s'.rest = fromNextClass s.rest := by
  rw [resync, next?_bind]
  cases hrest : s.rest with
  | nil => exact ⟨s, rfl, hrest⟩
  | cons t rest =>
      dsimp only [List.head?_cons]
      rw [advance_bind hrest]
      exact skipToClassN_eq (Nat.le_refl _)

theorem stateAfter_resync (s : State) : (stateAfter resync s).rest = fromNextClass s.rest := by
  obtain ⟨s', hs', hrest⟩ := resync_eq s
  rw [stateAfter, hs']
  exact hrest

theorem fromNextClass_suffix (rest : List Token) : fromNextClass rest <:+ rest :=
  (List.dropWhile_suffix _).trans (List.tail_suffix rest)

theorem fromNextClass_length_lt {rest : List Token} (h : rest ≠ []) :
    (fromNextClass rest).length < rest.length := by
  have hsuffix := (List.dropWhile_suffix (l := rest.tail) fun t => t.kind != .keyword .classKw).length_le
  have hpos := List.length_pos_iff.mpr h
  rw [List.length_tail] at hsuffix
  exact Nat.lt_of_le_of_lt hsuffix (by omega)

/-! ## Attempts -/

def State.class? (s : State) : Option ClassDecl :=
  match (classDecl : Parser ClassDecl) s with
  | .ok (c, _) => some c
  | .error _ => none

def State.failure? (s : State) : Option Failure :=
  match (classDecl : Parser ClassDecl) s with
  | .ok _ => none
  | .error e => some e

/-- Where parsing goes on behind the attempt to read a class. -/
def State.afterClass (s : State) : State :=
  match (classDecl : Parser ClassDecl) s with
  | .ok (_, s') => s'
  | .error e => stateAfter resync e.state

/-- From `s` on, classes are attempted in the states of the list, until no token is left. -/
inductive Attempts : State → List State → Prop
  | done {s} : s.rest = [] → Attempts s []
  | attempt {s l} : s.rest ≠ [] → Attempts s.afterClass l → Attempts s (s :: l)

/-- Where the next attempt is made behind a failure in front of the tokens `rest`: at the first word `class`
behind the token that did not fit. Only if there is none, no attempt follows. -/
inductive Resumes (rest : List Token) : List State → Prop
  | stop : (∀ t ∈ rest.tail, t.kind ≠ .keyword .classKw) → Resumes rest []
  | next {first skipped word behind s l} : rest = first :: (skipped ++ word :: behind) →
      (∀ t ∈ skipped, t.kind ≠ .keyword .classKw) → word.kind = .keyword .classKw → s.rest = word :: behind →
      Resumes rest (s :: l)

/-- What is wrong with a text in which classes were attempted in the states `l`. -/
def reported (l : List State) : List Failure :=
  match l with
  | [] => [noClass]
  | _ => l.filterMap State.failure?

/-- What an attempt can come to. -/
theorem State.attempt_cases (s : State) :
    (∃ c s', s.class? = some c ∧ s.failure? = none ∧ s.afterClass = s' ∧ s'.rest <:+ s.rest ∧
      s'.rest.length + 5 ≤ s.rest.length) ∨
    ∃ e, s.class? = none ∧ s.failure? = some e ∧ s.afterClass.rest = fromNextClass e.rest ∧
      e.rest <:+ s.rest := by
  have hm := advancing.classDecl s
  unfold class? failure? afterClass
  rcases hr : (classDecl : Parser ClassDecl) s with e | ⟨c, s'⟩
  · rw [hr] at hm
    exact .inr ⟨e, rfl, rfl, stateAfter_resync e.state, hm⟩
  · rw [hr] at hm
    exact .inl ⟨c, s', rfl, rfl, rfl, hm⟩

theorem State.of_failure? {s : State} {e : Failure} (h : s.failure? = some e) :
    s.afterClass.rest = fromNextClass e.rest ∧ e.rest <:+ s.rest := by
  obtain ⟨_, _, -, hnone, -⟩ | ⟨e', -, hsome, hafter⟩ := s.attempt_cases
  · rw [hnone] at h
    cases h
  · rw [hsome] at h
    cases h
    exact hafter

/-- An attempt uses up a token, whether it succeeds or not. -/
theorem State.afterClass_moves {s : State} (hs : s.rest ≠ []) :
    s.afterClass.rest <:+ s.rest ∧ s.afterClass.rest.length < s.rest.length := by
  obtain ⟨c, s', -, -, hafter, hsuffix, hlen⟩ | ⟨e, -, -, hafter, hsuffix⟩ := s.attempt_cases
  · rw [hafter]
    exact ⟨hsuffix, by omega⟩
  · rw [hafter]
    refine ⟨(fromNextClass_suffix _).trans hsuffix, ?_⟩
    by_cases he : e.rest = []
    · simpa [he, fromNextClass, List.length_pos_iff] using hs
    · exact Nat.lt_of_lt_of_le (fromNextClass_length_lt he) hsuffix.length_le

theorem exists_attempts (s : State) : ∃ l, Attempts s l := by
  induction hn : s.rest.length using Nat.strongRecOn generalizing s with
  | _ n ih =>
      by_cases hs : s.rest = []
      · exact ⟨[], .done hs⟩
      · obtain ⟨l, hl⟩ := ih _ (hn ▸ (State.afterClass_moves hs).2) s.afterClass rfl
        exact ⟨s :: l, .attempt hs hl⟩

namespace Attempts

variable {s t : State} {l l' : List State}

theorem unique (h : Attempts s l) (h' : Attempts s l') : l' = l := by
  induction h generalizing l' with
  | done hs =>
      cases h' with
      | done => rfl
      | attempt hne => exact absurd hs hne
  | attempt hne _ ih =>
      cases h' with
      | done hs => exact absurd hs hne
      | attempt _ h' => rw [ih h']

theorem rest_ne_nil (h : Attempts s l) : ∀ t ∈ l, t.rest ≠ [] := by
  induction h with
  | done => simp
  | attempt hne _ ih => exact List.forall_mem_cons.mpr ⟨hne, ih⟩

theorem rest_suffix (h : Attempts s l) : ∀ t ∈ l, t.rest <:+ s.rest := by
  induction h with
  | done => simp
  | attempt hne _ ih =>
      rw [List.forall_mem_cons]
      exact ⟨List.suffix_refl _, fun t ht => (ih t ht).trans (State.afterClass_moves hne).1⟩

theorem length_le (h : Attempts s l) : l.length ≤ s.rest.length := by
  induction h with
  | done => simp
  | attempt hne _ ih =>
      have := (State.afterClass_moves hne).2
      simp only [List.length_cons]
      omega

/-- Every attempt starts behind the start of the one before. -/
theorem pairwise_rest (h : Attempts s l) :
    l.Pairwise fun s t => t.rest <:+ s.rest ∧ t.rest.length < s.rest.length := by
  induction h with
  | done => exact .nil
  | attempt hne hl ih =>
      refine .cons (fun t ht => ?_) ih
      obtain ⟨hsuffix, hlt⟩ := State.afterClass_moves hne
      have ht := hl.rest_suffix t ht
      exact ⟨ht.trans hsuffix, Nat.lt_of_le_of_lt ht.length_le hlt⟩

/-- The attempts behind one of them are those that follow it. -/
theorem behind {a b : List State} (h : Attempts s (a ++ t :: b)) : Attempts t.afterClass b := by
  induction a generalizing s with
  | nil =>
      cases h with
      | attempt _ h => exact h
  | cons _ a ih =>
      cases h with
      | attempt _ h => exact ih h

/-! ## Failures -/

theorem failure_suffix (h : Attempts s l) : ∀ e ∈ l.filterMap State.failure?, e.rest <:+ s.rest := by
  intro e he
  obtain ⟨t, ht, hte⟩ := List.mem_filterMap.mp he
  exact (State.of_failure? hte).2.trans (h.rest_suffix t ht)

/-- Behind a failure, parsing goes on behind the token that did not fit. -/
theorem pairwise_failures (h : Attempts s l) :
    (l.filterMap State.failure?).Pairwise fun e e' => e'.rest.length < e.rest.length := by
  induction h with
  | done => exact .nil
  | @attempt s l hne hl ih =>
      obtain ⟨_, _, -, hnone, -⟩ | ⟨e, -, hsome, hafter, -⟩ := s.attempt_cases
      · rwa [List.filterMap_cons_none hnone]
      · rw [List.filterMap_cons_some hsome]
        refine .cons (fun e' he' => ?_) ih
        obtain ⟨t, ht, -⟩ := List.mem_filterMap.mp he'
        have hsuffix := hl.failure_suffix e' he'
        have hleft := hl.rest_suffix t ht
        rw [hafter] at hsuffix hleft
        have he : e.rest ≠ [] := fun hnil => hl.rest_ne_nil t ht (by simpa [hnil, fromNextClass] using hleft)
        exact Nat.lt_of_le_of_lt hsuffix.length_le (fromNextClass_length_lt he)

theorem resumes {rest : List Token} (h : Attempts s l) (hs : s.rest = fromNextClass rest) : Resumes rest l := by
  cases h with
  | done hnil =>
      refine .stop fun t ht => ?_
      rw [hs, fromNextClass, List.dropWhile_eq_nil_iff] at hnil
      simpa using hnil t ht
  | attempt hne =>
      obtain ⟨word, behind, hword⟩ := List.exists_cons_of_ne_nil hne
      cases rest with
      | nil => exact absurd hs hne
      | cons first tail =>
          have hdrop : tail.dropWhile (fun t => t.kind != .keyword .classKw) = word :: behind :=
            hs.symm.trans hword
          have hsplit : first :: tail =
              first :: (tail.takeWhile (fun t => t.kind != .keyword .classKw) ++ word :: behind) := by
            rw [← hdrop, List.takeWhile_append_dropWhile]
          refine .next hsplit ?_ ?_ hword
          · intro t ht
            simpa using List.all_eq_true.mp List.all_takeWhile t ht
          · have hhead := List.head?_dropWhile_not (fun t : Token => t.kind != .keyword .classKw) tail
            simpa [hdrop] using hhead

/-- With enough fuel for the attempts, exactly these are made. -/
theorem classesN_eq (h : Attempts s l) {n : Nat} (hn : l.length ≤ n) :
    classesN n s = (l.filterMap State.class?, l.filterMap State.failure?) := by
  induction h generalizing n with
  | done hs => cases n <;> simp [classesN, hs]
  | @attempt s l hne hl ih =>
      obtain ⟨n, rfl⟩ := Nat.exists_eq_add_of_le' (Nat.le_trans (Nat.le_add_left 1 _) hn)
      have ih := ih (n := n) (by simpa using hn)
      rw [classesN, if_neg (by simpa using hne)]
      unfold State.afterClass at ih
      cases hr : (classDecl : Parser ClassDecl) s <;> simp_all [State.class?, State.failure?]

end Attempts

/-- Every attempt gives a class or a failure. -/
theorem length_classes_add_failures (l : List State) :
    (l.filterMap State.class?).length + (l.filterMap State.failure?).length = l.length := by
  induction l with
  | nil => rfl
  | cons s l ih =>
      obtain ⟨_, _, hc, hf, -⟩ | ⟨_, hc, hf, -⟩ := s.attempt_cases
      · rw [List.filterMap_cons_some hc, List.filterMap_cons_none hf, List.length_cons, List.length_cons]
        omega
      · rw [List.filterMap_cons_none hc, List.filterMap_cons_some hf, List.length_cons, List.length_cons]
        omega

/-! ## Results -/

/-- A failure that leaves a suffix of the tokens sits at a token, or behind the last one. -/
theorem Failure.span_toError {input : TokenStream} {e : Failure} (h : e.rest <:+ input.tokens) :
    (e.toError input.stop).span = input.spanAt (input.tokens.length - e.rest.length) := by
  have hrest := List.suffix_iff_eq_drop.mp h
  have hhead : input.tokens[input.tokens.length - e.rest.length]? = e.rest.head? := by
    rw [← List.head?_drop, ← hrest]
  unfold Failure.toError TokenStream.spanAt
  rw [hhead]
  cases e.rest <;> rfl

theorem reported_of_ne_nil {l : List State} (h : l ≠ []) : reported l = l.filterMap State.failure? := by
  cases l with
  | nil => exact absurd rfl h
  | cons s l => rfl

theorem Attempts.reported_suffix {s : State} {l : List State} (h : Attempts s l) :
    ∀ e ∈ reported l, e.rest <:+ s.rest := by
  cases l with
  | nil => exact List.forall_mem_singleton.mpr List.nil_suffix
  | cons => exact h.failure_suffix

theorem Attempts.pairwise_reported {s : State} {l : List State} (h : Attempts s l) :
    (reported l).Pairwise fun e e' => e'.rest.length < e.rest.length := by
  cases l with
  | nil => exact List.pairwise_singleton _ _
  | cons => exact h.pairwise_failures

theorem program_of_attempts {input : TokenStream} {l : List State} (h : Attempts ⟨input.tokens, 0, 0⟩ l) :
    (reported l = [] → program input = .ok ⟨l.filterMap State.class?⟩) ∧
      (reported l ≠ [] → program input = .error ((reported l).map (·.toError input.stop))) := by
  unfold program
  rw [h.classesN_eq h.length_le]
  cases l with
  | nil => exact ⟨by simp [reported], fun _ => rfl⟩
  | cons s l =>
      rw [reported_of_ne_nil (by simp)]
      have hlen := length_classes_add_failures (s :: l)
      cases hf : (s :: l).filterMap State.failure? with
      | cons e es => simp
      | nil =>
          rw [hf] at hlen
          cases hc : (s :: l).filterMap State.class? with
          | nil => rw [hc] at hlen; cases hlen
          | cons c cs => simp

/-- The run on `input`: classes are attempted in the states `l`. -/
structure Recovered (input : TokenStream) (l : List State) : Prop where
  /-- The run ends, and the same attempts are made whatever the fuel. -/
  attempts : Attempts ⟨input.tokens, 0, 0⟩ l
  unique : ∀ l', Attempts ⟨input.tokens, 0, 0⟩ l' → l' = l
  classesN : ∀ n ≥ l.length,
    classesN n ⟨input.tokens, 0, 0⟩ = (l.filterMap State.class?, l.filterMap State.failure?)
  length_le : l.length ≤ input.tokens.length
  /-- No attempt passes the end of the input or goes back behind the one before. -/
  within : ∀ s ∈ l, s.rest <:+ input.tokens ∧ Moves 5 s ((classDecl : Parser ClassDecl) s)
  forward : l.Pairwise fun s t => t.rest <:+ s.rest ∧ t.rest.length < s.rest.length
  /-- Behind a class, the next attempt is where it ends, unless no token is left. -/
  continues : ∀ a s b, l = a ++ s :: b → ∀ c s', (classDecl : Parser ClassDecl) s = .ok (c, s') →
    b = [] ∧ s'.rest = [] ∨ b.head? = some s'
  /-- Behind a failure, the next attempt is at the next word `class` behind the token that did not fit. -/
  resumes : ∀ a s b, l = a ++ s :: b → ∀ e, s.failure? = some e → Resumes e.rest b
  /-- Each attempt gives a class or one error, and a text without attempts gives one error. -/
  count : l ≠ [] → (l.filterMap State.class?).length + (reported l).length = l.length
  empty : l = [] ↔ input.tokens = []
  /-- The errors sit at tokens of the input or at its end, each behind the one before. -/
  place : ∀ e ∈ reported l, e.rest = input.tokens.drop (input.tokens.length - e.rest.length) ∧
    (e.toError input.stop).span = input.spanAt (input.tokens.length - e.rest.length)
  increasing : ((reported l).map fun e => input.tokens.length - e.rest.length).Pairwise (· < ·)
  ok : reported l = [] → program input = .ok ⟨l.filterMap State.class?⟩
  error : reported l ≠ [] → program input = .error ((reported l).map (·.toError input.stop))
  ok_iff : (∃ p, program input = .ok p) ↔ reported l = []

theorem Attempts.recovered {input : TokenStream} {l : List State} (h : Attempts ⟨input.tokens, 0, 0⟩ l) :
    Recovered input l where
  attempts := h
  unique _ h' := h.unique h'
  classesN _ hn := h.classesN_eq hn
  length_le := h.length_le
  within s hs := ⟨h.rest_suffix s hs, advancing.classDecl s⟩
  forward := h.pairwise_rest
  continues a s b hl c s' hs := by
    have hafter : s.afterClass = s' := by rw [State.afterClass, hs]
    have hb : Attempts s.afterClass b := (hl ▸ h).behind
    cases hb with
    | done hnil => exact .inl ⟨rfl, hafter ▸ hnil⟩
    | attempt => exact .inr (congrArg some hafter)
  resumes a s b hl e he := (hl ▸ h).behind.resumes (State.of_failure? he).1
  count hne := by
    rw [reported_of_ne_nil hne]
    exact length_classes_add_failures l
  empty := by
    cases h with
    | done hs => simpa using hs
    | attempt hne => simpa using hne
  place e he :=
    ⟨List.suffix_iff_eq_drop.mp (h.reported_suffix e he), Failure.span_toError (h.reported_suffix e he)⟩
  increasing := by
    refine List.pairwise_map.mpr (h.pairwise_reported.imp_of_mem fun {e e'} he _ hlt => ?_)
    have hle : e.rest.length ≤ input.tokens.length := (h.reported_suffix e he).length_le
    omega
  ok := (program_of_attempts h).1
  error := (program_of_attempts h).2
  ok_iff := by
    obtain ⟨hok, herror⟩ := program_of_attempts h
    constructor
    · rintro ⟨p, hp⟩
      refine Classical.byContradiction fun hl => ?_
      rw [herror hl] at hp
      cases hp
    · exact fun hl => ⟨_, hok hl⟩

/-! ## With a cursor -/

variable {input : TokenStream}

/-- An attempt with a cursor comes to the same, and leads to where the next one is made. -/
theorem State.attempt_walk {s : State} {c : Cursor input} (hc : c.Stands s) :
    (∃ d c', (classDecl : Walk input ClassDecl) c = (.ok d, c') ∧ s.class? = some d ∧ s.failure? = none ∧
      c'.Stands s.afterClass) ∨
    ∃ e c', (classDecl : Walk input ClassDecl) c = (.error (e.toError input.stop), c') ∧ s.class? = none ∧
      s.failure? = some e ∧ ((resync : Walk input Unit) c').2.Stands s.afterClass := by
  unfold class? failure? afterClass
  obtain ⟨d, s', c', hs, hwalk, hc'⟩ | ⟨e, c', hs, hwalk, hc'⟩ :=
    (Walk.Follows.classDecl hc List.nil_prefix).ok_or_error
  · rw [hs]
    exact .inl ⟨d, c', hwalk, rfl, rfl, hc'⟩
  · rw [hs]
    have hresync := Walk.Follows.resync hc' List.nil_prefix
    obtain ⟨s', hs', -⟩ := resync_eq e.state
    rw [hs'] at hresync
    exact .inr ⟨e, c', hwalk, rfl, rfl, by simpa only [stateAfter, hs'] using hresync.2⟩

/-- With a cursor, the same attempts are made, until the cursor is at the end of the input. -/
theorem Attempts.classesN_walk {s : State} {l : List State} (h : Attempts s l) {c : Cursor input}
    (hc : c.Stands s) {n : Nat} (hn : l.length ≤ n) :
    ∃ c' s', Walk.classesN n c = ((l.filterMap State.class?,
      (l.filterMap State.failure?).map (·.toError input.stop)), c') ∧ c'.Stands s' ∧ s'.rest = [] := by
  induction h generalizing c n with
  | @done s hs =>
      have heof : c.isEof = true := by rw [hc.isEof, hs]; rfl
      refine ⟨c, s, ?_, hc, hs⟩
      cases n with
      | zero => rfl
      | succ n => rw [Walk.classesN, if_pos heof]; rfl
  | @attempt s l hne _ ih =>
      obtain ⟨n, rfl⟩ := Nat.exists_eq_add_of_le' (Nat.le_trans (Nat.le_add_left 1 _) hn)
      have hn : l.length ≤ n := by simpa using hn
      have hbusy : ¬ c.isEof = true := by rw [hc.isEof]; simpa using hne
      rw [Walk.classesN, if_neg hbusy]
      obtain ⟨d, c₁, hwalk, hclass, hfailure, hc₁⟩ | ⟨e, c₁, hwalk, hclass, hfailure, hc₁⟩ :=
        State.attempt_walk hc
      · obtain ⟨c', s', hrest, hend⟩ := ih hc₁ hn
        refine ⟨c', s', ?_, hend⟩
        rw [hwalk, List.filterMap_cons_some hclass, List.filterMap_cons_none hfailure]
        dsimp only
        rw [hrest]
      · obtain ⟨c', s', hrest, hend⟩ := ih hc₁ hn
        refine ⟨c', s', ?_, hend⟩
        rw [hwalk, List.filterMap_cons_none hclass, List.filterMap_cons_some hfailure]
        dsimp only
        rw [hrest]
        rfl

theorem Attempts.program_walk {l : List State} (h : Attempts ⟨input.tokens, 0, 0⟩ l) :
    ∃ c s', Walk.program input = (program input, c) ∧ c.Stands s' ∧ s'.rest = [] := by
  obtain ⟨c, s', hwalk, hc, hs'⟩ := h.classesN_walk Cursor.Stands.start h.length_le
  have herror : c.errorHere noClass.expected noClass.help = noClass.toError input.stop := by
    rw [Cursor.errorHere, hc.peek, hs']
    rfl
  refine ⟨c, s', ?_, hc, hs'⟩
  unfold Walk.program program
  rw [hwalk, h.classesN_eq h.length_le]
  cases l.filterMap State.class? with
  | nil =>
      cases l.filterMap State.failure? with
      | nil => exact congrArg (fun e => (Except.error [e], c)) herror
      | cons e es => rfl
  | cons d ds => cases l.filterMap State.failure? <;> rfl

/-- Parsing `input` with a cursor. -/
structure Confined (input : TokenStream) : Prop where
  /-- The end of the input is the last item, and only that. -/
  eof : ∀ i stop, input.items[i]? = some (.eof stop) ↔ i = input.items.length - 1 ∧ stop = input.stop
  result : (Walk.program input).1 = program input
  /-- The cursor goes from item to item, to the end of the input and no further. -/
  positions : (Walk.program input).2.positions = (List.range input.items.length).reverse
  /-- Wherever it was, neither looking nor moving on was clamped. -/
  unclamped : ∀ i ∈ (Walk.program input).2.positions,
    min i (input.items.length - 1) = i ∧ min (i + 1) input.items.length = i + 1
  /-- An attempt to read a class, from any item, ends in front of the token that the list ends at. -/
  follows : Walk.Follows [] classDecl (classDecl : Walk input ClassDecl)

theorem Attempts.confined {l : List State} (h : Attempts ⟨input.tokens, 0, 0⟩ l) : Confined input := by
  obtain ⟨c, s, hwalk, hc, hs⟩ := h.program_walk
  have hpos : c.pos + 1 = input.items.length := by
    have hlen := hc.length_rest
    rw [hs, TokenStream.length_items, List.length_nil] at hlen
    have hwithin := hc.within
    rw [TokenStream.length_items]
    omega
  have hpositions : (Walk.program input).2.positions = (List.range input.items.length).reverse := by
    rw [hwalk, ← hpos]
    exact hc.positions
  refine ⟨fun i stop => ?_, by rw [hwalk], hpositions, fun i hi => ?_, Walk.Follows.classDecl⟩
  · rw [TokenStream.getElem?_items_eq_eof, TokenStream.length_items]
    rfl
  · rw [hpositions, List.mem_reverse, List.mem_range] at hi
    omega

/-! ## Any input -/

/-- Parsing ends on every list of tokens, every class that cannot be read costs one error, and no position
behind the end of the input is ever reached. -/
theorem program_recovers (input : TokenStream) :
    Advancing ∧ Determined ∧ (∃ l, Recovered input l) ∧ Confined input := by
  obtain ⟨l, hl⟩ := exists_attempts ⟨input.tokens, 0, 0⟩
  exact ⟨advancing, determined, ⟨l, hl.recovered⟩, hl.confined⟩

/-- A word `class` at which an attempt fails is passed over as well: the third class, which is whole, is not
attempted. -/
example :
    let kinds : List TokenKind :=
      [.keyword .classKw, .typeName "A", .symbol .lbrace, .symbol .semi,
        .keyword .classKw, .typeName "B", .symbol .lbrace, .symbol .rbrace,
        .keyword .classKw, .typeName "C", .symbol .lbrace, .symbol .rbrace, .symbol .semi]
    (classesN 13 ⟨kinds.zipIdx.map fun k => ⟨k.1, k.2, k.2 + 1⟩, 0, 0⟩).2.map (·.rest.length) = [10, 5] := by
  decide

end Parser

end CoolTyping
