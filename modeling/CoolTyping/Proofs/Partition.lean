import CoolTyping.Proofs.Lexing
import Mathlib.Data.List.Nodup

/-!
# The lexemes of a text

A text is divided into pieces that stand one behind the other without gaps: tokens, faults, and the blanks
and comments between them. A token or a fault stands by itself, since its text alone is cut into the same; it
stands where no blank or comment can be read; and no longer text at its place is a token or a fault by itself.
Cutting finds such a division, and all of them have the same tokens and faults.
-/

namespace CoolTyping

namespace Lexer

/-! ## Blanks and comments -/

/-- The text is a run of blanks, a comment up to the end of a line, or a comment up to the first `*)`. Behind it
comes `rest`. -/
inductive Trivia : List Char → List Char → Prop
  | blanks {cs rest : List Char} : cs ≠ [] → (∀ c ∈ cs, isBlank c = true) → Trivia cs rest
  | line {body rest : List Char} : (∀ c ∈ body, endsLine c = false) →
      rest = [] ∨ ['\n'] <+: rest ∨ ['\r', '\n'] <+: rest → Trivia ('-' :: '-' :: body) rest
  | block {body rest : List Char} : ¬ ['*', ')'] <:+: body ++ ['*'] →
      Trivia ('(' :: '*' :: body ++ ['*', ')']) rest

theorem Trivia.ne_nil {text rest : List Char} (h : Trivia text rest) : text ≠ [] := by
  cases h with
  | blanks hne => exact hne
  | line => exact List.cons_ne_nil _ _
  | block => exact List.cons_ne_nil _ _

theorem closeComment?_eq_some {cs body rest : List Char} (h : closeComment? cs = some (body, rest)) :
    cs = body ++ '*' :: ')' :: rest ∧ ¬ ['*', ')'] <:+: body ++ ['*'] := by
  fun_induction closeComment? cs generalizing body with
  | case1 => cases h
  | case2 tail =>
      cases h
      exact ⟨rfl, fun hinfix => absurd hinfix.length_le (by decide)⟩
  | case3 c tail hopen ih =>
      obtain ⟨⟨body', rest'⟩, hclose, heq⟩ := Option.map_eq_some_iff.mp h
      cases heq
      obtain ⟨htail, hfirst⟩ := ih hclose
      refine ⟨by rw [htail]; rfl, fun hinfix => ?_⟩
      rcases List.infix_cons_iff.mp hinfix with hprefix | hinfix
      · -- the comment would have been closed here
        obtain ⟨hc, hprefix⟩ := List.cons_prefix_cons.mp hprefix
        cases body' with
        | nil => exact absurd (List.cons_prefix_cons.mp hprefix).1 (by decide)
        | cons d body' =>
            refine hopen (body' ++ '*' :: ')' :: rest) hc.symm ?_
            rw [htail, ← (List.cons_prefix_cons.mp hprefix).1]
            rfl
      · exact hfirst hinfix

theorem lineComment?_eq_some {cs text rest : List Char} (h : lineComment? cs = some (text, rest)) :
    text ++ rest = cs ∧ Trivia text rest := by
  unfold lineComment? at h
  split at h
  · rename_i tail
    have hbody : ∀ c ∈ tail.takeWhile (!endsLine ·), endsLine c = false := fun c hc => by
      simpa using List.all_eq_true.mp List.all_takeWhile c hc
    have hhead := List.head?_dropWhile_not (!endsLine ·) tail
    have hsplit : tail.takeWhile (!endsLine ·) ++ tail.dropWhile (!endsLine ·) = tail :=
      List.takeWhile_append_dropWhile
    dsimp only at h
    generalize tail.takeWhile (!endsLine ·) = body, tail.dropWhile (!endsLine ·) = rest' at *
    split at h
    · cases h
      exact ⟨congrArg ('-' :: '-' :: ·) hsplit, .line hbody (.inr (.inr ⟨_, rfl⟩))⟩
    · cases h
    · rename_i hcrlf hcr
      cases h
      refine ⟨congrArg ('-' :: '-' :: ·) hsplit, .line hbody ?_⟩
      cases rest with
      | nil => exact .inl rfl
      | cons d rest =>
          have hd : d ≠ '\r' → d = '\n' := by simpa [endsLine] using hhead
          obtain rfl := hd fun hd => hcr rest (hd ▸ rfl)
          exact .inr (.inl ⟨rest, rfl⟩)
  · cases h

theorem blockComment?_eq_some {cs text rest : List Char} (h : blockComment? cs = some (text, rest)) :
    text ++ rest = cs ∧ Trivia text rest := by
  unfold blockComment? at h
  split at h
  · rename_i tail
    obtain ⟨⟨body, rest'⟩, hclose, heq⟩ := Option.map_eq_some_iff.mp h
    cases heq
    obtain ⟨htail, hfirst⟩ := closeComment?_eq_some hclose
    exact ⟨by simp [htail], .block hfirst⟩
  · cases h

theorem blank?_eq_some {cs text rest : List Char} (h : blank? cs = some (text, rest)) :
    text ++ rest = cs ∧ Trivia text rest := by
  unfold blank? at h
  split at h
  · cases h
  rename_i c tail
  split at h
  · rename_i hc
    cases h
    refine ⟨List.takeWhile_append_dropWhile, .blanks ?_ fun d hd => ?_⟩
    · simp [hc]
    · exact List.all_eq_true.mp List.all_takeWhile d hd
  · rcases Option.or_eq_some_iff.mp h with h | ⟨-, h⟩
    · exact lineComment?_eq_some h
    · exact blockComment?_eq_some h

theorem closeComment?_append {body rest : List Char} (h : ¬ ['*', ')'] <:+: body ++ ['*']) :
    closeComment? (body ++ '*' :: ')' :: rest) = some (body, rest) := by
  induction body with
  | nil => rfl
  | cons c body ih =>
      have ih := ih fun hinfix => h (List.infix_cons hinfix)
      rw [List.cons_append, closeComment?.eq_def]
      split
      · rename_i heq
        cases heq
      · rename_i tail heq
        -- the comment would be closed before its end
        obtain ⟨hc, htail⟩ := List.cons.inj heq
        cases body with
        | nil => exact absurd (List.cons.inj htail).1 (by decide)
        | cons d body => exact absurd ⟨[], body ++ ['*'], by simp [hc, (List.cons.inj htail).1]⟩ h
      · rename_i heq
        cases heq
        rw [ih]
        rfl

theorem lineComment?_append {body rest : List Char} (hbody : ∀ c ∈ body, endsLine c = false)
    (hrest : rest = [] ∨ ['\n'] <+: rest ∨ ['\r', '\n'] <+: rest) :
    lineComment? ('-' :: '-' :: (body ++ rest)) = some ('-' :: '-' :: body, rest) := by
  have hhead : ∀ d ∈ rest.head?, ¬ (!endsLine d) = true := by
    rcases hrest with rfl | ⟨_, rfl⟩ | ⟨_, rfl⟩
    · simp
    · simp [endsLine]
    · simp [endsLine]
  obtain ⟨htake, hdrop⟩ := span_of_not_head (p := (!endsLine ·)) (by simpa using hbody) hhead
  unfold lineComment?
  simp only [htake, hdrop]
  rcases hrest with rfl | ⟨_, rfl⟩ | ⟨_, rfl⟩
  · rfl
  · rfl
  · rfl

/-- Where a run of blanks or a comment stands, it is found, though blanks may go on behind the run. -/
theorem Trivia.blank?_eq {text rest : List Char} (h : Trivia text rest) :
    (∀ c ∈ text, isBlank c = true) ∨ blank? (text ++ rest) = some (text, rest) := by
  cases h with
  | blanks _ hblank => exact .inl hblank
  | line hbody hrest =>
      refine .inr ?_
      rw [blank?.eq_def]
      simp [isBlank, lineComment?_append hbody hrest]
  | block hbody =>
      refine .inr ?_
      rw [blank?.eq_def]
      simp [isBlank, lineComment?, blockComment?, closeComment?_append hbody]

theorem Trivia.isSome_blank? {text rest : List Char} (h : Trivia text rest) :
    (blank? (text ++ rest)).isSome = true := by
  rcases h.blank?_eq with hblank | heq
  · obtain ⟨c, cs, rfl⟩ := List.exists_cons_of_ne_nil h.ne_nil
    have hc : isBlank c = true := hblank c List.mem_cons_self
    simp [blank?, hc]
  · simp [heq]

/-! ## One lexeme -/

/-- What can be a backslash neither at the end nor in front of another character is none. -/
theorem ne_backslash {c : Char} {tail : List Char} (hlast : c = '\\' → tail = [] → False)
    (hslash : ∀ d rest, c = '\\' → tail = d :: rest → False) : c ≠ '\\' := by
  intro hc
  cases tail with
  | nil => exact hlast hc rfl
  | cons d tail => exact hslash d tail hc rfl

/-- What is quoted reads the same without what follows. -/
theorem unquote?_eq_some {cs : List Char} {q : Quoted.Found} (h : Quoted.unquote? cs = some q) :
    q.text ++ q.rest = cs ∧ Quoted.unquote? q.text = some ⟨q.value, q.text, []⟩ := by
  fun_induction Quoted.unquote? cs generalizing q with
  | case1 => cases h
  | case2 tail =>
      cases h
      exact ⟨rfl, rfl⟩
  | case3 => cases h
  | case4 c tail ih =>
      obtain ⟨f, hf, rfl⟩ := Option.map_eq_some_iff.mp h
      obtain ⟨htext, halone⟩ := ih hf
      exact ⟨by simp [Quoted.Found.cons, htext], by simp [Quoted.Found.cons, Quoted.unquote?, halone]⟩
  | case5 => cases h
  | case6 c tail hquote hlast hslash hnewline ih =>
      obtain ⟨f, hf, rfl⟩ := Option.map_eq_some_iff.mp h
      obtain ⟨htext, halone⟩ := ih hf
      refine ⟨by simp [Quoted.Found.cons, htext], ?_⟩
      change Quoted.unquote? (c :: f.text) = _
      rw [unquote?_plain hquote (ne_backslash hlast hslash) hnewline, halone]
      rfl

/-- What is quoted reads the same with more behind it. -/
theorem unquote?_append {cs : List Char} {q : Quoted.Found} (h : Quoted.unquote? cs = some q)
    (more : List Char) : Quoted.unquote? (cs ++ more) = some ⟨q.value, q.text, q.rest ++ more⟩ := by
  fun_induction Quoted.unquote? cs generalizing q with
  | case1 => cases h
  | case2 tail =>
      cases h
      rfl
  | case3 => cases h
  | case4 c tail ih =>
      obtain ⟨f, hf, rfl⟩ := Option.map_eq_some_iff.mp h
      simp [Quoted.Found.cons, Quoted.unquote?, ih hf]
  | case5 => cases h
  | case6 c tail hquote hlast hslash hnewline ih =>
      obtain ⟨f, hf, rfl⟩ := Option.map_eq_some_iff.mp h
      rw [List.cons_append, unquote?_plain hquote (ne_backslash hlast hslash) hnewline, ih hf]
      rfl

theorem symbol?_eq_some {cs text rest : List Char} {sign : Symbol}
    (h : symbol? cs = some (sign, text, rest)) : text ++ rest = cs ∧
      ∃ c part, text = c :: part ∧ cut c part = ⟨.token (.symbol sign), c :: part, []⟩ := by
  unfold symbol? at h
  split at h <;> cases h <;> exact ⟨rfl, _, _, rfl, rfl⟩

/-- The characters that signs start with. -/
def signStarts : List Char :=
  ['<', '=', '+', '-', '*', '/', '~', '@', '.', ',', ':', ';', '\x7b', '\x7d', '(', ')']

theorem isSome_symbol? {c : Char} {cs : List Char} : (symbol? (c :: cs)).isSome = true ↔ c ∈ signStarts := by
  unfold signStarts
  constructor
  · intro h
    unfold symbol? at h
    split at h <;> simp_all
  · intro h
    unfold symbol?
    split <;> simp_all

/-- More behind a sign can make it longer, but not shorter. -/
theorem symbol?_append {cs text rest : List Char} {sign : Symbol}
    (h : symbol? cs = some (sign, text, rest)) (more : List Char) :
    ∃ sign' text' rest', symbol? (cs ++ more) = some (sign', text', rest') ∧ text.length ≤ text'.length := by
  have longer {c : Char} {tail : List Char} (hc : c ∈ signStarts) :
      ∃ sign' text' rest', symbol? (c :: tail) = some (sign', text', rest') ∧ 1 ≤ text'.length := by
    obtain ⟨⟨sign', text', rest'⟩, hsign⟩ := Option.isSome_iff_exists.mp (isSome_symbol?.mpr hc)
    obtain ⟨-, d, part, rfl, -⟩ := symbol?_eq_some hsign
    exact ⟨sign', _, rest', hsign, Nat.le_add_left 1 _⟩
  unfold symbol? at h
  split at h <;> cases h
  case h_1 | h_2 | h_3 | h_4 => exact ⟨_, _, _, rfl, Nat.le_refl _⟩
  all_goals exact longer (by decide)

namespace CutsTo

variable {c : Char} {cs : List Char} {next : Cut}

theorem split (h : CutsTo c cs next) : next.text ++ next.rest = c :: cs ∧ next.text ≠ [] := by
  cases h with
  | blank hblank => exact ⟨(blank?_eq_some hblank).1, (blank?_eq_some hblank).2.ne_nil⟩
  | openComment => exact ⟨List.append_nil _, List.cons_ne_nil _ _⟩
  | string _ hq => exact ⟨congrArg (c :: ·) (unquote?_eq_some hq).1, List.cons_ne_nil _ _⟩
  | openString => exact ⟨List.append_nil _, List.cons_ne_nil _ _⟩
  | word hcs => exact ⟨congrArg (c :: ·) hcs.symm, List.cons_ne_nil _ _⟩
  | integer hcs => exact ⟨congrArg (c :: ·) hcs.symm, List.cons_ne_nil _ _⟩
  | tooLarge hcs => exact ⟨congrArg (c :: ·) hcs.symm, List.cons_ne_nil _ _⟩
  | sign _ hsign =>
      obtain ⟨hsplit, d, part, rfl, -⟩ := symbol?_eq_some hsign
      exact ⟨hsplit, List.cons_ne_nil _ _⟩
  | unexpected => exact ⟨rfl, List.cons_ne_nil _ _⟩

theorem trivia (h : CutsTo c cs next) (hlexeme : next.lexeme = .blank) : Trivia next.text next.rest := by
  cases h with
  | blank hblank => exact (blank?_eq_some hblank).2
  | _ => cases hlexeme

theorem integer_text (h : CutsTo c cs next) {value : Nat} (hvalue : next.lexeme = .token (.integer value)) :
    (∀ d ∈ next.text, d.isDigit) ∧ value = Nat.ofDigitChars 10 next.text 0 := by
  cases h with
  | integer _ hdigits =>
      cases hvalue
      exact ⟨hdigits, rfl⟩
  | word =>
      have hword := Lexeme.token.inj hvalue
      unfold wordKind at hword
      split at hword
      · cases hword
      · dsimp only at hword
        split at hword <;> cases hword
  | _ => cases hvalue

end CutsTo

theorem blank?_eq_none_of_cut {c : Char} {cs : List Char} (h : (cut c cs).lexeme ≠ .blank) :
    blank? (c :: cs) = none := by
  cases hblank : blank? (c :: cs) with
  | none => rfl
  | some found => simp [cut, hblank] at h

/-- A token or a fault needs nothing of what follows. -/
theorem cut_alone {c : Char} {cs : List Char} (h : (cut c cs).lexeme ≠ .blank) :
    ∃ d part, (cut c cs).text = d :: part ∧ cut d part = ⟨(cut c cs).lexeme, d :: part, []⟩ := by
  have hnone := blank?_eq_none_of_cut h
  cases hnext : cut c cs with | mk lexeme text rest
  have hcut := cut_cutsTo c cs
  rw [hnext] at hcut h
  cases hcut with
  | blank => exact absurd rfl h
  | openComment => exact ⟨c, cs, rfl, hnext⟩
  | string hc hq =>
      subst hc
      exact ⟨_, _, rfl, cut_quoted (unquote?_eq_some hq).2⟩
  | openString => exact ⟨c, cs, rfl, hnext⟩
  | @word part _ _ hc hpart =>
      have hword : cut c (part ++ []) = _ := cut_word hc hpart (by simp)
      rw [List.append_nil] at hword
      exact ⟨c, part, rfl, hword⟩
  | @integer part _ _ hdigits _ hvalue =>
      have hinteger : cut c (part ++ []) = _ := cut_digits hdigits (by simp)
      rw [List.append_nil, if_pos hvalue] at hinteger
      exact ⟨c, part, rfl, hinteger⟩
  | @tooLarge part _ _ hdigits _ hvalue =>
      have hinteger : cut c (part ++ []) = _ := cut_digits hdigits (by simp)
      rw [List.append_nil, if_neg (Nat.not_le_of_lt hvalue)] at hinteger
      exact ⟨c, part, rfl, hinteger⟩
  | sign _ hsign => exact (symbol?_eq_some hsign).2
  | unexpected hstarts hsign =>
      have hsign : symbol? [c] = none := by
        rw [← Option.not_isSome_iff_eq_none, isSome_symbol?] at hsign ⊢
        exact hsign
      have hblank : isBlank c = false := by
        cases hc : isBlank c with
        | false => rfl
        | true => simp [blank?, hc] at hnone
      have halone : blank? [c] = none := blank?_eq_none hblank (by simp) (by simp)
      refine ⟨c, [], rfl, ?_⟩
      simp [cut, halone, cutSolid, hstarts.quote, hstarts.alpha, hstarts.digit, hsign]

/-- A run of characters ends where the first other character stands. -/
theorem length_le_of_run {p : Char → Bool} {part more run rest : List Char} (h : part ++ more = run ++ rest)
    (hpart : ∀ d ∈ part, p d) (hrest : ∀ d ∈ rest.head?, ¬ p d) : part.length ≤ run.length := by
  rcases List.append_eq_append_iff.mp h with ⟨between, rfl, -⟩ | ⟨between, rfl, rfl⟩
  · simp
  · cases between with
    | nil => simp
    | cons d between => exact absurd (hpart d (by simp)) (hrest d rfl)

section Longest

variable {c : Char} {part : List Char} {next : Cut}

/-- A whole text that starts with a letter is a word, if it is one lexeme. -/
theorem CutsTo.isWordPart (h : CutsTo c part next) (htext : next.text = c :: part)
    (hlexeme : next.lexeme ≠ .blank) (hc : c.isAlpha) : ∀ d ∈ part, isWordPart d := by
  cases h with
  | blank => exact absurd rfl hlexeme
  | word _ _ hpart => exact (List.cons.inj htext).2 ▸ hpart
  | openComment hopen | openString hopen | string hopen => exact absurd hc (by rw [hopen]; decide)
  | integer _ hdigits | tooLarge _ hdigits =>
      exact absurd hc (by simp [isAlpha_of_isDigit (hdigits c List.mem_cons_self)])
  | sign hstarts | unexpected hstarts => exact absurd hc (by simp [hstarts.alpha])

/-- A whole text that starts with a digit is a number, if it is one lexeme. -/
theorem CutsTo.isDigit (h : CutsTo c part next) (htext : next.text = c :: part)
    (hlexeme : next.lexeme ≠ .blank) (hc : c.isDigit) : ∀ d ∈ part, d.isDigit := by
  cases h with
  | blank => exact absurd rfl hlexeme
  | integer _ hdigits | tooLarge _ hdigits =>
      exact fun d hd => hdigits d (List.mem_cons_of_mem _ ((List.cons.inj htext).2 ▸ hd))
  | openComment hopen | openString hopen | string hopen => exact absurd hc (by rw [hopen]; decide)
  | word _ halpha => exact absurd halpha (by simp [isAlpha_of_isDigit hc])
  | sign hstarts | unexpected hstarts => exact absurd hc (by simp [hstarts.digit])

/-- A whole text that starts like a sign is one, if it is one lexeme of more than a character. -/
theorem CutsTo.symbol? (h : CutsTo c part next) (htext : next.text = c :: part)
    (hlexeme : next.lexeme ≠ .blank) (hstarts : StartsSign c part) :
    part = [] ∨ ∃ sign rest, Lexer.symbol? (c :: part) = some (sign, c :: part, rest) := by
  cases h with
  | blank => exact absurd rfl hlexeme
  | sign _ hsign =>
      cases htext
      exact .inr ⟨_, _, hsign⟩
  | unexpected => exact .inl (List.cons.inj htext).2.symm
  | openComment hopen hstar => exact absurd hstar (hstarts.comment hopen)
  | openString hopen | string hopen => exact absurd hopen hstarts.quote
  | word _ halpha => exact absurd halpha (by simp [hstarts.alpha])
  | integer _ hdigits | tooLarge _ hdigits =>
      exact absurd (hdigits c List.mem_cons_self) (by simp [hstarts.digit])

theorem StartsSign.left {more : List Char} (h : StartsSign c (part ++ more)) : StartsSign c part where
  quote := h.quote
  alpha := h.alpha
  digit := h.digit
  comment hc hstar := h.comment hc (by rw [List.head?_append, hstar]; rfl)

/-- No longer text than the one that is cut off is a token or a fault by itself. -/
theorem cut_longest {more : List Char} {lexeme : Lexeme} (h : (cut c (part ++ more)).lexeme ≠ .blank)
    (halone : cut c part = ⟨lexeme, c :: part, []⟩) (hlexeme : lexeme ≠ .blank) :
    (c :: part).length ≤ (cut c (part ++ more)).text.length := by
  have hpart : CutsTo c part ⟨lexeme, c :: part, []⟩ := halone ▸ cut_cutsTo c part
  cases hnext : cut c (part ++ more) with | mk lexeme' text rest
  have hcut := cut_cutsTo c (part ++ more)
  rw [hnext] at hcut h
  -- the first character tells words, numbers, strings and signs apart
  cases hcut with
  | blank => exact absurd rfl h
  | openComment | openString => simp
  | word hcs hc _ hrest =>
      have hlength := length_le_of_run hcs (hpart.isWordPart rfl hlexeme hc) hrest
      exact Nat.succ_le_succ hlength
  | integer hcs hdigits hrest | tooLarge hcs hdigits hrest =>
      have hc := hdigits c List.mem_cons_self
      exact Nat.succ_le_succ (length_le_of_run hcs (hpart.isDigit rfl hlexeme hc) hrest)
  | @string q hc hq =>
      -- what is quoted ends at the same quote, wherever the text ends
      subst hc
      refine Nat.succ_le_succ (Nat.le_of_not_lt fun hlt => ?_)
      obtain ⟨hsplit, hfound⟩ := unquote?_eq_some hq
      obtain ⟨between, rfl⟩ : q.text <+: part :=
        List.prefix_of_prefix_length_le ⟨q.rest, hsplit⟩ (List.prefix_append _ _) (Nat.le_of_lt hlt)
      rw [cut_quoted (unquote?_append hfound between)] at halone
      have htext : q.text = q.text ++ between := (List.cons.inj (congrArg Cut.text halone)).2
      rw [← htext] at hlt
      exact Nat.lt_irrefl _ hlt
  | sign hstarts hsign =>
      rcases hpart.symbol? rfl hlexeme hstarts.left with rfl | ⟨_, _, halone⟩
      · obtain ⟨-, _, _, rfl, -⟩ := symbol?_eq_some hsign
        simp
      · obtain ⟨_, _, _, hlonger, hlength⟩ := symbol?_append halone more
        cases hlonger.symm.trans hsign
        exact hlength
  | unexpected hstarts hsign =>
      rcases hpart.symbol? rfl hlexeme hstarts.left with rfl | ⟨_, _, halone⟩
      · exact Nat.le_refl _
      · obtain ⟨_, _, _, hlonger, -⟩ := symbol?_append halone more
        cases hlonger.symm.trans hsign

end Longest

/-! ## Pieces -/

/-- A lexeme and the text that it covers. -/
structure Piece where
  lexeme : Lexeme
  text : List Char

namespace Piece

/-- The token or the fault that stands at `offset`. -/
def result? (offset : Nat) (p : Piece) : Option (Except LexError Token) :=
  match p.lexeme with
  | .blank => none
  | .token kind => some (.ok ⟨kind, offset, offset + width p.text⟩)
  | .fault fault => some (.error ⟨fault, offset, offset + width p.text⟩)

/-- The text of pieces that stand one behind the other. -/
def join (ps : List Piece) : List Char := ps.flatMap text

/-- The tokens and faults among pieces that stand one behind the other from `offset` on. -/
def results : Nat → List Piece → List (Except LexError Token)
  | _, [] => []
  | offset, p :: ps => (p.result? offset).toList ++ results (offset + width p.text) ps

theorem join_cons (p : Piece) (ps : List Piece) : join (p :: ps) = p.text ++ join ps := List.flatMap_cons

end Piece

def Cut.piece (next : Cut) : Piece := ⟨next.lexeme, next.text⟩

theorem width_append (cs ds : List Char) : width (cs ++ ds) = width cs + width ds := by
  induction cs with
  | nil => exact (Nat.zero_add _).symm
  | cons c cs ih => simp [width] at ih ⊢; omega

theorem width_pos {cs : List Char} (h : cs ≠ []) : 0 < width cs := by
  cases cs with
  | nil => exact absurd rfl h
  | cons c cs => exact Nat.lt_of_lt_of_le c.utf8Size_pos (Nat.le_add_right _ _)

theorem Piece.result?_ok {offset : Nat} {p : Piece} {t : Token} (h : p.result? offset = some (.ok t)) :
    p.lexeme = .token t.kind := by
  unfold result? at h
  split at h
  · cases h
  · rename_i hkind
    cases h
    exact hkind
  · cases h

theorem Piece.result?_error {offset : Nat} {p : Piece} {e : LexError} (h : p.result? offset = some (.error e)) :
    p.lexeme = .fault e.fault := by
  unfold result? at h
  split at h
  · cases h
  · cases h
  · rename_i hfault
    cases h
    exact hfault

def resultSpan : Except LexError Token → Span
  | .ok t => t.span
  | .error e => e.span

theorem Piece.resultSpan_eq {offset : Nat} {p : Piece} {r : Except LexError Token}
    (h : p.result? offset = some r) : resultSpan r = ⟨offset, offset + width p.text⟩ := by
  unfold result? at h
  split at h <;> cases h <;> rfl

theorem Piece.results_append (offset : Nat) (ps qs : List Piece) :
    results offset (ps ++ qs) = results offset ps ++ results (offset + width (join ps)) qs := by
  induction ps generalizing offset with
  | nil => rfl
  | cons p ps ih =>
      rw [List.cons_append, results, ih, results, List.append_assoc, join_cons, width_append, ← Nat.add_assoc]

/-- Each token or fault is that of a piece. -/
theorem Piece.mem_results {offset : Nat} {ps : List Piece} {r : Except LexError Token} :
    r ∈ results offset ps ↔
      ∃ before p after, ps = before ++ p :: after ∧ p.result? (offset + width (join before)) = some r := by
  constructor
  · intro h
    induction ps generalizing offset with
    | nil => cases h
    | cons p ps ih =>
        rcases List.mem_append.mp h with h | h
        · exact ⟨[], p, ps, rfl, Option.mem_toList.mp h⟩
        · obtain ⟨before, q, after, rfl, hr⟩ := ih h
          refine ⟨p :: before, q, after, rfl, ?_⟩
          rwa [join_cons, width_append, ← Nat.add_assoc]
  · rintro ⟨before, p, after, rfl, hr⟩
    rw [results_append, results, hr]
    simp

/-! ## Whole texts -/

/-- The results of cutting `cs`, which starts at `offset`. -/
def resultsAt (offset : Nat) (cs : List Char) : List (Except LexError Token) := cutAll cs.length offset cs

theorem cutAll_cons (fuel offset : Nat) (c : Char) (cs : List Char) : cutAll (fuel + 1) offset (c :: cs) =
    ((cut c cs).piece.result? offset).toList ++
      cutAll fuel (offset + width (cut c cs).text) (cut c cs).rest := by
  rw [cutAll, Piece.result?, Cut.piece]
  cases (cut c cs).lexeme <;> rfl

theorem length_rest_lt (c : Char) (cs : List Char) : (cut c cs).rest.length < (c :: cs).length := by
  obtain ⟨hsplit, hne⟩ := (cut_cutsTo c cs).split
  rw [← hsplit, List.length_append]
  exact Nat.lt_add_of_pos_left (List.length_pos_iff.mpr hne)

/-- Fuel beyond the length of the text makes no difference. -/
theorem cutAll_eq {fuel offset : Nat} {cs : List Char} (h : cs.length ≤ fuel) :
    cutAll fuel offset cs = resultsAt offset cs := by
  unfold resultsAt
  generalize hlength : cs.length = n at h ⊢
  have hn := Nat.le_of_eq hlength
  clear hlength
  induction n generalizing fuel offset cs with
  | zero =>
      obtain rfl := List.length_eq_zero_iff.mp (Nat.le_zero.mp hn)
      cases fuel <;> rfl
  | succ n ih =>
      cases cs with
      | nil => cases fuel <;> rfl
      | cons c cs =>
          obtain ⟨fuel, rfl⟩ := Nat.exists_eq_succ_of_ne_zero (Nat.ne_zero_of_lt h)
          have hrest := Nat.le_of_lt_succ (Nat.lt_of_lt_of_le (length_rest_lt c cs) hn)
          rw [cutAll_cons, cutAll_cons, ih (Nat.le_of_succ_le_succ h) hrest]

theorem resultsAt_cons (offset : Nat) (c : Char) (cs : List Char) : resultsAt offset (c :: cs) =
    ((cut c cs).piece.result? offset).toList ++
      resultsAt (offset + width (cut c cs).text) (cut c cs).rest := by
  rw [resultsAt, List.length_cons, cutAll_cons, cutAll_eq (Nat.le_of_lt_succ (length_rest_lt c cs))]

/-- Results cover something, and stand one behind the other. -/
theorem resultsAt_spans (offset : Nat) (cs : List Char) :
    (∀ r ∈ resultsAt offset cs,
      offset ≤ (resultSpan r).start ∧ (resultSpan r).start < (resultSpan r).stop) ∧
      (resultsAt offset cs).Pairwise fun r r' => (resultSpan r).stop ≤ (resultSpan r').start := by
  induction hn : cs.length using Nat.strongRecOn generalizing offset cs with
  | _ n ih =>
      cases cs with
      | nil => exact ⟨fun _ hr => absurd hr List.not_mem_nil, .nil⟩
      | cons c cs =>
          obtain ⟨hspans, hpairwise⟩ := ih _ (hn ▸ length_rest_lt c cs)
            (offset + width (cut c cs).text) (cut c cs).rest rfl
          have hwidth := width_pos (cut_cutsTo c cs).split.2
          have hfirst : ∀ r ∈ ((cut c cs).piece.result? offset).toList,
              resultSpan r = ⟨offset, offset + width (cut c cs).text⟩ := fun r hr =>
            Piece.resultSpan_eq (Option.mem_toList.mp hr)
          rw [resultsAt_cons]
          constructor
          · intro r hr
            rcases List.mem_append.mp hr with hr | hr
            · rw [hfirst r hr]
              exact ⟨Nat.le_refl _, Nat.lt_add_of_pos_right hwidth⟩
            · exact ⟨Nat.le_trans (Nat.le_add_right _ _) (hspans r hr).1, (hspans r hr).2⟩
          · refine List.pairwise_append.mpr ⟨?_, hpairwise, fun r hr r' hr' => ?_⟩
            · cases (cut c cs).piece.result? offset with
              | none => exact .nil
              | some r => exact List.pairwise_singleton _ r
            · rw [hfirst r hr]
              exact (hspans r' hr').1

/-- Tokens and faults keep the order of the results. -/
theorem ok_tokensOf_sublist (rs : List (Except LexError Token)) :
    List.Sublist ((tokensOf rs).map .ok) rs ∧ List.Sublist ((errorsOf rs).map .error) rs := by
  induction rs with
  | nil => exact ⟨.slnil, .slnil⟩
  | cons r rs ih =>
      cases r with
      | ok t => exact ⟨ih.1.cons_cons _, ih.2.cons _⟩
      | error e => exact ⟨ih.1.cons _, ih.2.cons_cons _⟩

theorem mem_tokensOf {rs : List (Except LexError Token)} {t : Token} : t ∈ tokensOf rs ↔ .ok t ∈ rs :=
  ⟨fun h => (ok_tokensOf_sublist rs).1.subset (List.mem_map_of_mem h),
    fun h => List.mem_filterMap.mpr ⟨_, h, rfl⟩⟩

theorem mem_errorsOf {rs : List (Except LexError Token)} {e : LexError} : e ∈ errorsOf rs ↔ .error e ∈ rs :=
  ⟨fun h => (ok_tokensOf_sublist rs).2.subset (List.mem_map_of_mem h),
    fun h => List.mem_filterMap.mpr ⟨_, h, rfl⟩⟩

/-- Without faults, all results are tokens. -/
theorem map_ok_tokensOf {rs : List (Except LexError Token)} (h : errorsOf rs = []) :
    (tokensOf rs).map .ok = rs := by
  induction rs with
  | nil => rfl
  | cons r rs ih =>
      cases r with
      | ok t => exact congrArg (_ :: ·) (ih h)
      | error e => cases h

end Lexer

open Lexer

/-- The tokens stand one behind the other, and none of them is empty. -/
structure Laid (ts : List Token) : Prop where
  solid : ∀ t ∈ ts, t.span.start < t.span.stop
  apart : ts.Pairwise fun t u => t.span.stop ≤ u.span.start

theorem Laid.starts_nodup {ts : List Token} (h : Laid ts) : (ts.map (·.span.start)).Nodup := by
  refine List.pairwise_map.mpr (h.apart.imp_of_mem fun ht _ htu => ?_)
  exact Nat.ne_of_lt (Nat.lt_of_lt_of_le (h.solid _ ht) htu)

theorem Laid.stops_nodup {ts : List Token} (h : Laid ts) : (ts.map (·.span.stop)).Nodup := by
  refine List.pairwise_map.mpr (h.apart.imp_of_mem fun _ hu htu => ?_)
  exact Nat.ne_of_lt (Nat.lt_of_le_of_lt htu (h.solid _ hu))

/-- The two ways in which cutting a whole text can end. -/
theorem lex_cases (source : String) :
    let results := resultsAt 0 source.toList
    lex source = .ok ⟨tokensOf results, width source.toList⟩ ∧ errorsOf results = [] ∨
      lex source = .error (errorsOf results) ∧ errorsOf results ≠ [] := by
  intro results
  unfold lex
  dsimp only
  split
  · rename_i h
    exact .inl ⟨rfl, h⟩
  · rename_i h
    exact .inr ⟨rfl, h⟩

theorem lex_laid {source : String} {input : TokenStream} (h : lex source = .ok input) :
    Laid input.tokens := by
  obtain ⟨hspans, hapart⟩ := resultsAt_spans 0 source.toList
  rcases lex_cases source with ⟨hok, -⟩ | ⟨herror, -⟩
  · cases h.symm.trans hok
    exact ⟨fun t ht => (hspans _ (mem_tokensOf.mp ht)).2,
      List.pairwise_map.mp (hapart.sublist (ok_tokensOf_sublist _).1)⟩
  · cases h.symm.trans herror

/-! ## Texts of one lexeme -/

namespace Lexer

/-- The text by itself is cut into this one token or fault. -/
def Lexeme.Alone (text : List Char) : Lexeme → Prop
  | .blank => False
  | .token kind => lex (String.ofList text) = .ok ⟨[⟨kind, 0, width text⟩], width text⟩
  | .fault f => lex (String.ofList text) = .error [⟨f, 0, width text⟩]

/-- A token or a fault that covers the whole text is all that the text is cut into. -/
theorem exists_cut_of_mem {text : List Char} {r : Except LexError Token} (hr : r ∈ resultsAt 0 text)
    (hspan : resultSpan r = ⟨0, width text⟩) :
    ∃ c cs, text = c :: cs ∧ (cut c cs).piece.result? 0 = some r ∧
      cut c cs = ⟨(cut c cs).lexeme, c :: cs, []⟩ := by
  cases text with
  | nil => cases hr
  | cons c cs =>
      obtain ⟨hsplit, hne⟩ := (cut_cutsTo c cs).split
      have hwidth := width_pos hne
      rw [resultsAt_cons] at hr
      have hfirst : (cut c cs).piece.result? 0 = some r := by
        rcases List.mem_append.mp hr with hr | hr
        · exact Option.mem_toList.mp hr
        · have hle := ((resultsAt_spans _ _).1 r hr).1
          rw [hspan] at hle
          exact absurd hle (by simpa using Nat.ne_of_gt hwidth)
      have hstop : width (c :: cs) = 0 + width (cut c cs).text :=
        congrArg Span.stop (hspan.symm.trans (Piece.resultSpan_eq hfirst))
      rw [← hsplit, width_append] at hstop
      have hrest : (cut c cs).rest = [] :=
        Classical.byContradiction fun hrest => absurd (width_pos hrest) (by omega)
      have htext : (cut c cs).text = c :: cs := by rw [← hsplit, hrest, List.append_nil]
      refine ⟨c, cs, rfl, hfirst, ?_⟩
      rw [← htext, ← hrest]

theorem Lexeme.alone_iff {lexeme : Lexeme} {text : List Char} : lexeme.Alone text ↔
    lexeme ≠ .blank ∧ ∃ c cs, text = c :: cs ∧ cut c cs = ⟨lexeme, c :: cs, []⟩ := by
  have hcases := lex_cases (String.ofList text)
  rw [String.toList_ofList] at hcases
  dsimp only at hcases
  constructor
  · intro h
    cases lexeme with
    | blank => exact h.elim
    | token kind =>
        rcases hcases with ⟨hok, -⟩ | ⟨herror, -⟩
        · have htokens : tokensOf (resultsAt 0 text) = [⟨kind, 0, width text⟩] :=
            congrArg TokenStream.tokens (Except.ok.inj (hok.symm.trans h))
          have hmem := mem_tokensOf.mp (htokens ▸ List.mem_singleton_self _)
          obtain ⟨c, cs, rfl, hresult, hcut⟩ := exists_cut_of_mem hmem rfl
          have hlexeme : (cut c cs).lexeme = _ := Piece.result?_ok hresult
          exact ⟨by simp, c, cs, rfl, hlexeme ▸ hcut⟩
        · cases herror.symm.trans h
    | fault f =>
        rcases hcases with ⟨hok, -⟩ | ⟨herror, -⟩
        · cases hok.symm.trans h
        · have herrors := Except.error.inj (herror.symm.trans h)
          have hmem := mem_errorsOf.mp (herrors ▸ List.mem_singleton_self _)
          obtain ⟨c, cs, rfl, hresult, hcut⟩ := exists_cut_of_mem hmem rfl
          have hlexeme : (cut c cs).lexeme = _ := Piece.result?_error hresult
          exact ⟨by simp, c, cs, rfl, hlexeme ▸ hcut⟩
  · rintro ⟨hlexeme, c, cs, rfl, hcut⟩
    have hresults : resultsAt 0 (c :: cs) = (Piece.result? 0 ⟨lexeme, c :: cs⟩).toList := by
      rw [resultsAt_cons, hcut]
      exact List.append_nil _
    rw [hresults] at hcases
    cases lexeme with
    | blank => exact absurd rfl hlexeme
    | token kind =>
        rcases hcases with ⟨hok, -⟩ | ⟨-, herrors⟩
        · simpa [Alone, Piece.result?, tokensOf] using hok
        · exact absurd rfl herrors
    | fault f =>
        rcases hcases with ⟨-, herrors⟩ | ⟨herror, -⟩
        · cases herrors
        · simpa [Alone, Piece.result?, errorsOf] using herror

/-! ## Divisions of a text -/

/-- The piece stands in front of `rest` as it should. A token or a fault stands where no blank or comment can be
read, and no longer text at this place is one by itself. -/
inductive Piece.Fits : Piece → List Char → Prop
  | blank {text rest : List Char} : Trivia text rest → Fits ⟨.blank, text⟩ rest
  | solid {lexeme : Lexeme} {text rest : List Char} : lexeme.Alone text →
      (∀ blank after, blank ++ after = text ++ rest → ¬ Trivia blank after) →
      (∀ longer, longer <+: text ++ rest → ∀ lexeme' : Lexeme, lexeme'.Alone longer →
        longer.length ≤ text.length) → Fits ⟨lexeme, text⟩ rest

/-- The text is made of the pieces, one behind the other. -/
inductive Tiles : List Char → List Piece → Prop
  | nil : Tiles [] []
  | cons {p : Piece} {rest : List Char} {ps : List Piece} : p.Fits rest → Tiles rest ps →
      Tiles (p.text ++ rest) (p :: ps)

theorem Tiles.join_eq {cs : List Char} {ps : List Piece} (h : Tiles cs ps) : Piece.join ps = cs := by
  induction h with
  | nil => rfl
  | cons _ _ ih => rw [Piece.join_cons, ih]

theorem Tiles.fits {cs : List Char} {before after : List Piece} {p : Piece}
    (h : Tiles cs (before ++ p :: after)) : p.Fits (Piece.join after) := by
  induction before generalizing cs with
  | nil =>
      cases h with
      | cons hfits h => exact h.join_eq ▸ hfits
  | cons q before ih =>
      cases h with
      | cons _ h => exact ih h

/-- What is cut off fits. -/
theorem cut_fits (c : Char) (cs : List Char) : (cut c cs).piece.Fits (cut c cs).rest := by
  obtain ⟨hsplit, -⟩ := (cut_cutsTo c cs).split
  by_cases hblank : (cut c cs).lexeme = .blank
  · have htrivia := (cut_cutsTo c cs).trivia hblank
    rw [Cut.piece, hblank]
    exact .blank htrivia
  · obtain ⟨d, part, htext, halone⟩ := cut_alone hblank
    refine .solid (Lexeme.alone_iff.mpr ⟨hblank, d, part, htext, halone⟩) ?_ ?_
    · intro blank after heq htrivia
      have hsome := htrivia.isSome_blank?
      rw [heq, hsplit, blank?_eq_none_of_cut hblank] at hsome
      cases hsome
    · intro longer hprefix lexeme' halone'
      obtain ⟨hlexeme', d', part', rfl, hcut⟩ := Lexeme.alone_iff.mp halone'
      rw [hsplit] at hprefix
      obtain ⟨rfl, more, rfl⟩ := List.cons_prefix_cons.mp hprefix
      exact cut_longest hblank hcut hlexeme'

theorem exists_tiles (cs : List Char) : ∃ ps, Tiles cs ps := by
  induction hn : cs.length using Nat.strongRecOn generalizing cs with
  | _ n ih =>
      cases cs with
      | nil => exact ⟨[], .nil⟩
      | cons c cs =>
          obtain ⟨ps, hps⟩ := ih _ (hn ▸ length_rest_lt c cs) _ rfl
          have htiles := Tiles.cons (cut_fits c cs) hps
          rw [Cut.piece, (cut_cutsTo c cs).split.1] at htiles
          exact ⟨_, htiles⟩

theorem cut_blank {c : Char} (hc : isBlank c = true) (cs : List Char) :
    cut c cs = ⟨.blank, c :: cs.takeWhile isBlank, cs.dropWhile isBlank⟩ := by
  simp [cut, blank?, hc]

theorem resultsAt_blank {c : Char} (hc : isBlank c = true) (offset : Nat) (cs : List Char) :
    resultsAt offset (c :: cs) = resultsAt (offset + c.utf8Size) cs := by
  rw [resultsAt_cons, cut_blank hc]
  cases cs with
  | nil => rfl
  | cons d cs =>
      by_cases hd : isBlank d = true
      · rw [resultsAt_cons (offset + c.utf8Size), cut_blank hd]
        simp [Cut.piece, Piece.result?, hd, width, Nat.add_assoc]
      · simp [Cut.piece, Piece.result?, hd, width]

/-- Blanks and comments give no results, however blanks are grouped. -/
theorem Trivia.resultsAt_eq {text rest : List Char} (h : Trivia text rest) (offset : Nat) :
    resultsAt offset (text ++ rest) = resultsAt (offset + width text) rest := by
  rcases h.blank?_eq with hblank | heq
  · clear h
    induction text generalizing offset with
    | nil => rfl
    | cons c cs ih =>
        rw [List.forall_mem_cons] at hblank
        rw [List.cons_append, resultsAt_blank hblank.1, ih _ hblank.2, Nat.add_assoc]
        rfl
  · obtain ⟨c, cs, rfl⟩ := List.exists_cons_of_ne_nil h.ne_nil
    have hcut : cut c (cs ++ rest) = ⟨.blank, c :: cs, rest⟩ := by
      rw [cut, ← List.cons_append, heq]
    rw [List.cons_append, resultsAt_cons, hcut]
    rfl

/-- All divisions of a text have the same tokens and faults, which are those that cutting gives. -/
theorem Tiles.results_eq {cs : List Char} {ps : List Piece} (h : Tiles cs ps) (offset : Nat) :
    Piece.results offset ps = resultsAt offset cs := by
  induction h generalizing offset with
  | nil => rfl
  | @cons p rest ps hfits _ ih =>
      rw [Piece.results, ih]
      cases hfits with
      | blank htrivia =>
          rw [htrivia.resultsAt_eq]
          rfl
      | @solid lexeme text _ halone hblank hlongest =>
          obtain ⟨hlexeme, c, cs, rfl, hcut⟩ := Lexeme.alone_iff.mp halone
          obtain ⟨hsplit, -⟩ := (cut_cutsTo c (cs ++ rest)).split
          have hsolid : (cut c (cs ++ rest)).lexeme ≠ .blank := fun h =>
            hblank _ _ hsplit ((cut_cutsTo c (cs ++ rest)).trivia h)
          -- each of the two is the longest, so they are the same
          obtain ⟨d, part, htext, hfound⟩ := cut_alone hsolid
          have hshort := hlongest _ ⟨_, hsplit⟩ _ (Lexeme.alone_iff.mpr ⟨hsolid, d, part, htext, hfound⟩)
          have hlength := Nat.le_antisymm hshort (cut_longest hsolid hcut hlexeme)
          obtain ⟨hsame, hrest⟩ := List.append_inj hsplit hlength
          obtain ⟨rfl, rfl⟩ := List.cons.inj (hsame.symm.trans htext)
          have hkind : (cut c (cs ++ rest)).lexeme = lexeme := congrArg Cut.lexeme (hfound.symm.trans hcut)
          rw [List.cons_append, resultsAt_cons, Cut.piece, hsame, hrest, hkind]

end Lexer

/-! ## The text of a lexeme -/

/-- The span is that of `text` in the source. -/
def Span.Marks (span : Span) (source text : String) : Prop :=
  ∃ before after, source = before ++ text ++ after ∧
    span = ⟨before.utf8ByteSize, before.utf8ByteSize + text.utf8ByteSize⟩

theorem Lexer.width_eq (cs : List Char) : width cs = (String.ofList cs).utf8ByteSize := by
  induction cs with
  | nil => rfl
  | cons c cs ih =>
      rw [← List.singleton_append, String.ofList_append, String.utf8ByteSize_append, ← ih]
      simp [width]

/-- Where a piece of a text stands, and what it is by itself. -/
theorem Lexer.Tiles.piece {source : String} {before after : List Piece} {p : Piece}
    (h : Tiles source.toList (before ++ p :: after)) {r : Except LexError Token}
    (hr : p.result? (width (Piece.join before)) = some r) :
    (resultSpan r).Marks source (String.ofList p.text) ∧
      ∃ c cs, p.text = c :: cs ∧ cut c cs = ⟨p.lexeme, c :: cs, []⟩ := by
  have hjoin := h.join_eq
  rw [Piece.join, List.flatMap_append, List.flatMap_cons, ← List.append_assoc] at hjoin
  have hsource : source = String.ofList (Piece.join before) ++ String.ofList p.text ++
      String.ofList (Piece.join after) := by
    rw [← String.ofList_append, ← String.ofList_append, ← String.ofList_toList (s := source), ← hjoin]
    rfl
  refine ⟨⟨_, _, hsource, by rw [Piece.resultSpan_eq hr, width_eq, width_eq]⟩, ?_⟩
  cases h.fits with
  | blank => cases hr
  | solid halone => exact (Lexeme.alone_iff.mp halone).2

/-- The tokens of a text. -/
structure Tokenized (source : String) (input : TokenStream) : Prop where
  stop : input.stop = source.utf8ByteSize
  /-- The text is made of the tokens and of the blanks and comments between them. -/
  tiled : ∃ pieces, Tiles source.toList pieces ∧ Piece.results 0 pieces = input.tokens.map .ok
  laid : Laid input.tokens
  /-- Each token covers a text that is this token by itself, and an integer has the value that it shows. -/
  alone : ∀ t ∈ input.tokens, ∃ text, t.span.Marks source text ∧
    lex text = .ok ⟨[⟨t.kind, 0, text.utf8ByteSize⟩], text.utf8ByteSize⟩ ∧
    ∀ value, t.kind = .integer value →
      (∀ d ∈ text.toList, d.isDigit) ∧ value = Nat.ofDigitChars 10 text.toList 0

/-- The results of cutting a text, by the pieces of a division. -/
theorem Lexer.Tiles.mem_resultsAt {source : String} {ps : List Piece} (h : Tiles source.toList ps)
    {r : Except LexError Token} : r ∈ resultsAt 0 source.toList ↔
      ∃ before p after, ps = before ++ p :: after ∧ p.result? (width (Piece.join before)) = some r := by
  rw [← h.results_eq, Piece.mem_results]
  simp only [Nat.zero_add]

theorem lex_tokenized {source : String} {input : TokenStream} (h : lex source = .ok input) :
    Tokenized source input := by
  have hlaid := lex_laid h
  obtain ⟨ps, hps⟩ := exists_tiles source.toList
  rcases lex_cases source with ⟨hok, hclean⟩ | ⟨herror, -⟩
  · cases h.symm.trans hok
    have hwidth : width source.toList = source.utf8ByteSize := by rw [width_eq, String.ofList_toList]
    refine ⟨hwidth, ⟨ps, hps, ?_⟩, hlaid, fun t ht => ?_⟩
    · rw [hps.results_eq]
      exact (map_ok_tokensOf hclean).symm
    · obtain ⟨before, p, after, rfl, hr⟩ := hps.mem_resultsAt.mp (mem_tokensOf.mp ht)
      obtain ⟨hmarks, c, cs, htext, hcut⟩ := hps.piece hr
      have hkind := Piece.result?_ok hr
      rw [hkind, ← htext] at hcut
      have halone : Lexeme.Alone p.text (.token t.kind) :=
        Lexeme.alone_iff.mpr ⟨by simp, c, cs, htext, htext ▸ hcut⟩
      refine ⟨_, hmarks, width_eq p.text ▸ halone, fun value hvalue => ?_⟩
      have hlexeme : (cut c cs).lexeme = .token (.integer value) := by rw [hcut, hvalue]
      have hinteger := (cut_cutsTo c cs).integer_text hlexeme
      rwa [String.toList_ofList, ← show (cut c cs).text = p.text by rw [hcut]]
  · cases h.symm.trans herror

/-- Text that is written between quotes is read back, whatever it holds and whatever follows: the literal is the
first token, it stands for the text, and cutting goes on right behind the closing quote. -/
theorem cutAll_quoted (value rest : String) :
    let text := (TokenKind.string value).text
    text.toList = '"' :: (Quoted.escape value.toList ++ ['"']) ∧
    Quoted.unquote? (Quoted.escape value.toList ++ '"' :: rest.toList) =
      some ⟨value.toList, Quoted.escape value.toList ++ ['"'], rest.toList⟩ ∧
    cut '"' (Quoted.escape value.toList ++ '"' :: rest.toList) =
      ⟨.token (.string value), text.toList, rest.toList⟩ ∧
    cutAll (text ++ rest).toList.length 0 (text ++ rest).toList =
      .ok ⟨.string value, 0, text.utf8ByteSize⟩ ::
        cutAll rest.toList.length text.utf8ByteSize rest.toList := by
  intro text
  have htext : text.toList = '"' :: (Quoted.escape value.toList ++ ['"']) := by
    simp [text, TokenKind.text]
  have hcut := cut_string value.toList rest.toList
  rw [String.ofList_toList, ← htext] at hcut
  refine ⟨htext, unquote?_escape _ _, hcut, ?_⟩
  have hsource : (text ++ rest).toList = '"' :: (Quoted.escape value.toList ++ '"' :: rest.toList) := by
    simp [htext]
  have hwidth : width text.toList = text.utf8ByteSize := by rw [width_eq, String.ofList_toList]
  have hlength := ((List.suffix_cons '"' rest.toList).trans
    (List.suffix_append (Quoted.escape value.toList) _)).length_le
  rw [hsource, List.length_cons, cutAll_cons, hcut]
  simp only [Cut.piece, Piece.result?, hwidth, Nat.zero_add, Option.toList_some, List.singleton_append]
  rw [cutAll_eq hlength]
  rfl

end CoolTyping
