import CoolTyping.Token.Lexer

/-!
# Texts that are cut as they were written

Every token that is found in a text can be written, and a text of written tokens is cut into the same
tokens, provided that no token is followed by a character that it would take in.
-/

namespace CoolTyping

namespace Lexer

/-! ## What can stand at the front of a text -/

/-- No token but a sign can start with `c`, and no comment is opened here. -/
structure StartsSign (c : Char) (cs : List Char) : Prop where
  quote : c ≠ '"'
  alpha : c.isAlpha = false
  digit : c.isDigit = false
  comment : c = '(' → cs.head? ≠ some '*'

/-- All that can be cut off the front of `c :: cs`, and where. -/
inductive CutsTo (c : Char) (cs : List Char) : Cut → Prop
  | blank {text rest : List Char} : blank? (c :: cs) = some (text, rest) → CutsTo c cs ⟨.blank, text, rest⟩
  | openComment : c = '(' → cs.head? = some '*' → CutsTo c cs ⟨.fault .openComment, c :: cs, []⟩
  | string {q : Quoted.Found} : c = '"' → Quoted.unquote? cs = some q →
      CutsTo c cs ⟨.token (.string (String.ofList q.value)), c :: q.text, q.rest⟩
  | openString : c = '"' → Quoted.unquote? cs = none → CutsTo c cs ⟨.fault .openString, c :: cs, []⟩
  | word {part rest : List Char} : cs = part ++ rest → c.isAlpha → (∀ d ∈ part, isWordPart d) →
      (∀ d ∈ rest.head?, ¬ isWordPart d) →
      CutsTo c cs ⟨.token (wordKind (c :: part)), c :: part, rest⟩
  | integer {part rest : List Char} : cs = part ++ rest → (∀ d ∈ c :: part, d.isDigit) →
      (∀ d ∈ rest.head?, ¬ d.isDigit) → decimal (c :: part) ≤ maxInteger →
      CutsTo c cs ⟨.token (.integer (decimal (c :: part))), c :: part, rest⟩
  | tooLarge {part rest : List Char} : cs = part ++ rest → (∀ d ∈ c :: part, d.isDigit) →
      (∀ d ∈ rest.head?, ¬ d.isDigit) → maxInteger < decimal (c :: part) →
      CutsTo c cs ⟨.fault .integerTooLarge, c :: part, rest⟩
  | sign {sign : Symbol} {text rest : List Char} : StartsSign c cs →
      symbol? (c :: cs) = some (sign, text, rest) → CutsTo c cs ⟨.token (.symbol sign), text, rest⟩
  | unexpected : StartsSign c cs → symbol? (c :: cs) = none → CutsTo c cs ⟨.fault (.unexpected c), [c], cs⟩

theorem cut_cutsTo (c : Char) (cs : List Char) : CutsTo c cs (cut c cs) := by
  have hrun : ∀ p : Char → Bool, cs = cs.takeWhile p ++ cs.dropWhile p ∧ (∀ d ∈ cs.takeWhile p, p d) ∧
      ∀ d ∈ (cs.dropWhile p).head?, ¬ p d := by
    intro p
    refine ⟨List.takeWhile_append_dropWhile.symm, List.all_eq_true.mp List.all_takeWhile, fun d hd => ?_⟩
    have hhead := List.head?_dropWhile_not p cs
    rw [Option.mem_def.mp hd] at hhead
    simpa using hhead
  unfold cut
  split
  · rename_i hblank
    exact .blank hblank
  unfold cutSolid
  split
  · rename_i hopen
    simp only [Bool.and_eq_true, beq_iff_eq] at hopen
    exact .openComment hopen.1 hopen.2
  rename_i hcomment
  split
  · rename_i hquote
    split
    · rename_i hfound
      exact .string (by simpa using hquote) hfound
    · rename_i hopen
      exact .openString (by simpa using hquote) hopen
  rename_i hquote
  split
  · rename_i hc
    exact .word (hrun isWordPart).1 hc (hrun isWordPart).2.1 (hrun isWordPart).2.2
  rename_i halpha
  split
  · rename_i hc
    obtain ⟨hsplit, htake, hdrop⟩ := hrun Char.isDigit
    have hdigits : ∀ d ∈ c :: cs.takeWhile Char.isDigit, d.isDigit := List.forall_mem_cons.mpr ⟨hc, htake⟩
    dsimp only
    split
    · rename_i hvalue
      exact .integer hsplit hdigits hdrop hvalue
    · rename_i hvalue
      exact .tooLarge hsplit hdigits hdrop (Nat.lt_of_not_le hvalue)
  · rename_i hdigit
    have hstarts : StartsSign c cs := ⟨by simpa using hquote, by simpa using halpha, by simpa using hdigit,
      by simpa using hcomment⟩
    split
    · rename_i hsign
      exact .sign hstarts hsign
    · rename_i hnone
      exact .unexpected hstarts hnone

/-! ## Tokens that can be written -/

/-- A token that some text is cut into. -/
def Readable (kind : TokenKind) : Prop :=
  match kind with
  | .typeName _ | .identifier _ | .keyword _ =>
    ∃ c cs, kind.text.toList = c :: cs ∧ c.isAlpha ∧ (∀ d ∈ cs, isWordPart d) ∧
      wordKind (c :: cs) = kind
  | .integer value => value ≤ maxInteger
  | .string _ | .symbol _ => True

theorem readable_keyword (k : Keyword) : Readable (.keyword k) := by
  cases k <;> exact ⟨_, _, rfl, by decide, List.all_eq_true.mp (by decide), by decide⟩

theorem readable_wordKind {c : Char} {cs : List Char} (hc : c.isAlpha) (hcs : ∀ d ∈ cs, isWordPart d) :
    Readable (wordKind (c :: cs)) := by
  cases hword : Keyword.ofText? (String.ofList (c :: cs)) with
  | some k =>
      simp only [wordKind, hword]
      exact readable_keyword k
  | none =>
      cases hupper : c.isUpper with
      | true =>
          simp only [wordKind, hword, hupper]
          exact ⟨c, cs, by simp [TokenKind.text], hc, hcs, by simp only [wordKind, hword, hupper]⟩
      | false =>
          simp only [wordKind, hword, hupper]
          exact ⟨c, cs, by simp [TokenKind.text], hc, hcs, by simp only [wordKind, hword, hupper]⟩

theorem CutsTo.readable {c : Char} {cs : List Char} {next : Cut} (h : CutsTo c cs next) {kind : TokenKind}
    (hkind : next.lexeme = .token kind) : Readable kind := by
  cases h with
  | word _ hc hpart =>
      cases hkind
      exact readable_wordKind hc hpart
  | integer _ _ _ hvalue =>
      cases hkind
      exact hvalue
  | string => cases hkind; trivial
  | sign => cases hkind; trivial
  | _ => cases hkind

/-- Every token of a text was cut off somewhere in it. -/
theorem cutAll_mem {fuel offset : Nat} {cs : List Char} {t : Token}
    (ht : .ok t ∈ cutAll fuel offset cs) : ∃ c cs', (cut c cs').lexeme = .token t.kind := by
  induction fuel generalizing offset cs with
  | zero => simp [cutAll] at ht
  | succ fuel ih =>
      cases cs with
      | nil => simp [cutAll] at ht
      | cons c cs =>
          unfold cutAll at ht
          dsimp only at ht
          split at ht
          · exact ih ht
          · rename_i kind hkind
            rcases List.mem_cons.mp ht with heq | ht
            · cases heq
              exact ⟨c, cs, hkind⟩
            · exact ih ht
          · rcases List.mem_cons.mp ht with heq | ht
            · cases heq
            · exact ih ht

/-! ## Cutting one token -/

/-- The characters that a token would take in if they followed it, or with which it would start
something else. -/
def Swallows (kind : TokenKind) (d : Char) : Prop :=
  match kind with
  | .typeName _ | .identifier _ | .keyword _ => isWordPart d
  | .integer _ => d.isDigit
  | .string _ => False
  | .symbol .lt => d = '-' ∨ d = '='
  | .symbol .eq => d = '>'
  | .symbol .minus => d = '-' ∨ d = '>'
  | .symbol .lparen => d = '*'
  | .symbol _ => False

/-- Where a run of characters of one kind ends. -/
theorem span_of_not_head {p : Char → Bool} {cs rest : List Char} (hcs : ∀ d ∈ cs, p d)
    (hrest : ∀ d ∈ rest.head?, ¬ p d) :
    (cs ++ rest).takeWhile p = cs ∧ (cs ++ rest).dropWhile p = rest := by
  rw [List.takeWhile_append_of_pos hcs, List.dropWhile_append_of_pos hcs]
  cases rest with
  | nil => simp
  | cons d rest =>
      have hd : p d = false := by simpa using hrest d rfl
      simp [hd]

theorem blank?_eq_none {c : Char} {cs : List Char} (hblank : isBlank c = false)
    (hminus : c = '-' → cs.head? ≠ some '-') (hparen : c = '(' → cs.head? ≠ some '*') :
    blank? (c :: cs) = none := by
  have hline : lineComment? (c :: cs) = none := by
    unfold lineComment?
    split
    · rename_i heq
      cases heq
      exact absurd rfl (hminus rfl)
    · rfl
  have hblock : blockComment? (c :: cs) = none := by
    unfold blockComment?
    split
    · rename_i heq
      cases heq
      exact absurd rfl (hparen rfl)
    · rfl
  simp [blank?, hblank, hline, hblock]

/-- Most characters stand for themselves. -/
theorem unquote?_plain {c : Char} {cs : List Char} (hquote : c ≠ '"') (hslash : c ≠ '\\')
    (hnewline : c ≠ '\n') :
    Quoted.unquote? (c :: cs) = (Quoted.unquote? cs).map (Quoted.Found.cons c [c]) := by
  rw [Quoted.unquote?.eq_def]
  split
  · rename_i heq
    cases heq
  · rename_i heq
    exact absurd (List.cons.inj heq).1 hquote
  · rename_i heq
    exact absurd (List.cons.inj heq).1 hslash
  · rename_i heq
    exact absurd (List.cons.inj heq).1 hslash
  · rename_i heq
    cases heq
    rw [if_neg hnewline]

theorem unquote?_escape (value rest : List Char) :
    Quoted.unquote? (Quoted.escape value ++ '"' :: rest) =
      some ⟨value, Quoted.escape value ++ ['"'], rest⟩ := by
  induction value with
  | nil => rfl
  | cons c cs ih =>
      -- an escaped character is read back as itself, and the others are read as they are
      have hescaped : ∀ d, Quoted.unescape d = c →
          Quoted.unquote? ('\\' :: d :: (Quoted.escape cs ++ '"' :: rest)) =
            some ⟨c :: cs, '\\' :: d :: (Quoted.escape cs ++ ['"']), rest⟩ := by
        intro d hd
        rw [Quoted.unquote?, ih]
        simp [Quoted.Found.cons, hd]
      unfold Quoted.escape
      split
      · exact hescaped _ (by subst c; decide)
      split
      · exact hescaped _ (by subst c; decide)
      split
      · exact hescaped _ (by subst c; decide)
      split
      · exact hescaped _ (by subst c; decide)
      rename_i hnewline _ hquote hslash
      rw [List.cons_append, unquote?_plain hquote hslash hnewline, ih]
      rfl

/-- A letter or digit starts neither a blank nor a comment nor a string. -/
theorem cut_alphanum {c : Char} (hc : c.isAlphanum) (cs : List Char) :
    isBlank c = false ∧ cut c cs = cutSolid c cs ∧ c ≠ '(' ∧ c ≠ '"' := by
  have hne : ∀ d : Char, d.isAlphanum = false → c ≠ d := by
    rintro d hd rfl
    simp [hd] at hc
  have hblank : isBlank c = false := by
    simp [isBlank, hne ' ' (by decide), hne '\t' (by decide), hne '\r' (by decide),
      hne '\n' (by decide)]
  have hnone : blank? (c :: cs) = none :=
    blank?_eq_none hblank (fun h => absurd h (hne _ (by decide))) (fun h => absurd h (hne _ (by decide)))
  exact ⟨hblank, by simp [cut, hnone], hne _ (by decide), hne _ (by decide)⟩

theorem cut_word {c : Char} {cs rest : List Char} (hc : c.isAlpha) (hcs : ∀ d ∈ cs, isWordPart d)
    (hrest : ∀ d ∈ rest.head?, ¬ isWordPart d) :
    cut c (cs ++ rest) = ⟨.token (wordKind (c :: cs)), c :: cs, rest⟩ := by
  obtain ⟨-, hcut, hparen, hquote⟩ := cut_alphanum (c := c) (by simp [Char.isAlphanum, hc]) (cs ++ rest)
  obtain ⟨htake, hdrop⟩ := span_of_not_head hcs hrest
  simp [hcut, cutSolid, hparen, hquote, hc, htake, hdrop]

theorem isAlpha_of_isDigit {c : Char} (hc : c.isDigit) : c.isAlpha = false := by
  delta Char.isDigit at hc
  delta Char.isAlpha Char.isUpper Char.isLower
  simp only [ge_iff_le, UInt32.le_iff_toNat_le, Bool.and_eq_true, decide_eq_true_eq,
    Bool.or_eq_false_iff, Bool.and_eq_false_iff, decide_eq_false_iff_not] at hc ⊢
  simp at hc ⊢
  omega

/-- A run of digits is cut off whole, and its value decides what it is. -/
theorem cut_digits {c : Char} {cs rest : List Char} (hdigits : ∀ d ∈ c :: cs, d.isDigit)
    (hrest : ∀ d ∈ rest.head?, ¬ d.isDigit) :
    cut c (cs ++ rest) =
      if decimal (c :: cs) ≤ maxInteger then ⟨.token (.integer (decimal (c :: cs))), c :: cs, rest⟩
      else ⟨.fault .integerTooLarge, c :: cs, rest⟩ := by
  have hc : c.isDigit := hdigits c List.mem_cons_self
  obtain ⟨-, hcut, hparen, hquote⟩ := cut_alphanum (c := c) (by simp [Char.isAlphanum, hc]) (cs ++ rest)
  obtain ⟨htake, hdrop⟩ := span_of_not_head (fun d hd => hdigits d (List.mem_cons_of_mem _ hd)) hrest
  simp [hcut, cutSolid, hparen, hquote, isAlpha_of_isDigit hc, hc, htake, hdrop]

theorem cut_integer {value : Nat} (hvalue : value ≤ maxInteger) {c : Char} {cs rest : List Char}
    (htext : Nat.toDigits 10 value = c :: cs) (hrest : ∀ d ∈ rest.head?, ¬ d.isDigit) :
    cut c (cs ++ rest) = ⟨.token (.integer value), c :: cs, rest⟩ := by
  have hdigits : ∀ d ∈ c :: cs, d.isDigit := fun d hd =>
    Nat.isDigit_of_mem_toDigits (by decide) (by decide) (htext ▸ hd)
  have hdecimal : decimal (c :: cs) = value := by
    rw [← htext]
    exact Nat.ofDigitChars_ten_toDigits
  rw [cut_digits hdigits hrest, hdecimal, if_pos hvalue]

theorem cut_quoted {cs : List Char} {q : Quoted.Found} (h : Quoted.unquote? cs = some q) :
    cut '"' cs = ⟨.token (.string (String.ofList q.value)), '"' :: q.text, q.rest⟩ := by
  have hnone : blank? ('"' :: cs) = none := blank?_eq_none (by decide) (by simp) (by simp)
  simp [cut, hnone, cutSolid, h]

theorem cut_string (value rest : List Char) :
    cut '"' (Quoted.escape value ++ '"' :: rest) =
      ⟨.token (.string (String.ofList value)), '"' :: (Quoted.escape value ++ ['"']), rest⟩ :=
  cut_quoted (unquote?_escape value rest)

/-- A sign that starts no comment is cut off by the table of signs. -/
theorem cut_sign {c : Char} {cs text rest : List Char} {sign : Symbol}
    (hc : isBlank c = false ∧ c ≠ '"' ∧ c.isAlpha = false ∧ c.isDigit = false)
    (hminus : c = '-' → cs.head? ≠ some '-') (hparen : c = '(' → cs.head? ≠ some '*')
    (hsign : symbol? (c :: cs) = some (sign, text, rest)) :
    cut c cs = ⟨.token (.symbol sign), text, rest⟩ := by
  obtain ⟨hblank, hquote, halpha, hdigit⟩ := hc
  have hcomment : (c == '(' && cs.head? == some '*') = false := by simpa using hparen
  simp [cut, blank?_eq_none hblank hminus hparen, cutSolid, hcomment, hquote, halpha, hdigit, hsign]

theorem cut_symbol {sign : Symbol} {rest : List Char}
    (hrest : ∀ d ∈ rest.head?, ¬ Swallows (.symbol sign) d) :
    ∃ c cs, sign.text.toList = c :: cs ∧ isBlank c = false ∧
      cut c (cs ++ rest) = ⟨.token (.symbol sign), c :: cs, rest⟩ := by
  cases sign
  -- what follows decides only for the signs that may start something longer
  case lt =>
    refine ⟨'<', [], rfl, by decide, cut_sign (by decide) (by simp) (by simp) ?_⟩
    cases rest with
    | nil => rfl
    | cons d rest =>
        have hd : ¬ (d = '-' ∨ d = '=') := hrest d rfl
        simp [symbol?, not_or.mp hd]
  case eq =>
    refine ⟨'=', [], rfl, by decide, cut_sign (by decide) (by simp) (by simp) ?_⟩
    cases rest with
    | nil => rfl
    | cons d rest =>
        have hd : d ≠ '>' := hrest d rfl
        simp [symbol?, hd]
  case minus =>
    refine ⟨'-', [], rfl, by decide, cut_sign (by decide) ?_ (by simp) ?_⟩
    · exact fun _ h => hrest '-' h (.inl rfl)
    · cases rest with
      | nil => rfl
      | cons d rest =>
          have hd : ¬ (d = '-' ∨ d = '>') := hrest d rfl
          simp [symbol?, not_or.mp hd]
  case lparen =>
    refine ⟨'(', [], rfl, by decide, cut_sign (by decide) (by simp) ?_ rfl⟩
    exact fun _ h => hrest '*' h rfl
  all_goals exact ⟨_, _, rfl, by decide, rfl⟩

/-- A token that can be written is cut off again, as long as it takes in nothing of what follows. -/
theorem cut_token {kind : TokenKind} (hkind : Readable kind) {rest : List Char}
    (hrest : ∀ d ∈ rest.head?, ¬ Swallows kind d) :
    ∃ c cs, kind.text.toList = c :: cs ∧ isBlank c = false ∧
      cut c (cs ++ rest) = ⟨.token kind, c :: cs, rest⟩ := by
  have hword : ∀ {c cs}, kind.text.toList = c :: cs → c.isAlpha → (∀ d ∈ cs, isWordPart d) →
      wordKind (c :: cs) = kind → (∀ d ∈ rest.head?, ¬ isWordPart d) →
      ∃ c cs, kind.text.toList = c :: cs ∧ isBlank c = false ∧
        cut c (cs ++ rest) = ⟨.token kind, c :: cs, rest⟩ := by
    intro c cs htext hc hcs hkind hrest
    have hblank := (cut_alphanum (c := c) (by simp [Char.isAlphanum, hc]) (cs ++ rest)).1
    exact ⟨c, cs, htext, hblank, by rw [cut_word hc hcs hrest, hkind]⟩
  cases kind with
  | typeName _ | identifier _ | keyword _ =>
      obtain ⟨c, cs, htext, hc, hcs, hkind⟩ := hkind
      exact hword htext hc hcs hkind hrest
  | integer value =>
      cases htext : Nat.toDigits 10 value with
      | nil => exact absurd htext Nat.toDigits_ne_nil
      | cons c cs =>
          have hc : c.isDigit :=
            Nat.isDigit_of_mem_toDigits (by decide) (by decide) (htext ▸ List.mem_cons_self)
          have hblank := (cut_alphanum (c := c) (by simp [Char.isAlphanum, hc]) (cs ++ rest)).1
          refine ⟨c, cs, ?_, hblank, cut_integer hkind htext hrest⟩
          simp [TokenKind.text, htext]
  | string value =>
      refine ⟨'"', Quoted.escape value.toList ++ ['"'], by simp [TokenKind.text], by decide, ?_⟩
      simpa using cut_string value.toList rest
  | symbol sign => exact cut_symbol hrest

/-! ## Whole texts -/

/-- The text is made of the tokens, in their order, with blanks around them. -/
inductive Written : List Char → List TokenKind → Prop
  | nil : Written [] []
  | blank {c cs kinds} : isBlank c → Written cs kinds → Written (c :: cs) kinds
  | token {kind cs kinds} : Readable kind → (∀ d ∈ cs.head?, ¬ Swallows kind d) → Written cs kinds →
      Written (kind.text.toList ++ cs) (kind :: kinds)

theorem Written.dropWhile {cs : List Char} {kinds : List TokenKind} (h : Written cs kinds) :
    Written (cs.dropWhile isBlank) kinds := by
  induction h with
  | nil => exact .nil
  | blank hc _ ih => simpa [hc] using ih
  | token hkind hrest h _ =>
      obtain ⟨c, cs, htext, hblank, _⟩ := cut_token hkind hrest
      have := Written.token hkind hrest h
      simpa [htext, hblank] using this

theorem Written.cutAll {fuel : Nat} {cs : List Char} {kinds : List TokenKind} (h : Written cs kinds)
    (hfuel : cs.length ≤ fuel) (offset : Nat) :
    errorsOf (cutAll fuel offset cs) = [] ∧ (tokensOf (cutAll fuel offset cs)).map (·.kind) = kinds := by
  induction fuel generalizing offset cs kinds with
  | zero =>
      have hnil : cs = [] := List.length_eq_zero_iff.mp (Nat.le_zero.mp hfuel)
      subst hnil
      generalize hcs : ([] : List Char) = cs at h
      cases h with
      | nil => exact ⟨rfl, rfl⟩
      | blank => cases hcs
      | token hkind hrest =>
          obtain ⟨c, cs, htext, _⟩ := cut_token hkind hrest
          simp [htext] at hcs
  | succ fuel ih =>
      cases h with
      | nil => exact ⟨rfl, rfl⟩
      | @blank c cs _ hc h =>
          have hlen : (cs.dropWhile isBlank).length ≤ fuel :=
            Nat.le_trans (List.dropWhile_suffix _).length_le (Nat.le_of_succ_le_succ hfuel)
          simpa [Lexer.cutAll, cut, blank?, hc] using ih h.dropWhile hlen _
      | token hkind hrest h =>
          obtain ⟨c, cs, htext, _, hcut⟩ := cut_token hkind hrest
          simp only [htext, List.cons_append, List.length_cons, List.length_append] at hfuel ⊢
          have htail := ih h (by omega) (offset + width (c :: cs))
          simpa [Lexer.cutAll, hcut, errorsOf, tokensOf] using htail

end Lexer

theorem lex_mem {source : String} {input : TokenStream} (h : lex source = .ok input) {t : Token}
    (ht : t ∈ input.tokens) : ∃ c cs, (Lexer.cut c cs).lexeme = .token t.kind := by
  unfold lex at h
  dsimp only at h
  split at h
  · cases h
    obtain ⟨r, hr, hrt⟩ := List.mem_filterMap.mp ht
    cases r with
    | ok token => cases hrt; exact Lexer.cutAll_mem hr
    | error e => cases hrt
  · cases h

/-- A text of tokens in their written form is cut into these tokens. -/
theorem lex_written {source : String} {kinds : List TokenKind} (h : Lexer.Written source.toList kinds) :
    ∃ input, lex source = .ok input ∧ input.tokens.map (·.kind) = kinds := by
  obtain ⟨herrors, hkinds⟩ := h.cutAll (Nat.le_refl _) 0
  refine ⟨⟨Lexer.tokensOf (Lexer.cutAll source.toList.length 0 source.toList),
    Lexer.width source.toList⟩, ?_, hkinds⟩
  simp [lex, herrors]

theorem lex_readable {source : String} {input : TokenStream} (h : lex source = .ok input) :
    ∀ t ∈ input.tokens, Lexer.Readable t.kind := by
  intro t ht
  obtain ⟨c, cs, hcut⟩ := lex_mem h ht
  exact (Lexer.cut_cutsTo c cs).readable hcut

end CoolTyping
