import Mathlib
import CoolTyping.Proofs.Layout
import CoolTyping.Proofs.Places

/-!
# Printing and reading back

A program that was read from a text is printed with the words of that text, and is read back from the
printed text as it was, apart from the places in it.
-/

namespace CoolTyping

theorem parse_eq_ok {source : String} {p : Program} :
    parse source = .ok p ↔ ∃ input, lex source = .ok input ∧ Parser.program input = .ok p := by
  unfold parse
  cases lex source with
  | ok input => simp
  | error errors => simp

/-- The standard layout of a program that was read has the words of its text and is read as the same
program, with the same numbers, which has the same layout. -/
theorem format_round_trip {source : String} {p : Program} (h : parse source = .ok p) :
    ∃ input input' p', lex source = .ok input ∧ lex p.format = .ok input' ∧
      input'.tokens.map (·.kind) = input.tokens.map (·.kind) ∧
      parse p.format = .ok p' ∧ p'.eraseSpans = p.eraseSpans ∧ p'.format = p.format := by
  obtain ⟨input, hlex, hprogram⟩ := parse_eq_ok.mp h
  have hread : ∀ kind ∈ input.tokens.map (·.kind), Lexer.Readable kind := by
    intro kind hkind
    obtain ⟨t, ht, rfl⟩ := List.mem_map.mp hkind
    exact lex_readable hlex t ht
  obtain ⟨input', hlex', hkinds⟩ := lex_format (Parser.program_reads hprogram) hread
  obtain ⟨p', hprogram', herase⟩ := Parser.program_mirrors hkinds.symm hprogram
  refine ⟨input, input', p', hlex, hlex', hkinds, parse_eq_ok.mpr ⟨input', hlex', hprogram'⟩, herase, ?_⟩
  rw [← p'.format_eraseSpans, herase, p.format_eraseSpans]

/-- A comparison inside the body of a `let`, a string with an escape, and a comment. -/
def sparseText : String := "class A\x7bf():Bool\x7blet y:Int in--\nisvoid y=\"\\t\"\x7d;\x7d;"

def sparseLayout : String :=
  "class A \x7b\n  f() : Bool \x7b\n    let y : Int in isvoid y = \"\\t\"\n  \x7d;\n\x7d;\n"

theorem sparse_round_trip : ∃ p, parse sparseText = .ok p ∧ p.format = sparseLayout ∧
    ∃ p', parse sparseLayout = .ok p' ∧ p'.eraseSpans = p.eraseSpans ∧ p'.format = sparseLayout := by
  have hformat : (parse sparseText).toOption.map Program.format = some sparseLayout := by cbv
  cases hp : parse sparseText with
  | error errors => simp [hp, Except.toOption] at hformat
  | ok p =>
      have hlayout : p.format = sparseLayout := by simpa [hp, Except.toOption] using hformat
      obtain ⟨_, _, p', _, _, _, hp', herase, hsame⟩ := format_round_trip hp
      rw [hlayout] at hp' hsame
      exact ⟨p, rfl, hlayout, p', hp', herase, hsame⟩

end CoolTyping
