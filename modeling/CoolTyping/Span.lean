/-!
# Spans

Places in the text of a program, as half-open ranges of byte offsets into its UTF-8 form.
-/

namespace CoolTyping

/-- The bytes from `start` up to, but not including, `stop`. -/
structure Span where
  start : Nat
  stop : Nat
deriving DecidableEq, Inhabited

namespace Span

/-- Number of bytes covered. A span whose ends are out of order covers none. -/
def length (s : Span) : Nat := s.stop - s.start

def isEmpty (s : Span) : Bool := s.length == 0

/-- The smallest span that covers both. -/
def join (a b : Span) : Span := ⟨min a.start b.start, max a.stop b.stop⟩

/-- The smallest span that covers all of the list, `0..0` for the empty list. -/
def joinAll : List Span → Span
  | [] => ⟨0, 0⟩
  | s :: ss => ss.foldl join s

end Span

end CoolTyping
