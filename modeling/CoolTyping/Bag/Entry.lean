import CoolTyping.Bag.Candidates
import CoolTyping.Span

/-!
# Bag entries

What is known of the type of one variable or one method's result. `Entry.narrow` is the only way in
which inference changes an entry: candidates are dropped until a conflict, and from then on added.
-/

namespace CoolTyping

structure Entry where
  candidates : TypeSet
  /-- The type was declared and stays. -/
  locked : Bool
  /-- Some use conflicts with the others. -/
  ambiguous : Bool
  /-- The declaration that the entry stands for. -/
  span : Span
deriving DecidableEq

namespace Entry

/-- An entry for a declared type. -/
def ofType (t : TypeName) (span : Span) : Entry := ⟨TypeSet.single t, true, false, span⟩

/-- An entry for a placeholder, which may stand for any type of `ts`. -/
def ofPlaceholder (ts : TypeSet) (span : Span) : Entry := ⟨ts, false, false, span⟩

def snapshot (e : Entry) : Candidates := ⟨e.candidates, e.ambiguous⟩

/-- Takes account of a use for which only the types `incoming` fit. If none of them is left among
the candidates, the uses conflict; then, and from then on, the entry takes in all types that it is
given. The first candidates that come out of a conflict elsewhere replace its own. -/
def narrow (e : Entry) (incoming : Candidates) : Entry :=
  let common := e.candidates.inter incoming.types
  if e.locked then e
  else if common.isEmpty then
    { e with candidates := e.candidates.union incoming.types, ambiguous := true }
  else if e.ambiguous then { e with candidates := e.candidates.union incoming.types }
  else if incoming.ambiguous then { e with candidates := incoming.types, ambiguous := true }
  else { e with candidates := common }

/-- Equal but for the order of the candidates. -/
def same (e f : Entry) : Bool :=
  e.candidates.same f.candidates && e.locked == f.locked && e.ambiguous == f.ambiguous &&
    e.span == f.span

/-- Whether `incoming` says something new. -/
def changedBy (e : Entry) (incoming : Candidates) : Bool := !(e.narrow incoming).same e

end Entry

end CoolTyping
