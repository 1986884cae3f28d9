import CoolTyping.Bag.TypeSet

/-!
# Candidate types

The types that an expression may have, as far as is known.
-/

namespace CoolTyping

/-- Candidates are `ambiguous` if they come from a variable whose uses conflict. -/
structure Candidates where
  types : TypeSet
  ambiguous : Bool
deriving DecidableEq

namespace Candidates

def none : Candidates := ⟨TypeSet.empty, false⟩

def single (t : TypeName) : Candidates := ⟨TypeSet.single t, false⟩

def union (a b : Candidates) : Candidates := ⟨a.types.union b.types, a.ambiguous || b.ambiguous⟩

/-- What two branches have in common, or all of both if that is nothing. -/
def merge (a b : Candidates) : Candidates :=
  let common := a.types.inter b.types
  if common.isEmpty then a.union b else ⟨common, a.ambiguous || b.ambiguous⟩

end Candidates

end CoolTyping
