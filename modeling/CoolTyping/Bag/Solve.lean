import CoolTyping.Bag.Sweep

/-!
# Solving

Sweeps are repeated until one changes nothing, or a bound is reached.
-/

namespace CoolTyping

/-- Inference came to no end. -/
structure NotConverged where
  sweeps : Nat
deriving DecidableEq

def NotConverged.message (e : NotConverged) : String :=
  "type inference did not converge after " ++ toString e.sweeps ++ " sweeps"

/-- A bound that is high enough: an entry that is not locked loses candidates until a conflict, and
gains candidates from then on, and every sweep but the last changes an entry. -/
def BagTree.sweepBound (t : BagTree) : Nat := 1 + t.unlockedCount * (2 * t.concrete.size + 1)

/-- Where repeated sweeps end. -/
inductive Outcome where
  /-- The last of `sweeps` sweeps changed nothing and made the given reports. -/
  | converged (sweeps : Nat) (tree : BagTree) (diagnostics : Diagnostics)
  /-- Every sweep changed something. -/
  | exhausted (tree : BagTree)

namespace ClassTable

/-- At most `fuel` sweeps, after `done` that changed something. -/
def solveFrom (t : ClassTable) : Nat → Nat → BagTree → Outcome
  | 0, _, tree => .exhausted tree
  | fuel + 1, done, tree =>
    let (next, reports) := t.sweep tree
    if next.same tree then .converged (done + 1) next (Diagnostics.ofReports reports)
    else t.solveFrom fuel (done + 1) next

/-- At most `bound` sweeps. -/
def solve (t : ClassTable) (bound : Nat) (tree : BagTree) : Outcome := t.solveFrom bound 0 tree

end ClassTable

/-- What sweeps that came to an end found. -/
structure Reduction where
  sweeps : Nat
  /-- The reports of the last sweep. -/
  diagnostics : Diagnostics
deriving DecidableEq

/-- Sweeps up to a bound, which is taken from the tree where none is given: what they found, or that
they came to no end, and in either case the tree that they left. -/
def ClassTable.reduce (t : ClassTable) (maxSweeps : Option Nat) (tree : BagTree) :
    Except NotConverged Reduction × BagTree :=
  let bound := maxSweeps.getD tree.sweepBound
  match t.solve bound tree with
  | .converged sweeps tree diagnostics => (.ok ⟨sweeps, diagnostics⟩, tree)
  | .exhausted tree => (.error ⟨bound⟩, tree)

end CoolTyping
