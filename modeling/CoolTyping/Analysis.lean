import CoolTyping.Bag.Seed
import CoolTyping.Bag.Solve
import CoolTyping.Parser.Program
import CoolTyping.Program.Fill
import CoolTyping.Typing

/-!
# Analysis

The strict check of a program and, if that finds no error, inference of its placeholders and the
strict check of the result.
-/

namespace CoolTyping

structure Options where
  /-- Whether placeholders are to be inferred. -/
  infer : Bool
  /-- Bound on the number of sweeps. Without one it is taken from the program. -/
  maxSweeps : Option Nat
deriving DecidableEq

/-- What inference found out about a program. -/
structure Inference where
  /-- The bags at the end. -/
  tree : BagTree
  sweeps : Nat
  /-- The reports of the last sweep, and one for each ambiguity. -/
  diagnostics : Diagnostics
  ambiguities : List Ambiguity
  /-- The program with its placeholders filled in. -/
  program : Program
  /-- How many placeholders were filled in. -/
  replaced : Nat

/-- Infers the placeholders of a program with the class table `t`. -/
def ClassTable.infer (t : ClassTable) (p : Program) (maxSweeps : Option Nat) :
    Except NotConverged Inference :=
  match t.reduce maxSweeps t.seed with
  | (.error e, _) => .error e
  | (.ok reduction, tree) =>
    let ambiguities := tree.ambiguities
    .ok {
      tree, ambiguities
      sweeps := reduction.sweeps
      diagnostics := reduction.diagnostics.insertAll (ambiguities.map Ambiguity.toReport)
      program := tree.fill t.context p
      replaced := (tree.filledIn t.context p).length }

structure Analysis where
  /-- The program, with its placeholders filled in if inference ran. -/
  program : Program
  /-- Errors of the program as written. -/
  errors : Diagnostics
  inferred : Option Inference
  /-- Errors of the program with its placeholders filled in. -/
  finalErrors : Diagnostics

namespace Analysis

def inferenceErrors (a : Analysis) : Diagnostics := a.inferred.elim [] (·.diagnostics)

/-- All errors in the order in which they were found. -/
def allErrors (a : Analysis) : List Report := a.errors ++ a.inferenceErrors ++ a.finalErrors

def isClean (a : Analysis) : Bool := a.allErrors.isEmpty

end Analysis

/-- Inference runs only on a program without errors that has placeholders. -/
def analyze (p : Program) (options : Options) : Except NotConverged Analysis :=
  let checked := typecheck p
  let errors := checked.diagnostics
  if !options.infer || !errors.isEmpty || !p.hasPlaceholders then
    .ok ⟨p, errors, none, []⟩
  else
    match checked.value.infer p options.maxSweeps with
    | .error e => .error e
    | .ok inference =>
      .ok ⟨inference.program, errors, some inference, (typecheck inference.program).diagnostics⟩

/-- Why a text cannot be analyzed. -/
inductive SourceError where
  | syntactic (errors : List SyntaxError)
  | inference (error : NotConverged)
deriving DecidableEq

def analyzeSource (source : String) (options : Options) : Except SourceError Analysis :=
  match parse source with
  | .error errors => .error (.syntactic errors)
  | .ok p =>
    match analyze p options with
    | .error e => .error (.inference e)
    | .ok a => .ok a

end CoolTyping
