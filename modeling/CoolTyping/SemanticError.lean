import CoolTyping.Span
import CoolTyping.TypeName

/-!
# Semantic errors

What can be wrong with a program that parses, and how each error is worded.
-/

namespace CoolTyping

inductive SemanticError where
  | duplicateClass (name : TypeName)
  | duplicateAttribute (name : String) (owner : TypeName)
  | duplicateMethod (name : String) (owner : TypeName)
  | methodSignatureMismatch (name : String) (ancestor : TypeName)
  | unknownType (name : TypeName)
  | illegalParent (child parent : TypeName)
  | cyclicInheritance (name : TypeName)
  | variableNotDefined (name place : String)
  | selfReadonly
  | incompatibleTypes (found expected : TypeName)
  | invalidOperation (left right : TypeName)
  | invalidComparison (left right : TypeName)
  | boolExpected (found : TypeName)
  | staticDispatchAncestorViolation (found ancestor : TypeName)
  | methodNotDefined (method : String) (ty : TypeName)
  | arityMismatch (method : String) (expected found : Nat)
  /-- None of the types that a receiver may have has a method that fits. -/
  | noMethodCandidate (receiver method : String) (arity : Nat)
  /-- More than one type is left for a placeholder. -/
  | ambiguousType (name : String) (candidates : List TypeName)
deriving DecidableEq

/-- Names between brackets. -/
def bracketed (names : List TypeName) : String := "[" ++ String.intercalate ", " names ++ "]"

/-- Names between braces. -/
def braced (names : List TypeName) : String := "\x7b" ++ String.intercalate ", " names ++ "\x7d"

namespace SemanticError

def message : SemanticError → String
  | duplicateClass name => "Type with the same name (" ++ name ++ ") already in context."
  | duplicateAttribute name owner =>
    "Attribute \"" ++ name ++ "\" is already defined in " ++ owner ++ "."
  | duplicateMethod name owner =>
    "Method \"" ++ name ++ "\" is already defined in " ++ owner ++ "."
  | methodSignatureMismatch name ancestor =>
    "Method \"" ++ name ++ "\" already defined in \"" ++ ancestor ++ "\" with a different signature."
  | unknownType name => "Type \"" ++ name ++ "\" is not defined."
  | illegalParent child parent =>
    "Class \"" ++ child ++ "\" cannot inherit from \"" ++ parent ++ "\"."
  | cyclicInheritance name => "Class \"" ++ name ++ "\" is part of an inheritance cycle."
  | variableNotDefined name place =>
    "Variable \"" ++ name ++ "\" is not defined in \"" ++ place ++ "\"."
  | selfReadonly => "Variable \"self\" is read-only."
  | incompatibleTypes found expected =>
    "Cannot convert \"" ++ found ++ "\" into \"" ++ expected ++ "\"."
  | invalidOperation left right =>
    "Operation is not defined between \"" ++ left ++ "\" and \"" ++ right ++ "\"."
  | invalidComparison left right =>
    "Comparison is not defined between \"" ++ left ++ "\" and \"" ++ right ++ "\"."
  | boolExpected found => "Was expected a bool, not \"" ++ found ++ "\"."
  | staticDispatchAncestorViolation found ancestor =>
    "Type \"" ++ found ++ "\" is not descendent of \"" ++ ancestor ++ "\"."
  | methodNotDefined method ty => "Method \"" ++ method ++ "\" is not defined in " ++ ty ++ "."
  | arityMismatch method expected found =>
    "Method " ++ method ++ " takes " ++ toString expected ++ " arguments but " ++ toString found ++
      " were given."
  | noMethodCandidate receiver method arity =>
    "No possible type of \"" ++ receiver ++ "\" defines method \"" ++ method ++ "\" with " ++
      toString arity ++ " arguments."
  | ambiguousType name candidates =>
    "Can't infer type of \"" ++ name ++ "\", between " ++ bracketed candidates ++ "."

end SemanticError

/-- A semantic error and its place. -/
structure Report where
  error : SemanticError
  span : Span
deriving DecidableEq

/-- Reports in the order in which they were first made, each held once. -/
abbrev Diagnostics := List Report

namespace Diagnostics

/-- Adds a report, unless the same error is held for the same place. -/
def insert (d : Diagnostics) (r : Report) : Diagnostics := if r ∈ d then d else d ++ [r]

def insertAll (d : Diagnostics) (rs : List Report) : Diagnostics := rs.foldl insert d

/-- What is left of a list of reports once repetitions are dropped. -/
def ofReports (rs : List Report) : Diagnostics := insertAll [] rs

theorem mem_insert {d : Diagnostics} {r x : Report} : x ∈ d.insert r ↔ x ∈ d ∨ x = r := by
  unfold insert
  split
  · exact ⟨Or.inl, fun h => h.elim id fun hx => hx ▸ ‹r ∈ d›⟩
  · simp

theorem mem_insertAll {d : Diagnostics} {rs : List Report} {x : Report} :
    x ∈ d.insertAll rs ↔ x ∈ d ∨ x ∈ rs := by
  unfold insertAll
  induction rs generalizing d with
  | nil => simp
  | cons r rs ih => rw [List.foldl_cons, ih, mem_insert, List.mem_cons, or_assoc]

@[simp] theorem mem_ofReports {rs : List Report} {x : Report} : x ∈ ofReports rs ↔ x ∈ rs := by
  simp [ofReports, mem_insertAll]

@[simp] theorem ofReports_eq_nil {rs : List Report} : ofReports rs = [] ↔ rs = [] := by
  simp [List.eq_nil_iff_forall_not_mem]

end Diagnostics

end CoolTyping
