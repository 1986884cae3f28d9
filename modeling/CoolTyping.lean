import CoolTyping.Main
import CoolTyping.Proofs.Evolution
import CoolTyping.Proofs.ParserLogic
import CoolTyping.Proofs.WrittenTypes
import CoolTyping.Proofs.Sweeping
import CoolTyping.Proofs.Fixpoint
import CoolTyping.Proofs.Constraints
import CoolTyping.Proofs.ClassTables
import CoolTyping.Proofs.Convergence
import CoolTyping.Proofs.Invariants
import CoolTyping.Proofs.Derivations
import CoolTyping.Proofs.Acceptance
import CoolTyping.Proofs.Layout
import CoolTyping.Proofs.Places
import CoolTyping.Proofs.RoundTrip
import CoolTyping.Proofs.Ancestry
import CoolTyping.Proofs.Inheritance
import CoolTyping.Proofs.Declarations
import CoolTyping.Proofs.Conformance
import CoolTyping.Proofs.TypingRules
import CoolTyping.Proofs.StrictCheck
import CoolTyping.Proofs.Visits
import CoolTyping.Proofs.Typability
import CoolTyping.Proofs.Fillings
import CoolTyping.Proofs.Approximation
import CoolTyping.Proofs.Tolerance
import CoolTyping.Proofs.Numbering
import CoolTyping.Proofs.Nesting
import CoolTyping.Proofs.Elimination
import CoolTyping.Proofs.Sights
import CoolTyping.Proofs.Everywhere
import CoolTyping.Proofs.Agreement
import CoolTyping.Proofs.Flows
import CoolTyping.Proofs.Conflicts
import CoolTyping.Proofs.CleanResults
import CoolTyping.Proofs.Relocation
import CoolTyping.Proofs.Copies
import CoolTyping.Proofs.Positions
import CoolTyping.Proofs.Rereading
import CoolTyping.Proofs.Stability
import CoolTyping.Proofs.Operations
import CoolTyping.Proofs.Cycles
import CoolTyping.Proofs.Naming
import CoolTyping.Proofs.NewErrors
import CoolTyping.Proofs.Remnants
import CoolTyping.Proofs.Rounds
import CoolTyping.Proofs.Reordering
import CoolTyping.Proofs.Recording
import CoolTyping.Proofs.Binding
import CoolTyping.Proofs.Alikeness
import CoolTyping.Proofs.Joins
import CoolTyping.Proofs.Insensitivity
import CoolTyping.Proofs.Parentheses
import CoolTyping.Proofs.Transparency
import CoolTyping.Proofs.Bounds
import CoolTyping.Proofs.JoinOrder
import CoolTyping.Proofs.Lookups
import CoolTyping.Proofs.Undefined
import CoolTyping.Proofs.Arguments
import CoolTyping.Proofs.Partition
import CoolTyping.Proofs.Preorder
import CoolTyping.Proofs.Ambiguities
import CoolTyping.Proofs.Links
import CoolTyping.Proofs.Ownership
import CoolTyping.Proofs.Cursors
import CoolTyping.Proofs.Recovery
import CoolTyping.Proofs.Spans
import CoolTyping.Proofs.Changes
import CoolTyping.Proofs.Walks
import CoolTyping.Proofs.ValueTypes
import CoolTyping.Proofs.Frames
