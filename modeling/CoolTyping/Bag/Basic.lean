import CoolTyping.Bag.Entry
import CoolTyping.Expr
import CoolTyping.SemanticError

/-!
# Bags

The entries of one scope of a program: one for each variable that the scope introduces, and in a
class also one for the result of each method.
-/

namespace CoolTyping

/-- What an entry of a bag stands for. -/
inductive Slot where
  | var (name : String)
  /-- The result of a method. -/
  | result (method : String)
deriving DecidableEq

namespace Slot

def name : Slot → String
  | var name | result name => name

def text : Slot → String
  | var name => name
  | result name => name ++ "()"

end Slot

/-- Entries by their slots, in the order in which they were defined. -/
structure Entries where
  toList : List (Slot × Entry)
  distinct : (toList.map (·.1)).Nodup
deriving DecidableEq

namespace Entries

def empty : Entries := ⟨[], List.nodup_nil⟩

def slots (es : Entries) : List Slot := es.toList.map (·.1)

def get? (es : Entries) (slot : Slot) : Option Entry := es.toList.lookup slot

def contains (es : Entries) (slot : Slot) : Bool := es.slots.contains slot

/-- Adds an entry, unless there is one for the slot. -/
def define (es : Entries) (slot : Slot) (e : Entry) : Entries :=
  if h : es.contains slot then es
  else ⟨es.toList ++ [(slot, e)], by
    have h : slot ∉ es.slots := by simpa [contains] using h
    rw [List.map_append, List.nodup_append]
    refine ⟨es.distinct, by simp, fun a ha b hb eq => h ?_⟩
    simp only [List.map_cons, List.map_nil, List.mem_singleton] at hb
    exact hb ▸ eq ▸ ha⟩

/-- Changes the entry for a slot. -/
def modify (es : Entries) (slot : Slot) (f : Entry → Entry) : Entries :=
  ⟨es.toList.map fun (s, e) => (s, if s = slot then f e else e), by
    simpa [Function.comp_def] using es.distinct⟩

/-- Equal but for the order of candidates. -/
def same (es fs : Entries) : Bool :=
  es.slots == fs.slots && (es.toList.zip fs.toList).all fun (x, y) => x.2.same y.2

end Entries

inductive BagKind where
  | ofClass
  | ofMethod (name : String)
  | ofLet
  | ofCase
deriving DecidableEq

/-- Position of a bag in its tree. Bags are numbered in the order in which they were added. -/
abbrev BagId := Nat

structure Bag where
  /-- The construct that opens the scope. -/
  owner : NodeId
  kind : BagKind
  /-- The class in which the scope lies. -/
  inClass : TypeName
  parent : Option BagId
  entries : Entries
deriving DecidableEq

namespace Bag

/-- Equal but for the order of candidates. -/
def same (a b : Bag) : Bool :=
  a.owner == b.owner && a.kind == b.kind && a.inClass == b.inClass && a.parent == b.parent &&
    a.entries.same b.entries

/-! ## Text -/

def header (b : Bag) : String :=
  match b.kind with
  | .ofClass => "class " ++ b.inClass
  | .ofMethod name => "method " ++ name
  | .ofLet => "let"
  | .ofCase => "case"

def entryText (slot : Slot) (e : Entry) : String :=
  slot.text ++ ": " ++ braced e.candidates.toList ++
    (if e.locked then " (locked)" else if e.ambiguous then " (ambiguous)" else "")

/-- The lines for a bag that lies in `depth` others, each indented by two blanks per bag. -/
def text (depth : Nat) (b : Bag) : String :=
  let indent := String.ofList (List.replicate (2 * depth) ' ')
  indent ++ b.header ++ "\n" ++
    String.join (b.entries.toList.map fun (slot, e) => indent ++ "  " ++ entryText slot e ++ "\n")

end Bag

end CoolTyping
