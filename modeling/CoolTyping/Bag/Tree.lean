import CoolTyping.Bag.Basic
import CoolTyping.Context

/-!
# Bag trees

One bag per scope of a program. Bags nest as the scopes do. A name is looked for in the bags around a
place, from the inside out, and then in the bags of the ancestors of the class.
-/

namespace CoolTyping

structure BagTree where
  bags : List Bag
  /-- The types that a placeholder may stand for. -/
  concrete : TypeSet
deriving DecidableEq

/-- Position of the last element with a property. -/
def lastIdx? {α : Type} (p : α → Bool) : List α → Option Nat
  | [] => none
  | a :: as =>
    match lastIdx? p as with
    | some i => some (i + 1)
    | none => if p a then some 0 else none

/-- The sum of a number that each element has. -/
def total {α : Type} (f : α → Nat) (as : List α) : Nat := as.foldr (fun a n => f a + n) 0

namespace BagTree

def empty (concrete : TypeSet) : BagTree := ⟨[], concrete⟩

/-- All types that a placeholder may stand for. -/
def everything (t : BagTree) : Candidates := ⟨t.concrete, false⟩

/-! ## Building -/

/-- Number of the bag that comes next. -/
def nextId (t : BagTree) : BagId := t.bags.length

/-- Adds the bag of a class. -/
def addClass (t : BagTree) (owner : NodeId) (name : TypeName) : BagTree :=
  { t with bags := t.bags ++ [⟨owner, .ofClass, name, none, Entries.empty⟩] }

/-- The class in which a bag lies. -/
def classOf (t : BagTree) (i : BagId) : TypeName := (t.bags[i]?).elim TypeName.object (·.inClass)

/-- Adds a bag inside the bag `parent`. -/
def addChild (t : BagTree) (parent : BagId) (owner : NodeId) (kind : BagKind) : BagTree :=
  { t with bags := t.bags ++ [⟨owner, kind, t.classOf parent, some parent, Entries.empty⟩] }

/-- Changes the entries of a bag. -/
def modify (t : BagTree) (i : BagId) (f : Entries → Entries) : BagTree :=
  { t with bags := t.bags.modify i fun b => { b with entries := f b.entries } }

def define (t : BagTree) (i : BagId) (slot : Slot) (e : Entry) : BagTree :=
  t.modify i (·.define slot e)

/-! ## Finding bags -/

/-- The bag of a construct, the last one if there are more. -/
def bagOf? (t : BagTree) (owner : NodeId) : Option BagId := lastIdx? (·.owner == owner) t.bags

/-- The bag of a class. -/
def classBag? (t : BagTree) (name : TypeName) : Option BagId :=
  lastIdx? (fun b => b.kind == .ofClass && b.inClass == name) t.bags

/-- The bag of a method of a class. -/
def methodBag? (t : BagTree) (owner : TypeName) (method : String) : Option BagId :=
  lastIdx? (fun b => b.kind == .ofMethod method && b.inClass == owner) t.bags

def parent? (t : BagTree) (i : BagId) : Option BagId := (t.bags[i]?).bind (·.parent)

/-- At most `n` bags of the way from bag `i` to its root. -/
def enclosingN (t : BagTree) : Nat → BagId → List BagId
  | 0, _ => []
  | n + 1, i => i :: (t.parent? i).elim [] (t.enclosingN n)

/-- The bag `i` and those around it, from the inside out. Each bag has a larger number than the one
around it, which bounds their number. -/
def enclosing (t : BagTree) (i : BagId) : List BagId := t.enclosingN (i + 1) i

def depth (t : BagTree) (i : BagId) : Nat := (t.enclosing i).length - 1

/-- Numbers of the bags with a property, in order. -/
def indices (t : BagTree) (p : Bag → Bool) : List BagId :=
  t.bags.zipIdx.filterMap fun (b, i) => if p b then some i else none

def roots (t : BagTree) : List BagId := t.indices (·.parent.isNone)

def children (t : BagTree) (i : BagId) : List BagId := t.indices (·.parent == some i)

/-- The bag `i` and, to a depth of `n`, those inside it. -/
def subtreeN (t : BagTree) : Nat → BagId → List BagId
  | 0, _ => []
  | n + 1, i => i :: (t.children i).flatMap (t.subtreeN n)

/-- All bags, each before those inside it. -/
def preorder (t : BagTree) : List BagId := t.roots.flatMap (t.subtreeN t.bags.length)

/-! ## Entries -/

/-- The entry of the bag `i` itself. -/
def entryAt? (t : BagTree) (i : BagId) (slot : Slot) : Option Entry :=
  (t.bags[i]?).bind (·.entries.get? slot)

def has (t : BagTree) (i : BagId) (slot : Slot) : Bool :=
  (t.bags[i]?).any (·.entries.contains slot)

/-- The bag with the entry that a slot refers to in the bag `i`. -/
def resolve? (t : BagTree) (ctx : Context) (i : BagId) (slot : Slot) : Option BagId :=
  ((t.enclosing i).find? (t.has · slot)).or
    (((ctx.ancestors (t.classOf i)).tail.filterMap t.classBag?).find? (t.has · slot))

/-- The entry that a slot refers to in the bag `i`. -/
def get? (t : BagTree) (ctx : Context) (i : BagId) (slot : Slot) : Option Entry :=
  (t.resolve? ctx i slot).bind (t.entryAt? · slot)

/-- Narrows the entry that a slot refers to in the bag `i`, if there is one. -/
def narrow (t : BagTree) (ctx : Context) (i : BagId) (slot : Slot) (incoming : Candidates) :
    BagTree :=
  match t.resolve? ctx i slot with
  | some j => t.modify j (·.modify slot (·.narrow incoming))
  | none => t

def unlockedCount (t : BagTree) : Nat :=
  total (fun b => b.entries.toList.countP (!·.2.locked)) t.bags

/-- Equal but for the order of candidates. -/
def same (t u : BagTree) : Bool :=
  t.concrete.same u.concrete && t.bags.length == u.bags.length &&
    (t.bags.zip u.bags).all fun (a, b) => a.same b

/-- The text of all bags. -/
def render (t : BagTree) : String :=
  String.join (t.preorder.map fun i => (t.bags[i]?).elim "" (Bag.text (t.depth i)))

end BagTree

end CoolTyping
