import CoolTyping.SemanticError

/-!
# Contexts

A context holds every type of a program with its parent, its attributes and its methods. A type may
stand in a context only once, so its name is enough to know it.
-/

namespace CoolTyping

inductive TypeKind where
  | builtin
  /-- `Int`, `String` and `Bool`, which no class may inherit from. -/
  | primitive
  | auto
  | selfType
  | error
  | declared
deriving DecidableEq

/-- Whether a class may inherit from types of this kind. -/
def TypeKind.inheritable : TypeKind → Bool
  | primitive | auto | selfType => false
  | builtin | error | declared => true

/-- Whether a placeholder may stand for types of this kind. -/
def TypeKind.isConcrete : TypeKind → Bool
  | builtin | primitive | declared => true
  | auto | selfType | error => false

structure Attribute where
  name : String
  ty : TypeName
deriving DecidableEq

/-- A method as its callers see it. -/
structure Signature where
  name : String
  params : List (String × TypeName)
  ret : TypeName
deriving DecidableEq

namespace Signature

def arity (m : Signature) : Nat := m.params.length

def paramTypes (m : Signature) : List TypeName := m.params.map (·.2)

/-- The same types of parameters and result. The parameters may have other names. -/
def agrees (m n : Signature) : Bool := m.ret == n.ret && m.paramTypes == n.paramTypes

end Signature

structure TypeInfo where
  name : TypeName
  kind : TypeKind
  parent : Option TypeName
  attributes : List Attribute
  methods : List Signature
deriving DecidableEq

/-- Types in the order in which they were registered. -/
structure Context where
  types : List TypeInfo
deriving DecidableEq

namespace Context

/-! ## Look-up -/

def names (ctx : Context) : List TypeName := ctx.types.map (·.name)

def info? (ctx : Context) (t : TypeName) : Option TypeInfo := ctx.types.find? (·.name == t)

def contains (ctx : Context) (t : TypeName) : Bool := ctx.types.any (·.name == t)

/-- The type called `t`, if there is one. -/
def resolve (ctx : Context) (t : TypeName) : Except SemanticError TypeName :=
  if ctx.contains t then .ok t else .error (.unknownType t)

def parent? (ctx : Context) (t : TypeName) : Option TypeName := (ctx.info? t).bind (·.parent)

def ownAttributes (ctx : Context) (t : TypeName) : List Attribute :=
  (ctx.info? t).elim [] (·.attributes)

def ownMethods (ctx : Context) (t : TypeName) : List Signature :=
  (ctx.info? t).elim [] (·.methods)

def ownAttribute? (ctx : Context) (t : TypeName) (name : String) : Option Attribute :=
  (ctx.ownAttributes t).find? (·.name == name)

def ownMethod? (ctx : Context) (t : TypeName) (name : String) : Option Signature :=
  (ctx.ownMethods t).find? (·.name == name)

/-- The names of the types that a placeholder may stand for. -/
def concreteTypes (ctx : Context) : List TypeName :=
  (ctx.types.filter (·.kind.isConcrete)).map (·.name)

/-! ## Inheritance -/

/-- At most `n` steps of the way from `t` to its parent, and on. -/
def ancestorsN (ctx : Context) : Nat → TypeName → List TypeName
  | 0, _ => []
  | n + 1, t => t :: (ctx.parent? t).elim [] (ctx.ancestorsN n)

/-- `t`, its parent, the parent of that, and so on. Where the links run in a circle the walk ends
once it has taken one step more than there are types. -/
def ancestors (ctx : Context) (t : TypeName) : List TypeName :=
  ctx.ancestorsN (ctx.types.length + 1) t

/-- Whether a value of type `a` may stand where one of type `b` is asked for. -/
def conforms (ctx : Context) (a b : TypeName) : Bool :=
  a == b || a.isWildcard || b.isWildcard || (ctx.ancestors a).contains b

/-- The first ancestor of `a` below `Object` that `b` conforms to. -/
def climb (ctx : Context) (a b : TypeName) : Option TypeName :=
  ((ctx.ancestors a).takeWhile (· != TypeName.object)).find? (ctx.conforms b)

/-- The least type that both conform to. A wildcard gives way to the other type. -/
def join (ctx : Context) (a b : TypeName) : TypeName :=
  match a.isWildcard, b.isWildcard with
  | true, true => if a == TypeName.error || b == TypeName.error then TypeName.error else TypeName.auto
  | true, false => b
  | false, true => a
  | false, false =>
    if a == TypeName.object || b == TypeName.object then TypeName.object
    else ((ctx.climb a b).or (ctx.climb b a)).getD TypeName.object

/-- The join of a list of types from left to right, `Object` if there are none. -/
def joinAll (ctx : Context) : List TypeName → TypeName
  | [] => TypeName.object
  | t :: ts => ts.foldl ctx.join t

/-- The attribute that a name refers to in `t`, with the nearest type that declares it. -/
def attribute? (ctx : Context) (t : TypeName) (name : String) : Option (TypeName × Attribute) :=
  (ctx.ancestors t).findSome? fun owner => (ctx.ownAttribute? owner name).map (owner, ·)

/-- The method that a name refers to in `t`, with the nearest type that declares it. -/
def method? (ctx : Context) (t : TypeName) (name : String) : Option (TypeName × Signature) :=
  (ctx.ancestors t).findSome? fun owner => (ctx.ownMethod? owner name).map (owner, ·)

/-- The attributes of `t` and of its ancestors, those of the root first. -/
def allAttributes (ctx : Context) (t : TypeName) : List Attribute :=
  (ctx.ancestors t).reverse.flatMap ctx.ownAttributes

/-! ## Change -/

/-- Changes what is held about `t`. -/
def modify (ctx : Context) (t : TypeName) (f : TypeInfo → TypeInfo) : Context :=
  ⟨ctx.types.map fun i => if i.name == t then f i else i⟩

/-- Registers a class, for now with `Object` as its parent. -/
def create (ctx : Context) (name : TypeName) : Except SemanticError Context :=
  if ctx.contains name then .error (.duplicateClass name)
  else .ok ⟨ctx.types ++ [⟨name, .declared, some TypeName.object, [], []⟩]⟩

/-- Links `t` to `parent`, whatever follows from it. -/
def withParent (ctx : Context) (t : TypeName) (parent : Option TypeName) : Context :=
  ctx.modify t fun i => { i with parent := parent }

/-- Links `t` to `parent` if that makes no circle. -/
def setParent (ctx : Context) (t parent : TypeName) : Except SemanticError Context :=
  if !(ctx.info? parent).all (·.kind.inheritable) then .error (.illegalParent t parent)
  else if (ctx.ancestors parent).contains t then .error (.cyclicInheritance t)
  else .ok (ctx.withParent t (some parent))

def addAttribute (ctx : Context) (t : TypeName) (a : Attribute) : Context :=
  ctx.modify t fun i => { i with attributes := i.attributes ++ [a] }

def addMethod (ctx : Context) (t : TypeName) (m : Signature) : Context :=
  ctx.modify t fun i => { i with methods := i.methods ++ [m] }

/-- Drops the attributes of `t` that have one of the given names. -/
def dropAttributes (ctx : Context) (t : TypeName) (names : List String) : Context :=
  ctx.modify t fun i => { i with attributes := i.attributes.filter fun a => !names.contains a.name }

/-! ## The basic types -/

/-- A type below `Object`. -/
def basicType (name : TypeName) (kind : TypeKind) (methods : List Signature) : TypeInfo :=
  ⟨name, kind, some TypeName.object, [], methods⟩

/-- The context of a program without classes. -/
def basic : Context where
  types := [
    ⟨TypeName.object, .builtin, none, [], [
      ⟨"abort", [], TypeName.object⟩,
      ⟨"type_name", [], TypeName.string⟩,
      ⟨"copy", [], TypeName.selfType⟩]⟩,
    basicType TypeName.io .builtin [
      ⟨"out_string", [("x", TypeName.string)], TypeName.selfType⟩,
      ⟨"out_int", [("x", TypeName.int)], TypeName.selfType⟩,
      ⟨"in_string", [], TypeName.string⟩,
      ⟨"in_int", [], TypeName.int⟩],
    basicType TypeName.int .primitive [],
    basicType TypeName.string .primitive [
      ⟨"length", [], TypeName.int⟩,
      ⟨"concat", [("s", TypeName.string)], TypeName.string⟩,
      ⟨"substr", [("i", TypeName.int), ("l", TypeName.int)], TypeName.string⟩],
    basicType TypeName.bool .primitive [],
    basicType TypeName.auto .auto [],
    basicType TypeName.selfType .selfType [],
    basicType TypeName.error .error []]

end Context

end CoolTyping
