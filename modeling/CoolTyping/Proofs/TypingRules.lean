import CoolTyping.Proofs.Ancestry
import CoolTyping.Program

/-!
# Typing rules

Which type an expression has, as rules. Variables have types that do not change, conformance is descent
from one class to another, and there is neither a wildcard nor a type for errors: an expression that
breaks a rule has no type.
-/

namespace CoolTyping

/-- The types of the variables in sight. -/
abbrev Vars := String → Option TypeName

/-- With a variable that hides others of its name. -/
def Vars.bind (V : Vars) (name : String) (t : TypeName) : Vars :=
  fun x => if x = name then some t else V x

/-- `t` is what folding joins over a list of types from left to right gives. -/
inductive Context.JoinsTo (ctx : Context) : List TypeName → TypeName → Prop
  | none : JoinsTo ctx [] TypeName.object
  | one {t} : JoinsTo ctx [t] t
  | more {a b c ts t} : ctx.IsJoin a b c → JoinsTo ctx (c :: ts) t → JoinsTo ctx (a :: b :: ts) t

section Rules

/-! `C` is the class at hand. -/

variable (ctx : Context) (C : TypeName)

/-- The type that a written name stands for. -/
inductive Denotes : TypeName → TypeName → Prop
  | self : Denotes TypeName.selfType C
  | concrete {t} : t ∈ ctx.concreteTypes → Denotes t t

mutual

/-- The expression has the type. -/
inductive HasType : Vars → Expr → TypeName → Prop
  | assign {V span name value S T} : name ≠ selfName → V name = some T → HasType V value S →
      ctx.Descends S T → HasType V (.assign span name value) T
  -- `SELF_TYPE` as a result is the type of the receiver
  | dispatch {V span receiver method args R m T} : HasReceiver V receiver R →
      ctx.HasMethod method R m → HasArgs V args m.paramTypes → Denotes ctx R m.ret T →
      HasType V (.dispatch span receiver method args) T
  -- also where the method is looked up in an ancestor
  | staticDispatch {V span receiver ancestor method args R A m T} : HasType V receiver R →
      Denotes ctx C ancestor A → ctx.Descends R A → ctx.HasMethod method A m →
      HasArgs V args m.paramTypes → Denotes ctx R m.ret T →
      HasType V (.staticDispatch span receiver ancestor method args) T
  | cond {V span test thenBranch elseBranch S A B T} : HasType V test S →
      ctx.Descends S TypeName.bool → HasType V thenBranch A → HasType V elseBranch B →
      ctx.IsJoin A B T → HasType V (.cond span test thenBranch elseBranch) T
  | loop {V span test body S T} : HasType V test S → ctx.Descends S TypeName.bool →
      HasType V body T → HasType V (.loop span test body) TypeName.object
  | letIn {V W span bindings body T} : HasBindings V bindings W → HasType W body T →
      HasType V (.letIn span bindings body) T
  | caseOf {V span scrutinee arms S Ts T} : HasType V scrutinee S → HasArms V arms Ts →
      ctx.JoinsTo Ts T → HasType V (.caseOf span scrutinee arms) T
  | emptyBlock {V span} : HasType V (.block span []) TypeName.object
  | block {V span body T} : HasBlock V body T → HasType V (.block span body) T
  | arithmetic {V span op left right A B} : op.isArithmetic = true → HasType V left A →
      HasType V right B → ctx.Descends A TypeName.int → ctx.Descends B TypeName.int →
      HasType V (.binary span op left right) TypeName.int
  | comparison {V span op left right A B} : op.isArithmetic = false → HasType V left A →
      HasType V right B → ctx.Descends A B ∨ ctx.Descends B A →
      HasType V (.binary span op left right) TypeName.bool
  | not {V span operand} : HasType V operand TypeName.bool →
      HasType V (.unary span .not operand) TypeName.bool
  | negate {V span operand S} : HasType V operand S → ctx.Descends S TypeName.int →
      HasType V (.unary span .negate operand) TypeName.int
  | isvoid {V span operand S} : HasType V operand S →
      HasType V (.unary span .isvoid operand) TypeName.bool
  | new {V span ty T} : Denotes ctx C ty T → HasType V (.new span ty) T
  | paren {V span inner T} : HasType V inner T → HasType V (.paren span inner) T
  | ident {V span name T} : V name = some T → HasType V (.ident span name) T
  | int {V span value} : HasType V (.int span value) TypeName.int
  | str {V span value} : HasType V (.str span value) TypeName.string
  | bool {V span value} : HasType V (.bool span value) TypeName.bool

/-- The receiver has the type, which is the class at hand if none is written. -/
inductive HasReceiver : Vars → Option Expr → TypeName → Prop
  | self {V} : HasReceiver V none C
  | expr {V e T} : HasType V e T → HasReceiver V (some e) T

/-- There are as many arguments as parameters, and they conform to the types of these. -/
inductive HasArgs : Vars → List Expr → List TypeName → Prop
  | nil {V} : HasArgs V [] []
  | cons {V e es S T Ts} : HasType V e S → ctx.Descends S T → HasArgs V es Ts →
      HasArgs V (e :: es) (T :: Ts)

/-- All expressions have types, the last one the given one. -/
inductive HasBlock : Vars → List Expr → TypeName → Prop
  | last {V e T} : HasType V e T → HasBlock V [e] T
  | cons {V e es S T} : HasType V e S → HasBlock V es T → HasBlock V (e :: es) T

/-- Behind the bindings `W` is in sight. An initial value sees the bindings before its own. -/
inductive HasBindings : Vars → List (Binder × Option Expr) → Vars → Prop
  | nil {V} : HasBindings V [] V
  | plain {V W b bindings T} : Denotes ctx C b.ty T → HasBindings (V.bind b.name T) bindings W →
      HasBindings V ((b, none) :: bindings) W
  | init {V W b e bindings S T} : Denotes ctx C b.ty T → HasType V e S → ctx.Descends S T →
      HasBindings (V.bind b.name T) bindings W → HasBindings V ((b, some e) :: bindings) W

/-- The bodies have the types, where each sees its own variable only. -/
inductive HasArms : Vars → List (Binder × Expr) → List TypeName → Prop
  | nil {V} : HasArms V [] []
  | cons {V b body arms S T Ts} : Denotes ctx C b.ty S → HasType (V.bind b.name S) body T →
      HasArms V arms Ts → HasArms V ((b, body) :: arms) (T :: Ts)

end

/-! ## Features -/

/-- What a class sees: the attributes of all its ancestors, and `self`. -/
inductive Sees : String → TypeName → Prop
  | attr {D a T} : ctx.Descends C D → a ∈ ctx.ownAttributes D → Denotes ctx C a.ty T →
      Sees a.name T
  | self : (∀ D, ctx.Descends C D → ∀ a ∈ ctx.ownAttributes D, a.name ≠ selfName) → Sees selfName C

/-- What is in sight behind the parameters. -/
inductive HasParams : Vars → List Param → Vars → Prop
  | nil {V} : HasParams V [] V
  | cons {V W p params T} : Denotes ctx C p.ty T → HasParams (V.bind p.name T) params W →
      HasParams V (p :: params) W

/-- The expression of the feature has a type that conforms to the declared one. -/
inductive FeatureTyped (V : Vars) : Feature → Prop
  | plain {a} : a.init = none → FeatureTyped V (.attr a)
  | init {a e S T} : a.init = some e → HasType ctx C V e S → Denotes ctx C a.ty T →
      ctx.Descends S T → FeatureTyped V (.attr a)
  | method {m W S T} : HasParams ctx C V m.params W → HasType ctx C W m.body S →
      Denotes ctx C m.ret T → ctx.Descends S T → FeatureTyped V (.method m)

end Rules

/-- All features of the class are typed, where they see just what the class sees. -/
def ClassTyped (ctx : Context) (c : ClassDecl) : Prop :=
  ∃ V : Vars, (∀ x T, V x = some T ↔ Sees ctx c.name x T) ∧
    ∀ f ∈ c.features, FeatureTyped ctx c.name V f

end CoolTyping
