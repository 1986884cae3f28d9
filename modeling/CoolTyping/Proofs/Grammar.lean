import CoolTyping.Parser.Program

/-!
# The grammar

Which words are a program, and which trees they may be read as. Every rule relates a tree to the words
that it covers; places and scope numbers in the tree are free. The grammar has more than one tree for
some words: a `let` takes no word at its end, so its body may be taken to end early or late.
-/

namespace CoolTyping.Grammar

variable {α : Type}

abbrev Words := List TokenKind

/-! ## Repetition and options -/

/-- One or more items with the word `sep` between them. -/
inductive SepBy (D : α → Words → Prop) (sep : TokenKind) : List α → Words → Prop
  | one {a w} : D a w → SepBy D sep [a] w
  | more {a as u v} : D a u → SepBy D sep as v → SepBy D sep (a :: as) (u ++ sep :: v)

/-- Items with commas between them, or none. -/
inductive Listed (D : α → Words → Prop) : List α → Words → Prop
  | none : Listed D [] []
  | some {as w} : SepBy D (.symbol .comma) as w → Listed D as w

/-- Any number of items, each with a semicolon behind it. -/
inductive Ended (D : α → Words → Prop) : List α → Words → Prop
  | nil : Ended D [] []
  | cons {a as u v} : D a u → Ended D as v → Ended D (a :: as) (u ++ .symbol .semi :: v)

/-- An item behind the word `first`, or nothing. -/
inductive OptionalAfter (first : TokenKind) (D : α → Words → Prop) : Option α → Words → Prop
  | none : OptionalAfter first D none []
  | some {a w} : D a w → OptionalAfter first D (some a) (first :: w)

/-! ## Expressions -/

/-- `ID : TYPE [<- expr]` -/
inductive Binding (D : Expr → Words → Prop) : Binder × Option Expr → Words → Prop
  | mk {b init w} : OptionalAfter (.symbol .assign) D init w →
      Binding D (b, init) (.identifier b.name :: .symbol .colon :: .typeName b.ty :: w)

/-- `ID : TYPE => expr` -/
inductive Arm (D : Expr → Words → Prop) : Binder × Expr → Words → Prop
  | mk {b body w} : D body w →
      Arm D (b, body)
        (.identifier b.name :: .symbol .colon :: .typeName b.ty :: .symbol .arrow :: w)

/-- Levels of binding strength, the loosest first. -/
inductive Level where
  | expr | negation | comparison | sum | term | factor | negated | postfixed | atom
deriving DecidableEq

/-- The words are an expression of the level, with the given tree. -/
inductive Derives : Level → Expr → Words → Prop
  -- expr := ID <- expr | negation
  | assign {s x e w} : Derives .expr e w →
      Derives .expr (.assign s x e) (.identifier x :: .symbol .assign :: w)
  | ofNegation {e w} : Derives .negation e w → Derives .expr e w
  -- negation := not negation | comparison
  | not {s e w} : Derives .negation e w →
      Derives .negation (.unary s .not e) (.keyword .notKw :: w)
  | ofComparison {e w} : Derives .comparison e w → Derives .negation e w
  -- comparison := sum [(<= | < | =) sum]
  | compare {s o l r u v} : o ∈ [BinaryOp.le, .lt, .eq] → Derives .sum l u → Derives .sum r v →
      Derives .comparison (.binary s o l r) (u ++ .symbol o.symbol :: v)
  | ofSum {e w} : Derives .sum e w → Derives .comparison e w
  -- sum := term {(+ | -) term}
  | add {s o l r u v} : o ∈ [BinaryOp.add, .sub] → Derives .sum l u → Derives .term r v →
      Derives .sum (.binary s o l r) (u ++ .symbol o.symbol :: v)
  | ofTerm {e w} : Derives .term e w → Derives .sum e w
  -- term := factor {(* | /) factor}
  | mul {s o l r u v} : o ∈ [BinaryOp.mul, .div] → Derives .term l u → Derives .factor r v →
      Derives .term (.binary s o l r) (u ++ .symbol o.symbol :: v)
  | ofFactor {e w} : Derives .factor e w → Derives .term e w
  -- factor := isvoid factor | negated
  | isvoid {s e w} : Derives .factor e w →
      Derives .factor (.unary s .isvoid e) (.keyword .isvoidKw :: w)
  | ofNegated {e w} : Derives .negated e w → Derives .factor e w
  -- negated := ~ negated | postfixed
  | negate {s e w} : Derives .negated e w →
      Derives .negated (.unary s .negate e) (.symbol .tilde :: w)
  | ofPostfixed {e w} : Derives .postfixed e w → Derives .negated e w
  -- postfixed := atom {. ID args | @ TYPE . ID args}, where args := ( [expr {, expr}] )
  | call {s e m args u v} : Derives .postfixed e u → Listed (Derives .expr) args v →
      Derives .postfixed (.dispatch s (some e) m args)
        (u ++ .symbol .dot :: .identifier m :: .symbol .lparen :: v ++ [.symbol .rparen])
  | staticCall {s e t m args u v} : Derives .postfixed e u → Listed (Derives .expr) args v →
      Derives .postfixed (.staticDispatch s e t m args)
        (u ++ .symbol .atSign :: .typeName t :: .symbol .dot :: .identifier m :: .symbol .lparen ::
          v ++ [.symbol .rparen])
  | ofAtom {e w} : Derives .atom e w → Derives .postfixed e w
  -- atoms
  | cond {s a b c u v w} : Derives .expr a u → Derives .expr b v → Derives .expr c w →
      Derives .atom (.cond s a b c)
        (.keyword .ifKw :: u ++ .keyword .thenKw :: v ++ .keyword .elseKw :: w ++ [.keyword .fiKw])
  | loop {s a b u v} : Derives .expr a u → Derives .expr b v →
      Derives .atom (.loop s a b)
        (.keyword .whileKw :: u ++ .keyword .loopKw :: v ++ [.keyword .poolKw])
  | letIn {s bindings e u v} :
      SepBy (Binding (Derives .expr)) (.symbol .comma) bindings u → Derives .expr e v →
      Derives .atom (.letIn s bindings e) (.keyword .letKw :: u ++ .keyword .inKw :: v)
  | caseOf {s e arms u v} :
      Derives .expr e u → Ended (Arm (Derives .expr)) arms v → arms ≠ [] →
      Derives .atom (.caseOf s e arms)
        (.keyword .caseKw :: u ++ .keyword .ofKw :: v ++ [.keyword .esacKw])
  | new {s t} : Derives .atom (.new s t) [.keyword .newKw, .typeName t]
  | paren {s e w} : Derives .expr e w →
      Derives .atom (.paren s e) (.symbol .lparen :: w ++ [.symbol .rparen])
  | block {s es w} : Ended (Derives .expr) es w → es ≠ [] →
      Derives .atom (.block s es) (.symbol .lbrace :: w ++ [.symbol .rbrace])
  | ident {s x} : Derives .atom (.ident s x) [.identifier x]
  | selfCall {s m args w} : Listed (Derives .expr) args w →
      Derives .atom (.dispatch s none m args)
        (.identifier m :: .symbol .lparen :: w ++ [.symbol .rparen])
  | int {s} {n : Nat} : Derives .atom (.int s n) [.integer n]
  | str {s v} : Derives .atom (.str s v) [.string v]
  | bool {s} {b : Bool} : Derives .atom (.bool s b)
      [.keyword (if b then .trueKw else .falseKw)]

/-! ## Programs -/

/-- `ID : TYPE` -/
inductive DerivesParam : Param → Words → Prop
  | mk {p} : DerivesParam p [.identifier p.name, .symbol .colon, .typeName p.ty]

/-- `ID : TYPE [<- expr]` or `ID ( [ID : TYPE {, ID : TYPE}] ) : TYPE { expr }` -/
inductive DerivesFeature : Feature → Words → Prop
  | attr {a w} : OptionalAfter (.symbol .assign) (Derives .expr) a.init w →
      DerivesFeature (.attr a) (.identifier a.name :: .symbol .colon :: .typeName a.ty :: w)
  | method {m u v} : Listed DerivesParam m.params u → Derives .expr m.body v →
      DerivesFeature (.method m)
        (.identifier m.name :: .symbol .lparen :: u ++ .symbol .rparen :: .symbol .colon ::
          .typeName m.ret :: .symbol .lbrace :: v ++ [.symbol .rbrace])

/-- The word for the name of a type. -/
inductive DerivesType : TypeName → Words → Prop
  | mk {ty} : DerivesType ty [.typeName ty]

/-- `class TYPE [inherits TYPE] { (feature ;)* }` -/
inductive DerivesClass : ClassDecl → Words → Prop
  | mk {c u v} : OptionalAfter (.keyword .inheritsKw) DerivesType c.parent u →
      Ended DerivesFeature c.features v →
      DerivesClass c (.keyword .classKw :: .typeName c.name :: u ++ .symbol .lbrace :: v ++
        [.symbol .rbrace])

/-- `(class ;)+` -/
inductive DerivesProgram : Program → Words → Prop
  | mk {p w} : Ended DerivesClass p.classes w → p.classes ≠ [] → DerivesProgram p w

end CoolTyping.Grammar
