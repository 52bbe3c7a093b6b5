import ConfigLang.Operator
import ConfigLang.UnitSuffix
import ConfigLang.Value.Basic

/-!
# Expressions

The right-hand sides of options and the arguments of calls and directives, with the place where
an expression starts and the local variables that it reads.
-/

namespace ConfigLang

/-- Where a variable is looked up. -/
inductive VarScope where
  /-- The enclosing objects and call frames, written `$name`. -/
  | enclosing
  /-- The base variables, written `@name`. -/
  | base
deriving DecidableEq, Repr

/-- An argument of a call or directive, with its keyword if it has one. -/
structure Argument (α : Type) where
  name : Option String
  value : α
deriving Repr

/-- An expression. A literal keeps its token, and its value is the one before the unit. -/
inductive Expr where
  | literal (token : Token) (value : Value) (unit : Option UnitSuffix)
  | var (scope : VarScope) (name : String) (position : Position)
  | unary (op : UnaryOp) (operand : Expr)
  | binary (op : BinaryOp) (left right : Expr)
  | ternary (condition yes no : Expr)
  | array (items : List Expr)
  | index (target index : Expr)
  | call (name : String) (args : List (Argument Expr)) (position : Position)
deriving Repr, Inhabited

namespace Expr

mutual

/-- The place of the first token that an expression keeps. -/
def position? : Expr → Option Position
  | literal token _ _ => some token.position
  | var _ _ position => some position
  | unary _ operand => operand.position?
  | binary _ left _ => left.position?
  | ternary condition _ _ => condition.position?
  | array items => headPosition? items
  | index target _ => target.position?
  | call _ _ position => some position

/-- The place of the first expression of a list. -/
def headPosition? : List Expr → Option Position
  | [] => none
  | item :: _ => item.position?

end

/-- Puts a name behind the others if it is not among them. -/
def addName (name : String) (names : List String) : List String :=
  if name ∈ names then names else names ++ [name]

mutual

/-- Adds the local variables of an expression to `names`. -/
def collectLocals (names : List String) : Expr → List String
  | literal .. => names
  | var .enclosing name _ => addName name names
  | var .base _ _ => names
  | unary _ operand => operand.collectLocals names
  | binary _ left right => right.collectLocals (left.collectLocals names)
  | ternary condition yes no =>
    no.collectLocals (yes.collectLocals (condition.collectLocals names))
  | array items => collectLocalsList names items
  | index target i => i.collectLocals (target.collectLocals names)
  | call _ args _ => collectLocalsArgs names args

/-- Adds the local variables of some expressions to `names`. -/
def collectLocalsList (names : List String) : List Expr → List String
  | [] => names
  | item :: items => collectLocalsList (item.collectLocals names) items

/-- Adds the local variables of some arguments to `names`. -/
def collectLocalsArgs (names : List String) : List (Argument Expr) → List String
  | [] => names
  | ⟨_, value⟩ :: args => collectLocalsArgs (value.collectLocals names) args

end

/-- The local variables that an expression reads, in the order of the text, each once; both
branches of a choice count. -/
def locals (e : Expr) : List String :=
  e.collectLocals []

end Expr

end ConfigLang
