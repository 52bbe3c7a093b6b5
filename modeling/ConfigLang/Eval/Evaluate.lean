import ConfigLang.Builtin.Binding
import ConfigLang.Builtin.Table
import ConfigLang.Expr

/-!
# Evaluating expressions

An expression is evaluated in an environment. A call of a function evaluates its arguments in the
scope of the caller, and then enters a scope of its own for the bound arguments and the defaults,
which it leaves again whether it has a value or not.
-/

namespace ConfigLang

/-- A computation in an environment that may fail. What was done to the environment before a
failure stays done. -/
abbrev Evaluation (m : Type → Type) := ExceptT EvalError (StateT Environment m)

namespace Evaluation

variable {m : Type → Type} [Monad m] {α : Type}

/-- A result that neither reads nor changes the environment. -/
def settled (x : Except EvalError α) : Evaluation m α :=
  ExceptT.mk (pure x)

/-- The result of reading the environment. -/
def read (f : Environment → Except EvalError α) : Evaluation m α :=
  ExceptT.mk do return f (← get)

/-- A computation that neither reads nor changes the environment. -/
def lift (x : ExceptT EvalError m α) : Evaluation m α :=
  ExceptT.mk (StateT.lift x.run)

/-- Runs a computation in a scope of its own, which is left whatever the result. -/
def inScope (frame : Frame) (x : Evaluation m α) : Evaluation m α :=
  ExceptT.mk do
    modify (·.push frame)
    let result ← x.run
    modify (·.pop.2)
    return result

end Evaluation

namespace Builtin

variable {m : Type → Type} [Monad m]

/-- Binds the parameters that are not bound yet. -/
def fillDefaults (function : String) : List Parameter → Evaluation m Unit
  | [] => return
  | p :: params => do
    unless (← get).current.contains p.name do
      let value ← .settled (p.fallback function)
      modify (·.define p.name value)
    fillDefaults function params

/-- Calls a function in a scope that holds its arguments. -/
def call (b : Builtin) (host : Host m) (arguments : Frame) : Evaluation m Value :=
  .inScope arguments do
    fillDefaults b.name b.params
    .lift (b.run host ⟨b.name, ← get⟩)

end Builtin

namespace Expr

variable {m : Type → Type} [Monad m] (host : Host m)

mutual

/-- Evaluates an expression. -/
def eval : Expr → Evaluation m Value
  | literal _ value unit =>
    match unit with
    | none => return value
    | some unit => .settled (value.arith .mul (.int (Int64.ofNat unit.factor)))
  | var .enclosing name _ => .read (·.resolveLocal name)
  | var .base name _ => .read (·.resolveBase name)
  | unary op operand => do
    .settled ((← operand.eval).unary op)
  | binary op left right => do
    let a ← left.eval
    match op with
    | .and => if a.isTruthy then return .bool (← right.eval).isTruthy else return .bool false
    | .or => if a.isTruthy then return .bool true else return .bool (← right.eval).isTruthy
    | op => .settled (a.binary op (← right.eval))
  | ternary condition yes no => do
    if (← condition.eval).isTruthy then yes.eval else no.eval
  | array items => return .slice (← evalList items)
  | index target i => do
    let a ← target.eval
    .settled (a.index (← i.eval))
  | call name args _ =>
    match Builtin.ofName? name with
    | none => throw (.undefinedFunction name)
    | some b => do
      let bound ← bindArgs b.name b.params args.length .empty args
      b.call host bound.toFrame

/-- Evaluates some expressions one after the other. -/
def evalList : List Expr → Evaluation m (List Value)
  | [] => return []
  | e :: es => do
    let value ← e.eval
    return value :: (← evalList es)

/-- Evaluates and binds the arguments of a call of `count` arguments one after the other. -/
def bindArgs (function : String) (params : List Parameter) (count : Nat) (bound : Binder) :
    List (Argument Expr) → Evaluation m Binder
  | [] => return bound
  | ⟨name?, e⟩ :: args => do
    let value ← e.eval
    match bound.bind params count name? value with
    | .ok bound => bindArgs function params count bound args
    | .error fault => throw (.invalidArgument function fault)

end

/-- The value of an expression in an environment. -/
def evaluate (env : Environment) (e : Expr) : ExceptT EvalError m Value :=
  ExceptT.mk do return (← (e.eval host).run.run env).1

end Expr

end ConfigLang
