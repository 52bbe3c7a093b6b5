import ConfigLang.Eval.Environment
import ConfigLang.Host

/-!
# Functions

A builtin function declares its parameters, and computes its value in the environment of a call,
where every parameter is bound. Only a few functions ask the host.
-/

namespace ConfigLang

/-- What a parameter is bound to when a call has no argument for it, and how that is written. -/
structure Default where
  source : String
  value : Value
deriving Repr

/-- A parameter. A variadic one takes all the positional arguments that are left. -/
structure Parameter where
  name : String
  default? : Option Default
  variadic : Bool
deriving Repr

namespace Parameter

/-- A parameter that every call has to bind. -/
def required (name : String) : Parameter := ⟨name, none, false⟩

/-- A parameter with a default. -/
def optional (name source : String) (value : Value) : Parameter :=
  ⟨name, some ⟨source, value⟩, false⟩

/-- A parameter that takes a slice of arguments. -/
def rest (name : String) : Parameter := ⟨name, none, true⟩

end Parameter

/-- A call of a function, and the environment in which its parameters are bound. -/
structure Call where
  function : String
  env : Environment

/-- A function. It may ask the host. -/
structure Builtin where
  name : String
  params : List Parameter
  run : {m : Type → Type} → [Monad m] → Host m → Call → ExceptT EvalError m Value

namespace Call

/-- The error of a faulty argument. -/
def invalid (c : Call) (fault : ArgumentFault) : EvalError :=
  .invalidArgument c.function fault

/-- The error of a missing argument. -/
def missing (c : Call) (parameter : String) : EvalError :=
  .missingArgument c.function parameter

/-- The error of an argument of the wrong kind. -/
def wrongKind (c : Call) (parameter : String) (wanted : Wanted) (found : Value) : EvalError :=
  c.invalid (.wrongKind parameter wanted found.kind)

/-- The value of a parameter, which is looked up in all frames. -/
def get (c : Call) (parameter : String) : Except EvalError Value :=
  c.env.resolve parameter

/-- The value of a parameter that must be an integer. -/
def int (c : Call) (parameter : String) : Except EvalError Int64 := do
  match ← c.get parameter with
  | .int n => return n
  | v => throw (c.wrongKind parameter .int v)

/-- The value of a parameter that must be a number. -/
def number (c : Call) (parameter : String) : Except EvalError Float := do
  let v ← c.get parameter
  match v.toFloat? with
  | some x => return x
  | none => throw (c.wrongKind parameter .number v)

/-- The value of a parameter that must be a text. -/
def text (c : Call) (parameter : String) : Except EvalError String := do
  match ← c.get parameter with
  | .text s => return s
  | v => throw (c.wrongKind parameter .text v)

/-- The value of a parameter that must be a truth value. -/
def bool (c : Call) (parameter : String) : Except EvalError Bool := do
  match ← c.get parameter with
  | .bool b => return b
  | v => throw (c.wrongKind parameter .bool v)

/-- The value of a parameter that must be a slice. -/
def slice (c : Call) (parameter : String) : Except EvalError (List Value) := do
  match ← c.get parameter with
  | .slice items => return items
  | v => throw (c.wrongKind parameter .slice v)

/-- A value as the sequence that it adds to a flattened one. -/
def spliced : Value → List Value
  | .slice items => items
  | v => [v]

/-- The items of a variadic parameter, where slices are spliced in one level deep. -/
def flattened (c : Call) (parameter : String) : Except EvalError (List Value) := do
  return (← c.slice parameter).flatMap spliced

end Call

namespace Builtin

/-- A result that needs no host. -/
def settled {m : Type → Type} [Monad m] {α : Type} (x : Except EvalError α) :
    ExceptT EvalError m α :=
  ExceptT.mk (Pure.pure x)

/-- A function that asks the host nothing. -/
def plain (name : String) (params : List Parameter) (run : Call → Except EvalError Value) :
    Builtin :=
  ⟨name, params, fun _ c => settled (run c)⟩

end Builtin

end ConfigLang
