import ConfigLang.Builtin.Basic

/-!
# Binding the arguments of a call

Positional arguments fill the parameters in order. One that comes to a variadic parameter is
collected there, and so are all that follow it. A keyword binds its parameter by name, unless the
parameter has a value already.
-/

namespace ConfigLang

/-- The arguments of a call that are bound so far. -/
structure Binder where
  frame : Frame
  /-- How many parameters positional arguments have reached. -/
  reached : Nat
  /-- What a variadic parameter has collected. -/
  collected : Option (String × List Value)
deriving Repr

namespace Binder

/-- Nothing is bound yet. -/
def empty : Binder := ⟨.empty, 0, none⟩

/-- Binds a positional argument; `count` is the number of all arguments of the call. -/
def positional (params : List Parameter) (count : Nat) (value : Value) (b : Binder) :
    Except ArgumentFault Binder :=
  match b.collected with
  | some (name, values) => .ok { b with collected := some (name, values ++ [value]) }
  | none =>
    match params[b.reached]? with
    | none => .error (.tooMany params.length count)
    | some p =>
      if p.variadic then
        .ok { b with reached := b.reached + 1, collected := some (p.name, [value]) }
      else .ok { b with reached := b.reached + 1, frame := b.frame.define p.name value }

/-- Binds an argument by keyword. -/
def keyword (params : List Parameter) (name : String) (value : Value) (b : Binder) :
    Except ArgumentFault Binder :=
  match params.findIdx? (·.name = name) with
  | none => .error (.unknownParameter name)
  | some place =>
    if place < b.reached ∨ b.frame.contains name then .error (.boundTwice name)
    else .ok { b with frame := b.frame.define name value }

/-- Binds one argument. -/
def bind (params : List Parameter) (count : Nat) (name? : Option String) (value : Value)
    (b : Binder) : Except ArgumentFault Binder :=
  match name? with
  | none => b.positional params count value
  | some name => b.keyword params name value

/-- The frame of what is bound. -/
def toFrame (b : Binder) : Frame :=
  match b.collected with
  | none => b.frame
  | some (name, values) => b.frame.define name (.slice values)

end Binder

/-- What a parameter is bound to that no argument of the call of a function has bound. -/
def Parameter.fallback (function : String) (p : Parameter) : Except EvalError Value :=
  match p.default? with
  | some default => .ok default.value
  | none => if p.variadic then .ok (.slice []) else .error (.missingArgument function p.name)

end ConfigLang
