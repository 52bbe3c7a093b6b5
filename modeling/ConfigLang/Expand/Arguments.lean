import ConfigLang.Eval.Evaluate
import ConfigLang.Expand.Error
import ConfigLang.Tree.Merge

/-!
# Arguments of directives

The arguments of a directive are bound to its parameters, by place or by keyword, and then read
one by one. Expressions among them see the base variables and nothing else.
-/

namespace ConfigLang

/-- A computation that may ask the world around a document and may fail to expand it. -/
abbrev Expansion (m : Type → Type) := ExceptT ExpansionError m

/-- What the arguments of directives are evaluated in. -/
structure Scene (m : Type → Type) where
  host : Host m
  source : Source m
  env : Environment

namespace Directive

variable {m : Type → Type} [Monad m]

/-- The error of a faulty argument. -/
def invalid (d : Directive) (fault : DirectiveFault) : ExpansionError :=
  .argument d.kind fault d.position

/-- Binds arguments to parameters, of which positional arguments have taken `reached`. -/
def bindArgs (params : List String) (reached : Nat) (bound : List (String × Payload)) :
    List (Argument Payload) → Except DirectiveFault (List (String × Payload))
  | [] => .ok bound
  | ⟨none, value⟩ :: args =>
    match params[reached]? with
    | none => .error (.tooMany params.length)
    | some name =>
      if Keyed.contains bound name then .error (.givenTwice name)
      else bindArgs params (reached + 1) (Keyed.put name value bound) args
  | ⟨some name, value⟩ :: args =>
    if name ∉ params then .error (.unknownParameter name)
    else if Keyed.contains bound name then .error (.givenTwice name)
    else bindArgs params reached (Keyed.put name value bound) args

/-- The arguments of a directive by the names of its parameters. -/
def bind (d : Directive) (params : List String) : Expansion m (List (String × Payload)) :=
  ExceptT.mk (pure ((bindArgs params 0 [] d.args).mapError d.invalid))

/-- The argument of a parameter that has no default. -/
def required (d : Directive) (bound : List (String × Payload)) (parameter : String) :
    Expansion m Payload :=
  match Keyed.get? bound parameter with
  | some payload => return payload
  | none => throw (d.invalid (.missing parameter))

/-- The value of an argument that must be an expression. -/
def evaluate (d : Directive) (scene : Scene m) (parameter : String) :
    Payload → Expansion m Value
  | .expr e => (e.evaluate scene.host scene.env).adapt .eval
  | _ => throw (d.invalid (.notExpression parameter))

/-- A name: a bare one, or the text that an expression gives. -/
def nameOf (d : Directive) (scene : Scene m) (parameter : String) :
    Payload → Expansion m String
  | .ident name => return name
  | .expr e => do
    match ← d.evaluate scene parameter (.expr e) with
    | .text name => return name
    | v => throw (d.invalid (.notText parameter v.kind))
  | .block _ => throw (d.invalid (.isBlock parameter))

/-- The text of an argument that must be an expression. -/
def textOf (d : Directive) (scene : Scene m) (parameter : String) (payload : Payload) :
    Expansion m String := do
  match ← d.evaluate scene parameter payload with
  | .text s => return s
  | v => throw (d.invalid (.notText parameter v.kind))

/-- A truth value, which is false where there is no argument. -/
def flagOf (d : Directive) (scene : Scene m) (parameter : String) :
    Option Payload → Expansion m Bool
  | none => return false
  | some payload => do
    match ← d.evaluate scene parameter payload with
    | .bool b => return b
    | v => throw (d.invalid (.notBool parameter v.kind))

/-- How fields are combined, which is merging where there is no argument. -/
def methodOf (d : Directive) (scene : Scene m) : Option Payload → Expansion m Method
  | none => return .merge
  | some payload => do
    let name ← d.nameOf scene "method" payload
    match Method.ofName? name with
    | some method => return method
    | none => throw (d.invalid (.unknownMethod name))

/-- The text of a value that is one. -/
def textItem? : Value → Option String
  | .text s => some s
  | _ => none

/-- The texts of a slice of nothing but texts. -/
def textsOf (d : Directive) (scene : Scene m) (parameter : String) (payload : Payload) :
    Expansion m (List String) := do
  match ← d.evaluate scene parameter payload with
  | .slice items =>
    match items.mapM textItem? with
    | some texts => return texts
    | none => throw (d.invalid (.notTexts parameter))
  | _ => throw (d.invalid (.notTexts parameter))

/-- A number of levels, where zero stands for all of them. -/
def depthOf (d : Directive) (scene : Scene m) (parameter : String) (payload : Payload) :
    Expansion m Nat := do
  match ← d.evaluate scene parameter payload with
  | .int n => if n < 0 then throw (d.invalid (.notDepth (.int n))) else return n.toInt.toNat
  | v => throw (d.invalid (.notDepth v))

end Directive

end ConfigLang
