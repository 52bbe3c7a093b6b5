import ConfigLang.Document.Basic
import ConfigLang.Document.Resolution

/-!
# Queries

A path leads from the root of a document through its objects. At a list, the next segment picks
an item, by its label or by its place. What stands at the end of a path can be evaluated, read as
a value of a certain kind, looked at, or taken as a document of its own.
-/

namespace ConfigLang

open ConfigLang.Calendar (Moment)

/-- Why a query has no answer. -/
inductive QueryError where
  | emptyPath
  | objectNotFound (path : List String)
  | optionNotFound (path : List String)
  | notAnObject (path : List String)
  | notAnOption (path : List String)
  | wrongKind (path : List String) (expected found : Value.Kind)
  | eval (path : List String) (error : EvalError)
deriving DecidableEq, Repr

/-- How a path is shown. -/
def pathText (path : List String) : String :=
  String.intercalate "." path

/-- The wording of a query error. -/
def QueryError.message : QueryError → String
  | emptyPath => "empty path"
  | objectNotFound path => "object not found: " ++ pathText path
  | optionNotFound path => "option not found: " ++ pathText path
  | notAnObject path => "not an object: " ++ pathText path
  | notAnOption path => "not an option: " ++ pathText path
  | wrongKind path expected found =>
    pathText path ++ ": expected " ++ expected.name ++ ", found " ++ found.name
  | eval path error => pathText path ++ ": " ++ error.message

/-- What a path leads to: the objects on the way, from the root in, and the node at the end. -/
structure Place where
  chain : List Object
  node : Node

namespace Document

/-- The error that nothing is found at `path`, from where `rest` was to be followed. -/
def missing (path rest : List String) : QueryError :=
  if rest.isEmpty then .optionNotFound path else .objectNotFound path

/-- Follows a path from an object, the last one of `chain`, to which `walked` led. -/
def locateFrom (chain : List Object) (walked : List String) (o : Object) :
    List String → Except QueryError Place
  | [] => .error .emptyPath
  | [key] =>
    match o.get? key with
    | none => .error (missing (walked ++ [key]) [])
    | some node => .ok ⟨chain, node⟩
  | key :: next :: rest =>
    let here := walked ++ [key]
    match o.get? key with
    | none => .error (missing here (next :: rest))
    | some (.object inner) => locateFrom (chain ++ [inner]) here inner (next :: rest)
    | some (.option _) => .error (.notAnObject here)
    | some (.list _ items) =>
      -- the name of a list and the choice of its item are followed in one step
      let here := here ++ [next]
      match selectItem? items next, rest with
      | none, rest => .error (missing here rest)
      | some node, [] => .ok ⟨chain, node⟩
      | some (.object inner), rest => locateFrom (chain ++ [inner]) here inner rest
      | some _, _ => .error (.notAnObject here)

/-- Follows a path from the root. -/
def locate (d : Document) (path : List String) : Except QueryError Place :=
  locateFrom [d.root] [] d.root path

/-- The node at a path. -/
def node (d : Document) (path : List String) : Except QueryError Node :=
  (d.locate path).map (·.node)

/-- The expression of the option at a path. -/
def expr (d : Document) (path : List String) : Except QueryError Expr :=
  match d.node path with
  | .error e => .error e
  | .ok (.option binding) => .ok binding.value
  | .ok _ => .error (.notAnOption path)

/-- The object at a path as a document of its own. -/
def document (d : Document) (path : List String) : Except QueryError Document :=
  match d.locate path with
  | .error e => .error e
  | .ok ⟨chain, .object root⟩ =>
    .ok ⟨root, d.base, d.ancestors ++ chain.map Object.bindingsOnly⟩
  | .ok _ => .error (.notAnObject path)

variable {m : Type → Type} [Monad m] (host : Host m)

/-- The levels of a chain of objects in a document. -/
def levels (d : Document) (chain : List Object) : List Level :=
  (d.ancestors ++ chain).map Level.ofObject

/-- The value of the option at a path, or the slice of the values of a list of options. -/
def value (d : Document) (path : List String) : ExceptT QueryError m Value :=
  ExceptT.mk <|
    match d.locate path with
    | .error e => pure (.error e)
    | .ok ⟨chain, node⟩ =>
      if node.isValue then do
        let (result, _) ← (Resolution.evaluate host d.base node).run.run (d.levels chain)
        return result.mapError (.eval path)
      else pure (.error (.notAnOption path))

/-- The integer at a path. -/
def int (d : Document) (path : List String) : ExceptT QueryError m Int64 := do
  match ← d.value host path with
  | .int n => return n
  | v => throw (.wrongKind path .int v.kind)

/-- The number at a path as a double. -/
def double (d : Document) (path : List String) : ExceptT QueryError m Float := do
  let v ← d.value host path
  match v.toFloat? with
  | some x => return x
  | none => throw (.wrongKind path .double v.kind)

/-- The truth value at a path. -/
def bool (d : Document) (path : List String) : ExceptT QueryError m Bool := do
  match ← d.value host path with
  | .bool b => return b
  | v => throw (.wrongKind path .bool v.kind)

/-- The text at a path. -/
def text (d : Document) (path : List String) : ExceptT QueryError m String := do
  match ← d.value host path with
  | .text s => return s
  | v => throw (.wrongKind path .text v.kind)

/-- The moment at a path. -/
def moment (d : Document) (path : List String) : ExceptT QueryError m Moment := do
  match ← d.value host path with
  | .moment t => return t
  | v => throw (.wrongKind path .moment v.kind)

end Document

end ConfigLang
