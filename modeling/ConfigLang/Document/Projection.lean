import ConfigLang.Document.Query
import ConfigLang.Json

/-!
# Projecting documents

A document as one JSON value: objects keep the order of their fields, and the lists of repeated
declarations become arrays. One run evaluates each option at most once; the first option that
fails ends it, with its path.
-/

namespace ConfigLang

/-- A computation on a chain of levels that may fail at some path. -/
abbrev Projection (m : Type → Type) := ExceptT QueryError (StateT (List Level) m)

namespace Projection

variable {m : Type → Type} [Monad m] (host : Host m) (base : Frame)

/-- The JSON value of what is evaluated at a path. -/
def ofResolution (path : List String) (x : Resolution m Value) : Projection m Json := do
  return (← x.adapt (.eval path)).toJson

/-- Goes one level further in. -/
def inside {α : Type} (o : Object) (x : Projection m α) : Projection m α := do
  modify (· ++ [Level.ofObject o])
  let a ← x
  modify List.dropLast
  return a

mutual

/-- Projects the innermost object. -/
def ofObject (path : List String) : Object → Projection m Json
  | ⟨_, _, fields, _, _, _, _⟩ => return .object (← ofFields path fields)

/-- Projects the fields of the innermost object. -/
def ofFields (path : List String) : Fields → Projection m (List (String × Json))
  | [] => return []
  | (key, node) :: fields => do
    let here := path ++ [key]
    let json ←
      if node.isValue then ofResolution here (Resolution.field host base key)
      else ofNode here node
    return (key, json) :: (← ofFields path fields)

/-- Projects a node in the innermost object. -/
def ofNode (path : List String) : Node → Projection m Json
  | .option binding => ofResolution path (Resolution.evaluate host base (.option binding))
  | .object o => inside o (ofObject path o)
  | .list _ items => return .array (← ofItems path 0 items)

/-- Projects the items of a list, which go on from a place in it. -/
def ofItems (path : List String) (place : Nat) : List Node → Projection m (List Json)
  | [] => return []
  | item :: items => do
    let json ← ofNode (path ++ [toString place]) item
    return json :: (← ofItems path (place + 1) items)

end

end Projection

/-- Why a document is no value of a wanted type. -/
inductive DecodeError where
  | query (error : QueryError)
  | wrongShape
deriving DecidableEq, Repr

namespace Document

variable {m : Type → Type} [Monad m] (host : Host m)

/-- The document as a JSON value. -/
def toJson (d : Document) : ExceptT QueryError m Json :=
  ExceptT.mk do
    return (← (Projection.ofObject host d.base [] d.root).run.run (d.levels [d.root])).1

/-- Reads every field of an object in one way. -/
def decodeFields {α : Type} (read : Json → Option α) : Json → Option (List (String × α))
  | .object fields => fields.mapM fun (name, json) => (read json).map (name, ·)
  | _ => none

/-- The document as a dictionary of values that are read in one way, sorted by name. -/
def decode {α : Type} (d : Document) (read : Json → Option α) :
    ExceptT DecodeError m (List (String × α)) := do
  let json ← (d.toJson host).adapt .query
  match decodeFields read json with
  | some entries => return entries.mergeSort fun a b => a.1 ≤ b.1
  | none => throw .wrongShape

/-- The integer that a JSON value is. -/
def readInt : Json → Option Int64
  | .int n => some n
  | _ => none

/-- The text that a JSON value is. -/
def readText : Json → Option String
  | .text s => some s
  | _ => none

/-- The document as a dictionary of integers. -/
def decodeInts (d : Document) : ExceptT DecodeError m (List (String × Int64)) :=
  d.decode host readInt

/-- The document as a dictionary of texts. -/
def decodeTexts (d : Document) : ExceptT DecodeError m (List (String × String)) :=
  d.decode host readText

end Document

end ConfigLang
