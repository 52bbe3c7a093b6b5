import ConfigLang.Tree.Basic

/-!
# Combining trees

A node is combined with the fields of an object in one of three ways. Appending never loses a
declaration: what shares a name becomes a list. Replacing keeps only the newcomer. Merging lays
objects over one another field by field and replaces everything else in place.

Laying an object with directives over another moves them behind the fields that were there: a
directive keeps running after the new fields that it followed.
-/

namespace ConfigLang

/-- How a node is combined with a field of the same name. -/
inductive Method where
  | merge
  | append
  | replace
deriving DecidableEq, Repr

namespace Method

/-- Every method. -/
def all : List Method :=
  [merge, append, replace]

/-- The name of a method. -/
def name : Method → String
  | merge => "merge"
  | append => "append"
  | replace => "replace"

/-- The method of a name. -/
def ofName? (name : String) : Option Method :=
  all.find? (·.name = name)

end Method

namespace Fields

/-- Puts a node behind what was declared under its name. -/
def insert (fields : Fields) (node : Node) : Fields :=
  match Keyed.get? fields node.name with
  | none => Keyed.put node.name node fields
  | some (.list name items) => Keyed.put node.name (.list name (items ++ node.flatten)) fields
  | some existing =>
    Keyed.put node.name (.list node.name (existing.flatten ++ node.flatten)) fields

/-- How many of the first `count` fields of `incoming` have a name that is new to `fields`. -/
def newBefore (fields incoming : Fields) (count : Nat) : Nat :=
  ((incoming.take count).filter fun field => !Keyed.contains fields field.1).length

end Fields

mutual

/-- Lays an object over another. -/
def Object.overlay (existing : Object) : Object → Object
  | ⟨_, label, fields, directives, _, _, _⟩ =>
    let moved := directives.map fun d =>
      { d with offset := existing.fields.length +
        Fields.newBefore existing.fields fields d.offset }
    { existing with
      label := label.or existing.label
      fields := mergeFields existing.fields fields
      directives := existing.directives ++ moved }

/-- Merges the nodes of some fields one after the other. -/
def mergeFields (fields : Fields) : Fields → Fields
  | [] => fields
  | (_, node) :: incoming => mergeFields (mergeNode fields node) incoming

/-- Merges one node. -/
def mergeNode (fields : Fields) : Node → Fields
  | .object incoming =>
    match Keyed.get? fields incoming.name with
    | some (.object existing) =>
      Keyed.put incoming.name (.object (existing.overlay incoming)) fields
    | _ => Keyed.put incoming.name (.object incoming) fields
  | .option binding => Keyed.put binding.name (.option binding) fields
  | .list name items => Keyed.put name (.list name items) fields

end

namespace Object

/-- Adds a declaration. -/
def insert (o : Object) (node : Node) : Object :=
  { o with fields := Fields.insert o.fields node }

/-- Combines a node with the fields of an object. -/
def combine (o : Object) (method : Method) (node : Node) : Object :=
  match method with
  | .append => o.insert node
  | .replace => { o with fields := Keyed.put node.name node o.fields }
  | .merge => { o with fields := mergeNode o.fields node }

/-- Combines some fields with those of an object, one after the other. -/
def combineAll (o : Object) (method : Method) (fields : Fields) : Object :=
  fields.foldl (fun o field => o.combine method field.2) o

end Object

end ConfigLang
