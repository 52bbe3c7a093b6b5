import ConfigLang.Eval.Environment
import ConfigLang.Tree.Basic

/-!
# References between options

A `$name` in an option refers to the option of that name in the same object, or else in the
nearest object around it that has one; an option never refers to itself. Options, and lists of
nothing but options, can be referred to. A list of options refers to whatever its items refer to.
-/

namespace ConfigLang

namespace Object

/-- The field of a name, if it has a value of its own. -/
def valueNode? (o : Object) (name : String) : Option Node :=
  (o.get? name).filter Node.isValue

/-- Whether an object declares a value under a name. -/
def declares (o : Object) (name : String) : Bool :=
  (o.valueNode? name).isSome

/-- The number of fields with values of their own. -/
def valueCount (o : Object) : Nat :=
  o.fields.countP fun field => field.2.isValue

/-- An object with nothing but the fields that have values of their own. -/
def bindingsOnly (o : Object) : Object :=
  { Object.empty o.name o.position with fields := o.fields.filter fun field => field.2.isValue }

end Object

mutual

/-- Adds the local variables of a node to `names`. -/
def Node.collectLocals (names : List String) : Node → List String
  | .option binding => binding.value.collectLocals names
  | .object _ => names
  | .list _ items => collectLocalsItems names items

/-- Adds the local variables of the items of a list to `names`. -/
def collectLocalsItems (names : List String) : List Node → List String
  | [] => names
  | item :: items => collectLocalsItems (item.collectLocals names) items

end

/-- The local variables of a node, each once, in the order of the text. -/
def Node.locals (node : Node) : List String :=
  node.collectLocals []

/-- The level of the option that a `$name` refers to in the option `own` of an object at `level`.
The objects are listed from the outermost in. -/
def owner? (objects : List Object) (level : Nat) (own name : String) : Option Nat :=
  (List.range (level + 1)).reverse.find? fun i =>
    (i ≠ level || name ≠ own) && (objects[i]?.map (·.declares name)).getD false

end ConfigLang
