import ConfigLang.Expr
import ConfigLang.Keyed

/-!
# Document trees

A document is an object: named fields in the order of their declaration, each an option, an
object, or the list of all that was declared under one name. An object that is not expanded yet
also holds its directives, each with the number of fields that were declared before it.
-/

namespace ConfigLang

/-- The comments that belong to a node: the lines above it and the one behind it. -/
structure Comments where
  leading : List String
  trailing : Option String
deriving DecidableEq, Repr

/-- No comments. -/
def Comments.none : Comments := ⟨[], .none⟩

/-- An option: a name and the expression that it is bound to. -/
structure Binding where
  name : String
  value : Expr
  comments : Comments
  position : Position
deriving Repr

/-- The directives. -/
inductive DirectiveKind where
  | inclusion
  | definition
  | application
deriving DecidableEq, Repr

namespace DirectiveKind

/-- Every directive. -/
def all : List DirectiveKind :=
  [inclusion, definition, application]

/-- The name of a directive. -/
def name : DirectiveKind → String
  | inclusion => "include"
  | definition => "define"
  | application => "apply"

/-- The directive of a name. -/
def ofName? (name : String) : Option DirectiveKind :=
  all.find? (·.name = name)

end DirectiveKind

mutual

/-- An object. A block `kind name { … }` is stored under its kind and has its name as label. -/
structure Object where
  name : String
  label : Option String
  fields : List (String × Node)
  directives : List Directive
  comments : Comments
  /-- The comments at the end that belong to no field. -/
  footer : List String
  position : Position

/-- A directive that is still to run. -/
structure Directive where
  kind : DirectiveKind
  args : List (Argument Payload)
  position : Position
  /-- The number of fields declared before the directive. -/
  offset : Nat

/-- The argument of a directive: an expression, the name of a fragment, or a block. -/
inductive Payload where
  | expr (value : Expr)
  | ident (name : String)
  | block (object : Object)

/-- A field of an object. -/
inductive Node where
  | option (binding : Binding)
  | object (object : Object)
  | list (name : String) (items : List Node)

end

/-- The fields of an object in order. -/
abbrev Fields := List (String × Node)

namespace Node

/-- The name that a node carries. -/
def name : Node → String
  | option binding => binding.name
  | object o => o.name
  | list name _ => name

/-- Whether a node is an option. -/
def isOption : Node → Bool
  | option _ => true
  | _ => false

/-- Whether a node has a value of its own: options have, and lists of nothing but options. -/
def isValue : Node → Bool
  | option _ => true
  | object _ => false
  | list _ items => items.all isOption

/-- A node as the sequence of what was declared. -/
def flatten : Node → List Node
  | list _ items => items
  | node => [node]

/-- Whether a node is an object with a label. -/
def hasLabel (label : String) : Node → Bool
  | object o => o.label == some label
  | _ => false

mutual

/-- Gives a node another name; a list passes it on to its items. -/
def rename (new : String) : Node → Node
  | option binding => option { binding with name := new }
  | object o => object { o with name := new }
  | list _ items => list new (renameAll new items)

/-- Gives some nodes another name. -/
def renameAll (new : String) : List Node → List Node
  | [] => []
  | item :: items => item.rename new :: renameAll new items

end

end Node

/-- Reads a place in a list: decimal digits, perhaps with a plus before them. -/
def placeOfText? (key : String) : Option Nat :=
  let digits := match key.toList with
    | '+' :: cs => cs
    | cs => cs
  if digits.isEmpty || !digits.all Char.isDigit then none else some (Nat.ofDigitChars 10 digits 0)

/-- The item of a list that a key selects: the first object with that label, or else the item at
that place. -/
def selectItem? (items : List Node) (key : String) : Option Node :=
  (items.find? (Node.hasLabel key)).or <| do items[← placeOfText? key]?

namespace Object

/-- An object without fields. -/
def empty (name : String) (position : Position) : Object :=
  ⟨name, none, [], [], .none, [], position⟩

/-- The field of a name. -/
def get? (o : Object) (name : String) : Option Node :=
  Keyed.get? o.fields name

end Object

end ConfigLang
