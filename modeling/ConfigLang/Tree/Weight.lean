import ConfigLang.Tree.Basic

/-!
# Weights of trees

The weight of a tree is the number of directives in it, those in blocks among the arguments of
directives included. It bounds how often directives can be found inside directives.
-/

namespace ConfigLang

mutual

/-- The number of directives in an object. -/
def Object.weight : Object → Nat
  | ⟨_, _, fields, directives, _, _, _⟩ => weightFields fields + weightDirectives directives

/-- The number of directives in some fields. -/
def weightFields : Fields → Nat
  | [] => 0
  | (_, node) :: fields => node.weight + weightFields fields

/-- The number of directives in a node. -/
def Node.weight : Node → Nat
  | .option _ => 0
  | .object o => o.weight
  | .list _ items => weightItems items

/-- The number of directives in the items of a list. -/
def weightItems : List Node → Nat
  | [] => 0
  | item :: items => item.weight + weightItems items

/-- The number of directives in some directives. -/
def weightDirectives : List Directive → Nat
  | [] => 0
  | ⟨_, args, _, _⟩ :: directives => 1 + weightArgs args + weightDirectives directives

/-- The number of directives in the arguments of a directive. -/
def weightArgs : List (Argument Payload) → Nat
  | [] => 0
  | ⟨_, payload⟩ :: args => payload.weight + weightArgs args

/-- The number of directives in an argument of a directive. -/
def Payload.weight : Payload → Nat
  | .expr _ => 0
  | .ident _ => 0
  | .block o => o.weight

end

end ConfigLang
