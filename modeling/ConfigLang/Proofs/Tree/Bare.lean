import Mathlib
import ConfigLang.Parse.Document
import ConfigLang.Proofs.Tree.Combine

/-!
# Trees without their comments

`Object.bare` is what is left of an object without the comments in it: those of its
fields and of the objects in it, and all footers.  Everything else is kept, the
positions and the directives with their blocks as well.

No parser looks at a comment that it has read, so what it puts together is the same with
and without the comments of the parts (`Object.bare_insert`, `Parse.bare_addDirective`).
-/

namespace ConfigLang

mutual

/-- An object without the comments in it. -/
def Object.bare : Object → Object
  | ⟨name, label, fields, directives, _, _, position⟩ =>
    ⟨name, label, bareFields fields, bareDirectives directives, .none, [], position⟩

/-- Fields without the comments in them. -/
def bareFields : Fields → Fields
  | [] => []
  | (key, node) :: fields => (key, node.bare) :: bareFields fields

/-- A node without the comments in it. -/
def Node.bare : Node → Node
  | .option binding => .option { binding with comments := .none }
  | .object o => .object o.bare
  | .list name items => .list name (bareItems items)

/-- The items of a list without the comments in them. -/
def bareItems : List Node → List Node
  | [] => []
  | item :: items => item.bare :: bareItems items

/-- Directives without the comments in their blocks. -/
def bareDirectives : List Directive → List Directive
  | [] => []
  | d :: directives => d.bare :: bareDirectives directives

/-- A directive without the comments in its blocks. -/
def Directive.bare : Directive → Directive
  | ⟨kind, args, position, offset⟩ => ⟨kind, bareArgs args, position, offset⟩

/-- The arguments of a directive without the comments in their blocks. -/
def bareArgs : List (Argument Payload) → List (Argument Payload)
  | [] => []
  | arg :: args => bareArg arg :: bareArgs args

/-- An argument of a directive without the comments in its block. -/
def bareArg : Argument Payload → Argument Payload
  | ⟨name, value⟩ => ⟨name, value.bare⟩

/-- What an argument of a directive is, without the comments in it. -/
def Payload.bare : Payload → Payload
  | .expr value => .expr value
  | .ident name => .ident name
  | .block o => .block o.bare

end

variable {o o' : Object} {node node' : Node}

/-! ## The parts of a tree -/

theorem bareItems_eq_map (items : List Node) : bareItems items = items.map Node.bare := by
  induction items with
  | nil => rw [bareItems, List.map_nil]
  | cons item items ih => rw [bareItems, ih, List.map_cons]

theorem bareDirectives_eq_map (directives : List Directive) :
    bareDirectives directives = directives.map Directive.bare := by
  induction directives with
  | nil => rw [bareDirectives, List.map_nil]
  | cons d directives ih => rw [bareDirectives, ih, List.map_cons]

theorem bareArgs_eq_map (args : List (Argument Payload)) : bareArgs args = args.map bareArg := by
  induction args with
  | nil => rw [bareArgs, List.map_nil]
  | cons arg args ih => rw [bareArgs, ih, List.map_cons]

theorem length_bareFields (fields : Fields) : (bareFields fields).length = fields.length := by
  induction fields with
  | nil => rw [bareFields]
  | cons field fields ih => rw [bareFields, List.length_cons, List.length_cons, ih]

theorem Object.bare_eq (o : Object) :
    o.bare = ⟨o.name, o.label, bareFields o.fields, bareDirectives o.directives, .none, [],
      o.position⟩ := by
  cases o
  rw [bare]

theorem Object.length_fields_of_bare (h : o'.bare = o.bare) :
    o'.fields.length = o.fields.length := by
  rw [bare_eq, bare_eq] at h
  injection h with _ _ hfields
  rw [← length_bareFields, hfields, length_bareFields]

theorem Object.bare_footer (o : Object) (footer : List String) :
    ({ o with footer } : Object).bare = o.bare := by
  rw [bare_eq, bare_eq]

theorem Object.bare_comments (o : Object) (comments : Comments) :
    ({ o with comments } : Object).bare = o.bare := by
  rw [bare_eq, bare_eq]

theorem Object.bare_position (o : Object) (position : Position) :
    ({ o with position } : Object).bare = { o.bare with position } := by
  rw [bare_eq, bare_eq o]

/-! ## Putting trees together -/

namespace Node

theorem name_bare (node : Node) : node.bare.name = node.name := by
  cases node with
  | option binding => rw [bare]; rfl
  | object o => rw [bare, name, name, Object.bare_eq]
  | list name items => rw [bare]; rfl

theorem flatten_bare (node : Node) : node.bare.flatten = node.flatten.map bare := by
  cases node with
  | option binding => rw [bare]; exact congrArg ([·]) (by rw [bare])
  | object o => rw [bare]; exact congrArg ([·]) (by rw [bare])
  | list name items => rw [bare, flatten, flatten, bareItems_eq_map]

end Node

theorem Method.bare_combine_append (held : Option Node) (node : Node) :
    (append.combine held node).bare = append.combine (held.map Node.bare) node.bare := by
  -- whatever is held already makes a list with the node, but a list keeps its name
  have hlist (name : String) (other : Node) :
      (Node.list name (other.flatten ++ node.flatten)).bare =
        .list name (other.bare.flatten ++ node.bare.flatten) := by
    rw [Node.bare, bareItems_eq_map, List.map_append, Node.flatten_bare, Node.flatten_bare]
  cases held with
  | none => rw [combine_none, Option.map_none, combine_none]
  | some other =>
      rw [Option.map_some]
      cases other with
      | option binding =>
          refine (hlist node.name (.option binding)).trans ?_
          rw [← node.name_bare, Node.bare]
          rfl
      | object o =>
          refine (hlist node.name (.object o)).trans ?_
          rw [← node.name_bare, Node.bare]
          rfl
      | list name items =>
          refine (hlist name (.list name items)).trans ?_
          rw [Node.bare]
          rfl

theorem get?_bareFields (fields : Fields) (key : String) :
    Keyed.get? (bareFields fields) key = (Keyed.get? fields key).map Node.bare := by
  induction fields with
  | nil => rw [bareFields]; rfl
  | cons field fields ih =>
      rw [bareFields, Keyed.get?_cons, Keyed.get?_cons, ih]
      split <;> rfl

theorem bareFields_put (key : String) (node : Node) (fields : Fields) :
    bareFields (Keyed.put key node fields) = Keyed.put key node.bare (bareFields fields) := by
  induction fields with
  | nil => simp only [Keyed.put, bareFields]
  | cons field fields ih =>
      obtain ⟨name, held⟩ := field
      rw [Keyed.put, bareFields, Keyed.put]
      split
      · rw [bareFields]
      · rw [bareFields, ih]

/-- Putting a node into an object has nothing to do with comments. -/
theorem Object.bare_insert (o : Object) (node : Node) :
    (o.insert node).bare = o.bare.insert node.bare := by
  have hfields : bareFields (o.insert node).fields = (o.bare.insert node.bare).fields := by
    rw [insert, insert, Fields.insert_eq, Fields.insert_eq, bareFields_put,
      Method.bare_combine_append, ← get?_bareFields, node.name_bare, bare_eq]
  rw [bare_eq, hfields, insert, insert, bare_eq o]

theorem Parse.bare_addDirective (o : Object) (d : Directive) (pending : List String) :
    (addDirective o d pending).bare = addDirective o.bare d.bare [] := by
  rw [Object.bare_eq, addDirective, addDirective, bareDirectives_eq_map, List.map_append,
    ← bareDirectives_eq_map, Object.bare_eq o]
  rfl

end ConfigLang
