import ConfigLang.Tree.Basic

/-!
# Truncating trees

An object cut to a number of levels keeps its options down to there. On the last level only
fields with values of their own are left.
-/

namespace ConfigLang

mutual

/-- Keeps a number of levels of objects, the object itself being the first. -/
def Object.truncate (depth : Nat) : Object → Object
  | ⟨name, label, fields, directives, comments, footer, position⟩ =>
    let kept :=
      if depth ≤ 1 then fields.filter fun field => field.2.isValue
      else truncateFields (depth - 1) fields
    ⟨name, label, kept, directives, comments, footer, position⟩

/-- Truncates every object among some fields. -/
def truncateFields (depth : Nat) : Fields → Fields
  | [] => []
  | (key, node) :: fields => (key, node.truncate depth) :: truncateFields depth fields

/-- Truncates the objects of a field. -/
def Node.truncate (depth : Nat) : Node → Node
  | .option binding => .option binding
  | .object o => .object (o.truncate depth)
  | .list name items => .list name (truncateItems depth items)

/-- Truncates every object of a list. -/
def truncateItems (depth : Nat) : List Node → List Node
  | [] => []
  | item :: items => item.truncate depth :: truncateItems depth items

end

end ConfigLang
