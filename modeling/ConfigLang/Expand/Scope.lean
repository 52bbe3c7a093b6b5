import ConfigLang.Tree.Basic

/-!
# Scopes of fragments

A definition gives a name to a fragment, which is visible from there on in its object and in the
objects inside.
-/

namespace ConfigLang

/-- What a definition binds a name to. -/
inductive Fragment where
  /-- A block, which is expanded already. -/
  | block (object : Object)
  /-- An expression, which is applied as an option with the name of the fragment. -/
  | value (expr : Expr)

/-- The fragments that are visible at a place, the latest and innermost definition first. -/
abbrev Scope := List (String × Fragment)

end ConfigLang
