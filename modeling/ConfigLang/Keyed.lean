/-!
# Ordered dictionaries

A dictionary that keeps its keys in the order in which they were first put is a list of pairs
with distinct keys. Overwriting a value keeps the place of its key.
-/

namespace ConfigLang.Keyed

variable {α : Type}

/-- The value of a key. -/
def get? (entries : List (String × α)) (key : String) : Option α :=
  entries.lookup key

/-- Whether a key has a value. -/
def contains (entries : List (String × α)) (key : String) : Bool :=
  (get? entries key).isSome

/-- The keys in order. -/
def keys (entries : List (String × α)) : List String :=
  entries.map Prod.fst

/-- Sets the value of a key; a new key goes to the end. -/
def put (key : String) (value : α) : List (String × α) → List (String × α)
  | [] => [(key, value)]
  | (k, v) :: entries =>
    if k = key then (k, value) :: entries else (k, v) :: put key value entries

/-- Removes a key; the others keep their order. -/
def remove (key : String) : List (String × α) → List (String × α)
  | [] => []
  | (k, v) :: entries => if k = key then entries else (k, v) :: remove key entries

/-- The dictionary of some entries, where a later value of a key overwrites an earlier one. -/
def ofList (entries : List (String × α)) : List (String × α) :=
  entries.foldl (fun all entry => put entry.1 entry.2 all) []

end ConfigLang.Keyed
