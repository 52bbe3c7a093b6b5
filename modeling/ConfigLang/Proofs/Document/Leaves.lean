import Mathlib
import ConfigLang.Document.Projection
import ConfigLang.Proofs.Running
import ConfigLang.Proofs.Tree.Tidy

/-!
# The leaves of a document

The leaves are the options and the lists of options, and in other lists the items
that are options.  `assemble` puts a JSON value together from what the leaves are
worth: it fails as the first leaf does that fails (`fault?_assemble`), and otherwise
gives a value of the outline of the tree, with what each leaf is worth at the path of
the leaf (`assemble_ok`).

## Strategy

Leaves, outlines and what is assembled are each defined by the recursion of the tree,
through objects, fields, nodes and items, and the inductions follow it.

* **Faults.**  Fields are assembled in order, so the fault of the first that has one is the
  fault of all (`findSome?_map_cons`, `fault?_assembleFields`).
* **Outlines.**  `Object.Fits` says which members and items a JSON value has and in which
  order, but not what they are worth.
* **Worth.**  `Agrees` says what stands at the path of a leaf.  It is carried outwards by
  one name or place at a time (`Agrees.cons`).
-/

namespace ConfigLang

open Running

/-! ## Paths -/

mutual

/-- The paths of the leaves of an object, in the order of the document. -/
def Object.leaves : Object → List (List String)
  | ⟨_, _, fields, _, _, _, _⟩ => leavesOfFields fields

/-- The paths of the leaves among some fields. -/
def leavesOfFields : Fields → List (List String)
  | [] => []
  | (key, node) :: fields => node.leaves.map (key :: ·) ++ leavesOfFields fields

/-- The paths of the leaves of a node, from the node on. -/
def Node.leaves : Node → List (List String)
  | .option _ => [[]]
  | .object o => o.leaves
  | .list _ items => if items.all Node.isOption then [[]] else leavesOfItems 0 items

/-- The paths of the leaves among the items of a list, which go on from a place in it. -/
def leavesOfItems (place : Nat) : List Node → List (List String)
  | [] => []
  | item :: items => item.leaves.map (toString place :: ·) ++ leavesOfItems (place + 1) items

end

/-- A decimal place is read back. -/
theorem placeOfText?_toString (n : Nat) : placeOfText? (toString n) = some n := by
  have htext : (toString n).toList = Nat.toDigits 10 n := Nat.toList_repr
  have hdigits : ∀ c ∈ Nat.toDigits 10 n, c.isDigit = true :=
    fun c hc => Nat.isDigit_of_mem_toDigits (by decide) (by decide) hc
  unfold placeOfText?
  rw [htext]
  cases h : Nat.toDigits 10 n with
  | nil => exact absurd h Nat.toDigits_ne_nil
  | cons c cs =>
      have hplus : c ≠ '+' := by
        rintro rfl
        exact absurd (hdigits '+' (by rw [h]; exact List.mem_cons_self)) (by decide)
      have hall : (c :: cs).all Char.isDigit = true := List.all_eq_true.mpr (h ▸ hdigits)
      have hvalue : Nat.ofDigitChars 10 (c :: cs) 0 = n := h ▸ Nat.ofDigitChars_ten_toDigits
      split
      · rename_i heq
        cases heq
        exact absurd rfl hplus
      · simp only [hall, hvalue]
        rfl

namespace Json

/-- The member of an object under a key, or the item of an array at a place. -/
def child? : Json → String → Option Json
  | .object fields, key => Keyed.get? fields key
  | .array items, key => do items[← placeOfText? key]?
  | _, _ => none

/-- What stands at a path. -/
def at? (json : Json) (path : List String) : Option Json :=
  path.foldlM child? json

theorem at?_nil (json : Json) : json.at? [] = some json := rfl

theorem at?_cons {json inner : Json} {key : String} (h : json.child? key = some inner)
    (path : List String) : json.at? (key :: path) = inner.at? path := by
  rw [at?, List.foldlM_cons, h]
  rfl

end Json

/-! ## Outlines -/

mutual

/-- A JSON value has the outline of an object: its fields, in their order. -/
def Object.Fits : Object → Json → Prop
  | ⟨_, _, fields, _, _, _, _⟩, json => ∃ entries, json = .object entries ∧ FieldsFit fields entries

/-- Some members have the outline of some fields. -/
def FieldsFit : Fields → List (String × Json) → Prop
  | [], [] => True
  | (key, node) :: fields, (name, json) :: entries =>
    name = key ∧ node.Fits json ∧ FieldsFit fields entries
  | _, _ => False

/-- A JSON value has the outline of a node: that of an object, or the items of a list, in their
order. What a leaf is worth has none. -/
def Node.Fits : Node → Json → Prop
  | .option _, _ => True
  | .object o, json => o.Fits json
  | .list _ items, json =>
    items.all Node.isOption = true ∨ ∃ inner, json = .array inner ∧ ItemsFit items inner

/-- Some values have the outlines of the items of a list. -/
def ItemsFit : List Node → List Json → Prop
  | [], [] => True
  | item :: items, json :: inner => item.Fits json ∧ ItemsFit items inner
  | _, _ => False

end

/-! ## Assembling -/

section Assemble

variable (worth : List String → Except QueryError Value)

mutual

/-- The JSON value of an object from what its leaves are worth. -/
def Object.assemble (path : List String) : Object → Except QueryError Json
  | ⟨_, _, fields, _, _, _, _⟩ => (assembleFields path fields).map .object

/-- The members of a JSON value from what the leaves of some fields are worth. -/
def assembleFields (path : List String) : Fields → Except QueryError (List (String × Json))
  | [] => .ok []
  | (key, node) :: fields => do
    let json ← node.assemble (path ++ [key])
    let entries ← assembleFields path fields
    return (key, json) :: entries

/-- The JSON value of a node from what its leaves are worth. -/
def Node.assemble (path : List String) : Node → Except QueryError Json
  | .option _ => (worth path).map Value.toJson
  | .object o => o.assemble path
  | .list _ items =>
    if items.all Node.isOption then (worth path).map Value.toJson
    else (assembleItems path 0 items).map .array

/-- The items of a JSON value from what the leaves of some items are worth. -/
def assembleItems (path : List String) (place : Nat) : List Node → Except QueryError (List Json)
  | [] => .ok []
  | item :: items => do
    let json ← item.assemble (path ++ [toString place])
    let inner ← assembleItems path (place + 1) items
    return json :: inner

end

end Assemble

/-- The error of a result. -/
def fault? {ε α : Type} : Except ε α → Option ε
  | .error e => some e
  | .ok _ => none

section

variable {ε α β : Type}

theorem fault?_map (f : α → β) (x : Except ε α) : fault? (x.map f) = fault? x := by
  cases x <;> rfl

theorem fault?_bind_pure (x : Except ε α) (y : Except ε β) (f : α → β → β) :
    fault? (x >>= fun a => y >>= fun b => pure (f a b)) = (fault? x).or (fault? y) := by
  cases x with
  | error e => rfl
  | ok a => cases y <;> rfl

end

variable {worth : List String → Except QueryError Value}

theorem findSome?_map_cons {path : List String} {key : String} (paths : List (List String)) :
    (paths.map (key :: ·)).findSome? (fun q => fault? (worth (path ++ q))) =
      paths.findSome? fun q => fault? (worth (path ++ [key] ++ q)) := by
  rw [List.findSome?_map]
  exact congrArg (List.findSome? · paths) (funext fun q => by simp)

mutual

theorem fault?_assembleObject (path : List String) : ∀ o : Object,
    fault? (o.assemble worth path) = o.leaves.findSome? fun q => fault? (worth (path ++ q))
  | ⟨_, _, fields, _, _, _, _⟩ => by
    rw [Object.assemble, fault?_map, fault?_assembleFields path fields, Object.leaves]

theorem fault?_assembleFields (path : List String) : ∀ fields : Fields,
    fault? (assembleFields worth path fields) =
      (leavesOfFields fields).findSome? fun q => fault? (worth (path ++ q))
  | [] => by
    rw [assembleFields, leavesOfFields]
    rfl
  | (key, node) :: fields => by
    rw [assembleFields, fault?_bind_pure, leavesOfFields, List.findSome?_append,
      findSome?_map_cons, fault?_assemble (path ++ [key]) node, fault?_assembleFields path fields]

/-- Assembling fails as the first leaf does that fails. -/
theorem fault?_assemble (path : List String) : ∀ node : Node,
    fault? (node.assemble worth path) = node.leaves.findSome? fun q => fault? (worth (path ++ q))
  | .option _ => by simp [Node.assemble, Node.leaves, fault?_map]
  | .object o => by rw [Node.assemble, fault?_assembleObject path o, Node.leaves]
  | .list _ items => by
    rw [Node.assemble, Node.leaves]
    split
    · simp [fault?_map]
    · rw [fault?_map, fault?_assembleItems path 0 items]

theorem fault?_assembleItems (path : List String) (place : Nat) : ∀ items : List Node,
    fault? (assembleItems worth path place items) =
      (leavesOfItems place items).findSome? fun q => fault? (worth (path ++ q))
  | [] => by
    rw [assembleItems, leavesOfItems]
    rfl
  | item :: items => by
    rw [assembleItems, fault?_bind_pure, leavesOfItems, List.findSome?_append,
      findSome?_map_cons, fault?_assemble (path ++ [toString place]) item,
      fault?_assembleItems path (place + 1) items]

end

/-- A JSON value has at a path what the leaf there is worth. -/
def Agrees (worth : List String → Except QueryError Value) (path : List String) (json : Json)
    (q : List String) : Prop :=
  ∃ v, worth (path ++ q) = .ok v ∧ json.at? q = some v.toJson

theorem Agrees.cons {path q : List String} {json inner : Json} {key : String}
    (h : Agrees worth (path ++ [key]) inner q) (hchild : json.child? key = some inner) :
    Agrees worth path json (key :: q) := by
  obtain ⟨v, hv, hat⟩ := h
  refine ⟨v, ?_, (Json.at?_cons hchild q).trans hat⟩
  rwa [List.append_assoc] at hv

private theorem agrees_of_map {path : List String} {json : Json}
    (h : (worth path).map Value.toJson = .ok json) : ∀ q ∈ [[]], Agrees worth path json q := by
  rintro q hq
  rw [List.mem_singleton.mp hq]
  cases hworth : worth path with
  | error e =>
      rw [hworth] at h
      cases h
  | ok v =>
      rw [hworth] at h
      cases h
      exact ⟨v, by rwa [List.append_nil], Json.at?_nil _⟩

mutual

theorem assembleObject_ok (path : List String) : ∀ {o : Object} {json : Json}, o.Tidy →
    o.assemble worth path = .ok json → o.Fits json ∧ ∀ q ∈ o.leaves, Agrees worth path json q
  | ⟨_, _, fields, _, _, _, _⟩, json, htidy, h => by
    rw [Object.assemble] at h
    obtain ⟨entries, hentries, rfl⟩ := map_eq_ok h
    obtain ⟨hfits, hkeys, hagrees⟩ := assembleFields_ok path htidy.fields.nodes hentries
    rw [Object.Fits, Object.leaves]
    refine ⟨⟨entries, rfl, hfits⟩, ?_⟩
    intro q hq
    -- the names of the fields are distinct, so the JSON object has no entry twice
    obtain ⟨key, inner, rest, hmem, rfl, hrest⟩ := hagrees q hq
    have hdistinct : (Keyed.keys entries).Nodup := by
      rw [hkeys]
      exact htidy.fields.distinct
    exact hrest.cons (Keyed.get?_of_mem hdistinct hmem)

theorem assembleFields_ok (path : List String) : ∀ {fields : Fields}
    {entries : List (String × Json)}, (∀ field ∈ fields, field.2.Tidy) →
      assembleFields worth path fields = .ok entries →
      FieldsFit fields entries ∧ Keyed.keys entries = Keyed.keys fields ∧
        ∀ q ∈ leavesOfFields fields, ∃ key inner rest, (key, inner) ∈ entries ∧ q = key :: rest ∧
          Agrees worth (path ++ [key]) inner rest
  | [], entries, _, h => by
    rw [assembleFields] at h
    cases h
    rw [FieldsFit, leavesOfFields]
    exact ⟨trivial, rfl, fun _ hq => nomatch hq⟩
  | (key, node) :: fields, entries, htidy, h => by
    rw [assembleFields] at h
    obtain ⟨json, hjson, h⟩ := bind_eq_ok h
    obtain ⟨entries', hentries, h⟩ := bind_eq_ok h
    cases h
    obtain ⟨hfit, hagree⟩ := assemble_ok (path ++ [key]) (htidy _ List.mem_cons_self) hjson
    obtain ⟨hfits, hkeys, hagrees⟩ := assembleFields_ok path
      (fun field hmem => htidy field (List.mem_cons_of_mem _ hmem)) hentries
    rw [FieldsFit, leavesOfFields]
    refine ⟨⟨rfl, hfit, hfits⟩, congrArg (key :: ·) hkeys, fun q hq => ?_⟩
    rcases List.mem_append.mp hq with hq | hq
    · obtain ⟨rest, hrest, rfl⟩ := List.mem_map.mp hq
      exact ⟨key, json, rest, List.mem_cons_self, rfl, hagree rest hrest⟩
    · obtain ⟨key', inner, rest, hmem, heq, hrest⟩ := hagrees q hq
      exact ⟨key', inner, rest, List.mem_cons_of_mem _ hmem, heq, hrest⟩

/-- What is assembled has the outline of the tree, and at each leaf what that is worth. -/
theorem assemble_ok (path : List String) : ∀ {node : Node} {json : Json}, node.Tidy →
    node.assemble worth path = .ok json →
      node.Fits json ∧ ∀ q ∈ node.leaves, Agrees worth path json q
  | .option _, json, _, h => by
    rw [Node.assemble] at h
    rw [Node.Fits, Node.leaves]
    exact ⟨trivial, agrees_of_map h⟩
  | .object o, json, htidy, h => by
    rw [Node.assemble] at h
    rw [Node.Fits, Node.leaves]
    exact assembleObject_ok path htidy.of_object h
  | .list _ items, json, htidy, h => by
    rw [Node.assemble] at h
    rw [Node.Fits, Node.leaves]
    split at h
    · rename_i hall
      rw [if_pos hall]
      exact ⟨.inl hall, agrees_of_map h⟩
    · rename_i hall
      obtain ⟨inner, hinner, rfl⟩ := map_eq_ok h
      obtain ⟨hfits, hagrees⟩ := assembleItems_ok path 0
        (fun item hmem => (htidy.items item hmem).tidy) hinner
      rw [if_neg hall]
      refine ⟨.inr ⟨inner, rfl, hfits⟩, ?_⟩
      intro q hq
      obtain ⟨i, json, rest, hget, rfl, hrest⟩ := hagrees q hq
      refine hrest.cons ?_
      rw [Json.child?, Nat.zero_add, placeOfText?_toString]
      exact hget

theorem assembleItems_ok (path : List String) (place : Nat) : ∀ {items : List Node}
    {inner : List Json}, (∀ item ∈ items, item.Tidy) →
      assembleItems worth path place items = .ok inner →
      ItemsFit items inner ∧ ∀ q ∈ leavesOfItems place items, ∃ i json rest,
        inner[i]? = some json ∧ q = toString (place + i) :: rest ∧
          Agrees worth (path ++ [toString (place + i)]) json rest
  | [], inner, _, h => by
    rw [assembleItems] at h
    cases h
    rw [ItemsFit, leavesOfItems]
    exact ⟨trivial, fun _ hq => nomatch hq⟩
  | item :: items, inner, htidy, h => by
    rw [assembleItems] at h
    obtain ⟨json, hjson, h⟩ := bind_eq_ok h
    obtain ⟨inner', hinner, h⟩ := bind_eq_ok h
    cases h
    obtain ⟨hfit, hagree⟩ :=
      assemble_ok (path ++ [toString place]) (htidy item List.mem_cons_self) hjson
    obtain ⟨hfits, hagrees⟩ := assembleItems_ok path (place + 1)
      (fun other hmem => htidy other (List.mem_cons_of_mem _ hmem)) hinner
    rw [ItemsFit, leavesOfItems]
    refine ⟨⟨hfit, hfits⟩, ?_⟩
    intro q hq
    rcases List.mem_append.mp hq with hq | hq
    · obtain ⟨rest, hrest, rfl⟩ := List.mem_map.mp hq
      exact ⟨0, json, rest, rfl, rfl, hagree rest hrest⟩
    · obtain ⟨i, json', rest, hget, heq, hrest⟩ := hagrees q hq
      rw [Nat.add_right_comm] at heq hrest
      exact ⟨i + 1, json', rest, hget, heq, hrest⟩

end

end ConfigLang
