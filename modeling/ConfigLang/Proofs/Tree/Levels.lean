import Mathlib
import ConfigLang.Proofs.Tree.Tidy

/-!
# The levels of a truncated object

An object counts as the first level of itself, and the objects in its fields and in the lists
among them as the next.  Truncating to `n` levels leaves every object down to the level `n` where
it was (`Object.descendant?_truncate`): above the last level with all that is not inside the
objects further down (`Object.outline_truncate`), on the last level with those of its fields that
hold no object.  No object is left below (`Object.descendant?_truncate_of_le`).

Of two truncations the shorter one counts (`Object.truncate_truncate`), and an object that has no
more levels than are asked for is left as it is (`Object.truncate_of_levels_le`).

## Strategy

The inductions follow the recursion of `truncate`, through objects, fields, nodes and items.

* **One level.**  Fields are truncated one by one and those without a value of their own are left
  out of the last level (`truncate_last`), or truncated further on (`truncate_inner`).  Options are
  never touched, and of lists only what is inside the objects in them
  (`Node.isValue_truncate`).
* **Few levels.**  `Object.levels_truncate_le` counts the levels that are left.
* **Flat trees.**  That nothing is lost where there is nothing to cut needs a list that holds an
  object to count as a level, which it does only if the object is not in a list within the list.
  `Object.isFlat` says so; trees are built that way (`Object.Tidy.isFlat`).
* **Each level.**  `Object.child?_truncate` follows one step of a path and
  `Object.descendant?_truncate` all of them.  On the last level everything comes down to the fields
  with values of their own, which no truncation changes (`truncate_last_of_isFlat`).
-/

namespace ConfigLang

/-! ## Levels -/

mutual

/-- The levels of objects, the object itself being the first. -/
def Object.levels : Object → Nat
  | ⟨_, _, fields, _, _, _, _⟩ => levelsFields fields + 1

/-- The levels of the objects among some fields. -/
def levelsFields : Fields → Nat
  | [] => 0
  | (_, node) :: fields => max node.levels (levelsFields fields)

/-- The levels of the objects of a field. -/
def Node.levels : Node → Nat
  | .option _ => 0
  | .object o => o.levels
  | .list _ items => levelsItems items

/-- The levels of the objects of a list. -/
def levelsItems : List Node → Nat
  | [] => 0
  | item :: items => max item.levels (levelsItems items)

end

mutual

/-- Whether no item of a list in an object is a list. -/
def Object.isFlat : Object → Bool
  | ⟨_, _, fields, _, _, _, _⟩ => isFlatFields fields

/-- Whether no item of a list in some fields is a list. -/
def isFlatFields : Fields → Bool
  | [] => true
  | (_, node) :: fields => node.isFlat && isFlatFields fields

/-- Whether no item of a list in a node is a list. -/
def Node.isFlat : Node → Bool
  | .option _ => true
  | .object o => o.isFlat
  | .list _ items => isFlatItems items

/-- Whether some items are no lists, and no item of a list in them is one. -/
def isFlatItems : List Node → Bool
  | [] => true
  | item :: items => !item.isList && item.isFlat && isFlatItems items

end

/-- Whether a node is an object, or a list with an object among its items. -/
def Node.holdsObject : Node → Bool
  | .option _ => false
  | .object _ => true
  | .list _ items => items.any isObject

/-- The object in a field, or in an item of the list in it. -/
def Object.child? (o : Object) : String × Option Nat → Option Object
  | (name, none) =>
    match o.get? name with
    | some (.object child) => some child
    | _ => none
  | (name, some i) =>
    match o.get? name with
    | some (.list _ items) =>
      match items[i]? with
      | some (.object child) => some child
      | _ => none
    | _ => none

/-- The object behind a path of fields and items. It is on the level that follows the length of the
path. -/
def Object.descendant? (o : Object) : List (String × Option Nat) → Option Object
  | [] => some o
  | place :: path => (o.child? place).bind fun child => child.descendant? path

mutual

/-- A node without what is inside the objects in it. -/
def Node.hollow : Node → Node
  | .option binding => .option binding
  | .object o => .object { o with fields := [] }
  | .list name items => .list name (hollowItems items)

/-- Some items without what is inside the objects in them. -/
def hollowItems : List Node → List Node
  | [] => []
  | item :: items => item.hollow :: hollowItems items

end

/-- An object on a level of its own, without what is inside the objects further down. -/
def Object.outline (o : Object) : Object :=
  { o with fields := o.fields.map fun field => (field.1, field.2.hollow) }

/-! ## One level -/

theorem truncateFields_eq_map (depth : Nat) (fields : Fields) :
    truncateFields depth fields = fields.map fun field => (field.1, field.2.truncate depth) := by
  induction fields with
  | nil => rw [truncateFields, List.map_nil]
  | cons field fields ih => rw [truncateFields, ih, List.map_cons]

theorem truncateItems_eq_map (depth : Nat) (items : List Node) :
    truncateItems depth items = items.map (Node.truncate depth) := by
  induction items with
  | nil => rw [truncateItems, List.map_nil]
  | cons item items ih => rw [truncateItems, ih, List.map_cons]

namespace Object

/-- On the last level only fields with values of their own are left. -/
theorem truncate_last {depth : Nat} (h : depth ≤ 1) (o : Object) :
    o.truncate depth = { o with fields := o.fields.filter fun field => field.2.isValue } := by
  obtain ⟨name, label, fields, directives, comments, footer, position⟩ := o
  rw [truncate, if_pos h]

/-- Above the last level the objects in the fields are truncated. -/
theorem truncate_inner {depth : Nat} (h : 1 < depth) (o : Object) :
    o.truncate depth = { o with fields := truncateFields (depth - 1) o.fields } := by
  obtain ⟨name, label, fields, directives, comments, footer, position⟩ := o
  rw [truncate, if_neg (Nat.not_le.mpr h)]

end Object

/-- Truncating leaves options alone, and of an object or a list all but what is inside. -/
theorem Node.isValue_truncate (depth : Nat) (node : Node) :
    (node.truncate depth).isValue = node.isValue := by
  cases node with
  | option binding => rw [truncate]
  | object o => rw [truncate]; rfl
  | list name items =>
      rw [truncate, isValue, isValue, truncateItems_eq_map, List.all_map]
      refine congrArg items.all (funext fun item => ?_)
      cases item with
      | option binding => rw [Function.comp, truncate]
      | object o => rw [Function.comp, truncate]; rfl
      | list name items => rw [Function.comp, truncate]; rfl

/-- There is nothing to truncate in what has a value of its own. -/
theorem Node.truncate_of_isValue {node : Node} (h : node.isValue = true) (depth : Nat) :
    node.truncate depth = node := by
  cases node with
  | option binding => rw [truncate]
  | object o => cases h
  | list name items =>
      rw [truncate, truncateItems_eq_map, List.map_congr_left, List.map_id]
      intro item hmem
      have hoption : item.isOption = true := List.all_eq_true.mp h item hmem
      cases item with
      | option binding => rw [truncate]; rfl
      | object o => cases hoption
      | list name items => cases hoption

theorem truncateFields_filter_isValue (depth : Nat) (fields : Fields) :
    truncateFields depth (fields.filter fun field => field.2.isValue) =
      fields.filter fun field => field.2.isValue := by
  rw [truncateFields_eq_map, List.map_congr_left, List.map_id]
  intro field hmem
  rw [Node.truncate_of_isValue (List.mem_filter.mp hmem).2]
  rfl

theorem filter_isValue_truncateFields (depth : Nat) (fields : Fields) :
    (truncateFields depth fields).filter (fun field => field.2.isValue) =
      fields.filter fun field => field.2.isValue := by
  rw [truncateFields_eq_map, List.filter_map, ← truncateFields_filter_isValue depth fields,
    truncateFields_eq_map]
  refine congrArg _ (List.filter_congr fun field _ => ?_)
  exact field.2.isValue_truncate depth

/-! ## Truncating twice -/

mutual

/-- Of two truncations the shorter one counts. -/
theorem Object.truncate_truncate (n m : Nat) : ∀ o : Object,
    (o.truncate n).truncate m = o.truncate (min n m)
  | ⟨name, label, fields, directives, comments, footer, position⟩ => by
    rcases Nat.lt_or_ge 1 n with hn | hn
    · rcases Nat.lt_or_ge 1 m with hm | hm
      · have hmin : 1 < min n m := Nat.lt_min.mpr ⟨hn, hm⟩
        rw [Object.truncate_inner hn, Object.truncate_inner hm, Object.truncate_inner hmin]
        dsimp only
        rw [truncateFields_truncateFields, ← Nat.sub_min_sub_right]
      · rw [Object.truncate_inner hn, Object.truncate_last hm,
          Object.truncate_last ((Nat.min_le_right n m).trans hm)]
        dsimp only
        rw [filter_isValue_truncateFields]
    · rw [Object.truncate_last hn, Object.truncate_last ((Nat.min_le_left n m).trans hn)]
      rcases Nat.lt_or_ge 1 m with hm | hm
      · rw [Object.truncate_inner hm]
        dsimp only
        rw [truncateFields_filter_isValue]
      · rw [Object.truncate_last hm]
        dsimp only
        rw [List.filter_filter]
        simp only [Bool.and_self]

theorem truncateFields_truncateFields (n m : Nat) : ∀ fields : Fields,
    truncateFields m (truncateFields n fields) = truncateFields (min n m) fields
  | [] => by rw [truncateFields, truncateFields, truncateFields]
  | (_, node) :: fields => by
    rw [truncateFields, truncateFields, truncateFields, Node.truncate_truncate n m node,
      truncateFields_truncateFields n m fields]

theorem Node.truncate_truncate (n m : Nat) : ∀ node : Node,
    (node.truncate n).truncate m = node.truncate (min n m)
  | .option binding => by rw [Node.truncate, Node.truncate, Node.truncate]
  | .object o => by rw [Node.truncate, Node.truncate, Node.truncate, Object.truncate_truncate n m o]
  | .list _ items => by
    rw [Node.truncate, Node.truncate, Node.truncate, truncateItems_truncateItems n m items]

theorem truncateItems_truncateItems (n m : Nat) : ∀ items : List Node,
    truncateItems m (truncateItems n items) = truncateItems (min n m) items
  | [] => by rw [truncateItems, truncateItems, truncateItems]
  | item :: items => by
    rw [truncateItems, truncateItems, truncateItems, Node.truncate_truncate n m item,
      truncateItems_truncateItems n m items]

end

/-! ## Few levels -/

theorem levelsItems_eq_zero {items : List Node} :
    levelsItems items = 0 ↔ ∀ item ∈ items, item.levels = 0 := by
  induction items with
  | nil => simp [levelsItems]
  | cons item items ih => simp [levelsItems, ih]

theorem levelsFields_eq_zero {fields : Fields} :
    levelsFields fields = 0 ↔ ∀ field ∈ fields, field.2.levels = 0 := by
  induction fields with
  | nil => simp [levelsFields]
  | cons field fields ih => simp [levelsFields, ih]

theorem Node.levels_of_isOption {node : Node} (h : node.isOption = true) : node.levels = 0 := by
  cases node with
  | option binding => rw [levels]
  | object o => cases h
  | list name items => cases h

theorem Node.levels_of_isValue {node : Node} (h : node.isValue = true) : node.levels = 0 := by
  cases node with
  | option binding => rw [levels]
  | object o => cases h
  | list name items =>
      rw [levels, levelsItems_eq_zero]
      exact fun item hmem => levels_of_isOption (List.all_eq_true.mp h item hmem)

mutual

/-- A truncated object has no more levels than were asked for. -/
theorem Object.levels_truncate_le {depth : Nat} (h : 1 ≤ depth) : ∀ o : Object,
    (o.truncate depth).levels ≤ depth
  | ⟨_, _, fields, _, _, _, _⟩ => by
    rcases Nat.lt_or_ge 1 depth with hinner | hlast
    · have hfields := levelsFields_truncate_le (Nat.le_sub_one_of_lt hinner) fields
      rw [Object.truncate_inner hinner, Object.levels]
      exact Nat.add_le_of_le_sub h hfields
    · have hvalues : levelsFields (fields.filter fun field => field.2.isValue) = 0 :=
        levelsFields_eq_zero.mpr fun field hmem =>
          Node.levels_of_isValue (List.mem_filter.mp hmem).2
      rw [Object.truncate_last hlast, Object.levels, hvalues]
      exact h

theorem levelsFields_truncate_le {depth : Nat} (h : 1 ≤ depth) : ∀ fields : Fields,
    levelsFields (truncateFields depth fields) ≤ depth
  | [] => by
    rw [truncateFields, levelsFields]
    exact Nat.zero_le _
  | (_, node) :: fields => by
    rw [truncateFields, levelsFields]
    exact Nat.max_le.mpr ⟨Node.levels_truncate_le h node, levelsFields_truncate_le h fields⟩

theorem Node.levels_truncate_le {depth : Nat} (h : 1 ≤ depth) : ∀ node : Node,
    (node.truncate depth).levels ≤ depth
  | .option _ => by
    rw [Node.truncate, Node.levels]
    exact Nat.zero_le _
  | .object o => by
    rw [Node.truncate, Node.levels]
    exact Object.levels_truncate_le h o
  | .list _ items => by
    rw [Node.truncate, Node.levels]
    exact levelsItems_truncate_le h items

theorem levelsItems_truncate_le {depth : Nat} (h : 1 ≤ depth) : ∀ items : List Node,
    levelsItems (truncateItems depth items) ≤ depth
  | [] => by
    rw [truncateItems, levelsItems]
    exact Nat.zero_le _
  | item :: items => by
    rw [truncateItems, levelsItems]
    exact Nat.max_le.mpr ⟨Node.levels_truncate_le h item, levelsItems_truncate_le h items⟩

end

/-! ## Flat trees -/

theorem isFlatItems_iff {items : List Node} :
    isFlatItems items = true ↔ ∀ item ∈ items, item.isList = false ∧ item.isFlat = true := by
  induction items with
  | nil => simp [isFlatItems]
  | cons item items ih => simp [isFlatItems, ih]

theorem isFlatFields_iff {fields : Fields} :
    isFlatFields fields = true ↔ ∀ field ∈ fields, field.2.isFlat = true := by
  induction fields with
  | nil => simp [isFlatFields]
  | cons field fields ih => simp [isFlatFields, ih]

/-- A node has a value of its own if there is no object in it. -/
theorem Node.isValue_eq_of_isFlat {node : Node} (h : node.isFlat = true) :
    node.isValue = !node.holdsObject := by
  cases node with
  | option binding => rfl
  | object o => rfl
  | list name items =>
      rw [isFlat, isFlatItems_iff] at h
      rw [isValue, holdsObject, Bool.eq_iff_iff, Bool.not_eq_true', List.all_eq_true,
        List.any_eq_false]
      refine forall₂_congr fun item hmem => ?_
      have hsingle := (h item hmem).1
      cases item with
      | option binding => simp [isOption, isObject]
      | object o => simp [isOption, isObject]
      | list name items => cases hsingle

theorem Node.isValue_of_levels {node : Node} (hflat : node.isFlat = true) (h : node.levels = 0) :
    node.isValue = true := by
  rw [isValue_eq_of_isFlat hflat, Bool.not_eq_true']
  cases node with
  | option binding => rfl
  | object o =>
      obtain ⟨name, label, fields, directives, comments, footer, position⟩ := o
      rw [levels, Object.levels] at h
      cases h
  | list name items =>
      rw [levels, levelsItems_eq_zero] at h
      refine List.any_eq_false.mpr fun item hmem hobject => ?_
      cases item with
      | option binding => cases hobject
      | list name items => cases hobject
      | object o =>
          have hitem := h _ hmem
          obtain ⟨name, label, fields, directives, comments, footer, position⟩ := o
          rw [levels, Object.levels] at hitem
          cases hitem

mutual

/-- An object with no more levels than are asked for stays as it is. -/
theorem Object.truncate_of_levels_le {depth : Nat} : ∀ {o : Object}, o.isFlat = true →
    o.levels ≤ depth → o.truncate depth = o
  | ⟨_, _, fields, _, _, _, _⟩, hflat, h => by
    rw [Object.isFlat] at hflat
    rw [Object.levels] at h
    rcases Nat.lt_or_ge 1 depth with hinner | hlast
    · rw [Object.truncate_inner hinner]
      dsimp only
      rw [truncateFields_of_levels_le hflat (Nat.le_sub_of_add_le h)]
    · have hnone : levelsFields fields = 0 := by omega
      rw [Object.truncate_last hlast]
      dsimp only
      rw [List.filter_eq_self.mpr]
      exact fun field hmem => Node.isValue_of_levels (isFlatFields_iff.mp hflat field hmem)
        (levelsFields_eq_zero.mp hnone field hmem)

theorem truncateFields_of_levels_le {depth : Nat} : ∀ {fields : Fields},
    isFlatFields fields = true → levelsFields fields ≤ depth → truncateFields depth fields = fields
  | [], _, _ => by rw [truncateFields]
  | (_, node) :: fields, hflat, h => by
    rw [isFlatFields, Bool.and_eq_true] at hflat
    rw [levelsFields, Nat.max_le] at h
    rw [truncateFields, Node.truncate_of_levels_le hflat.1 h.1,
      truncateFields_of_levels_le hflat.2 h.2]

theorem Node.truncate_of_levels_le {depth : Nat} : ∀ {node : Node}, node.isFlat = true →
    node.levels ≤ depth → node.truncate depth = node
  | .option _, _, _ => by rw [Node.truncate]
  | .object o, hflat, h => by
    rw [Node.isFlat] at hflat
    rw [Node.levels] at h
    rw [Node.truncate, Object.truncate_of_levels_le hflat h]
  | .list _ items, hflat, h => by
    rw [Node.isFlat] at hflat
    rw [Node.levels] at h
    rw [Node.truncate, truncateItems_of_levels_le hflat h]

theorem truncateItems_of_levels_le {depth : Nat} : ∀ {items : List Node},
    isFlatItems items = true → levelsItems items ≤ depth → truncateItems depth items = items
  | [], _, _ => by rw [truncateItems]
  | item :: items, hflat, h => by
    rw [isFlatItems, Bool.and_eq_true, Bool.and_eq_true] at hflat
    rw [levelsItems, Nat.max_le] at h
    rw [truncateItems, Node.truncate_of_levels_le hflat.1.2 h.1,
      truncateItems_of_levels_le hflat.2 h.2]

end

mutual

/-- No list holds a list in the trees that there are. -/
theorem Object.Tidy.isFlat : ∀ {o : Object}, o.Tidy → o.isFlat = true
  | ⟨_, _, fields, _, _, _, _⟩, h => by
    rw [Object.isFlat]
    exact Fields.Tidy.isFlat h.fields.nodes

theorem Fields.Tidy.isFlat : ∀ {fields : Fields}, (∀ field ∈ fields, field.2.Tidy) →
    isFlatFields fields = true
  | [], _ => by rw [isFlatFields]
  | (_, node) :: fields, h => by
    obtain ⟨hnode, hfields⟩ := List.forall_mem_cons.mp h
    rw [isFlatFields, Node.Tidy.isFlat hnode, Fields.Tidy.isFlat hfields, Bool.and_self]

theorem Node.Tidy.isFlat : ∀ {node : Node}, node.Tidy → node.isFlat = true
  | .option _, _ => by rw [Node.isFlat]
  | .object _, h => by
    rw [Node.isFlat]
    exact Object.Tidy.isFlat h.of_object
  | .list _ _, h => by
    rw [Node.isFlat]
    exact Node.Tidy.isFlatItems h.items

theorem Node.Tidy.isFlatItems {name : String} : ∀ {items : List Node},
    (∀ item ∈ items, Node.IsItem name item) → ConfigLang.isFlatItems items = true
  | [], _ => by rw [ConfigLang.isFlatItems]
  | item :: items, h => by
    obtain ⟨hitem, hitems⟩ := List.forall_mem_cons.mp h
    rw [ConfigLang.isFlatItems, hitem.single, Node.Tidy.isFlat hitem.tidy,
      Node.Tidy.isFlatItems hitems]
    rfl

end

/-! ## What is left on each level -/

theorem get?_truncateFields (depth : Nat) (fields : Fields) (name : String) :
    Keyed.get? (truncateFields depth fields) name =
      (Keyed.get? fields name).map (Node.truncate depth) := by
  induction fields with
  | nil => rw [truncateFields]; rfl
  | cons field fields ih =>
      rw [truncateFields, Keyed.get?_cons, Keyed.get?_cons, ih]
      split <;> rfl

mutual

/-- Truncating changes only what is inside objects. -/
theorem Node.hollow_truncate (depth : Nat) : ∀ node : Node,
    (node.truncate depth).hollow = node.hollow
  | .option _ => by rw [Node.truncate]
  | .object ⟨_, _, _, _, _, _, _⟩ => by
    rw [Node.truncate, Object.truncate, Node.hollow, Node.hollow]
  | .list _ items => by
    rw [Node.truncate, Node.hollow, Node.hollow, hollowItems_truncateItems depth items]

theorem hollowItems_truncateItems (depth : Nat) : ∀ items : List Node,
    hollowItems (truncateItems depth items) = hollowItems items
  | [] => by rw [truncateItems]
  | item :: items => by
    rw [truncateItems, hollowItems, hollowItems, Node.hollow_truncate depth item,
      hollowItems_truncateItems depth items]

end

namespace Object

variable {o : Object} {depth : Nat}

theorem outline_truncate (h : 1 < depth) (o : Object) : (o.truncate depth).outline = o.outline := by
  rw [truncate_inner h, outline, outline]
  dsimp only
  rw [truncateFields_eq_map, List.map_map]
  refine congrArg (fun fields => ({ o with fields } : Object)) ?_
  refine List.map_congr_left fun field _ => ?_
  rw [Function.comp, Node.hollow_truncate]

theorem child?_truncate (h : 1 < depth) (o : Object) (place : String × Option Nat) :
    (o.truncate depth).child? place = (o.child? place).map (truncate (depth - 1)) := by
  have hget : ∀ name,
      (o.truncate depth).get? name = (o.get? name).map (Node.truncate (depth - 1)) := by
    intro name
    rw [truncate_inner h]
    exact get?_truncateFields _ _ _
  obtain ⟨name, _ | i⟩ := place
  · rw [child?, child?, hget]
    cases o.get? name with
    | none => rfl
    | some node => cases node <;> (rw [Option.map_some, Node.truncate]; rfl)
  · rw [child?, child?, hget]
    cases o.get? name with
    | none => rfl
    | some node =>
        cases node with
        | option binding => rw [Option.map_some, Node.truncate]; rfl
        | object child => rw [Option.map_some, Node.truncate]; rfl
        | list name items =>
            rw [Option.map_some, Node.truncate]
            dsimp only
            rw [truncateItems_eq_map, List.getElem?_map]
            cases items[i]? with
            | none => rfl
            | some item => cases item <;> (rw [Option.map_some, Node.truncate]; rfl)

/-- The last level has no objects in its fields. -/
theorem child?_truncate_last (h : depth ≤ 1) (o : Object) (place : String × Option Nat) :
    (o.truncate depth).child? place = none := by
  have hvalue : ∀ name node, (o.truncate depth).get? name = some node → node.isValue = true := by
    intro name node hget
    rw [truncate_last h] at hget
    exact (List.mem_filter.mp (Keyed.mem_of_get? hget)).2
  obtain ⟨name, _ | i⟩ := place
  · rw [child?]
    split
    · rename_i child hget
      cases hvalue name _ hget
    · rfl
  · rw [child?]
    split
    · rename_i items hget
      split
      · rename_i child hitem
        cases List.all_eq_true.mp (hvalue name _ hget) _ (List.mem_of_getElem? hitem)
      · rfl
    · rfl

/-- What is left of an object that lies above the cut is the object, cut at the levels that are
left. -/
theorem descendant?_truncate {path : List (String × Option Nat)} (h : path.length < depth) :
    (o.truncate depth).descendant? path =
      (o.descendant? path).map (truncate (depth - path.length)) := by
  induction path generalizing o depth with
  | nil => rfl
  | cons place path ih =>
      rw [List.length_cons] at h
      rw [descendant?, descendant?, child?_truncate (by omega), List.length_cons, Nat.add_comm,
        ← Nat.sub_sub]
      cases o.child? place with
      | none => rfl
      | some child => exact ih (Nat.lt_sub_of_add_lt h)

theorem descendant?_truncate_of_le {path : List (String × Option Nat)} (hpos : 1 ≤ depth)
    (h : depth ≤ path.length) : (o.truncate depth).descendant? path = none := by
  induction path generalizing o depth with
  | nil => exact absurd (hpos.trans h) (by decide)
  | cons place path ih =>
      rw [List.length_cons] at h
      rw [descendant?]
      rcases Nat.lt_or_ge 1 depth with hinner | hlast
      · rw [child?_truncate hinner]
        cases o.child? place with
        | none => rfl
        | some child => exact ih (Nat.le_sub_one_of_lt hinner) (by omega)
      · rw [child?_truncate_last hlast]
        rfl

theorem isFlat_of_get? {name : String} {node : Node} (hflat : o.isFlat = true)
    (h : o.get? name = some node) : node.isFlat = true := by
  obtain ⟨_, _, fields, _, _, _, _⟩ := o
  rw [isFlat, isFlatFields_iff] at hflat
  exact hflat _ (Keyed.mem_of_get? h)

theorem isFlat_of_child? {place : String × Option Nat} {child : Object} (hflat : o.isFlat = true)
    (h : o.child? place = some child) : child.isFlat = true := by
  obtain ⟨name, _ | i⟩ := place
  · rw [child?] at h
    split at h
    · rename_i hget
      cases h
      have hnode := isFlat_of_get? hflat hget
      rwa [Node.isFlat] at hnode
    · cases h
  · rw [child?] at h
    split at h
    · rename_i hget
      split at h
      · rename_i hitem
        cases h
        have hnode := isFlat_of_get? hflat hget
        rw [Node.isFlat, isFlatItems_iff] at hnode
        have hchild := (hnode _ (List.mem_of_getElem? hitem)).2
        rwa [Node.isFlat] at hchild
      · cases h
    · cases h

theorem isFlat_of_descendant? {path : List (String × Option Nat)} {x : Object}
    (hflat : o.isFlat = true) (h : o.descendant? path = some x) : x.isFlat = true := by
  induction path generalizing o with
  | nil => cases h; exact hflat
  | cons place path ih =>
      obtain ⟨child, hchild, hx⟩ := Option.bind_eq_some_iff.mp h
      exact ih (isFlat_of_child? hflat hchild) hx

/-- On the last level lists with an object in them are left out as a whole, as are the objects. -/
theorem truncate_last_of_isFlat (h : depth ≤ 1) (hflat : o.isFlat = true) :
    o.truncate depth =
      { o with fields := o.fields.filter fun field => !field.2.holdsObject } := by
  obtain ⟨_, _, fields, _, _, _, _⟩ := o
  rw [isFlat, isFlatFields_iff] at hflat
  rw [truncate_last h]
  dsimp only
  rw [List.filter_congr fun field hmem => Node.isValue_eq_of_isFlat (hflat field hmem)]

/-- **What truncating leaves.**  An object cut to `n` levels has no more than `n`.  The objects
above the last of them keep their place and all that is not inside the objects further down, those
on the last keep the fields that hold no object, and none is left below.  A second cut counts if it
is the shorter one, and a cut below the last level of an object changes nothing. -/
theorem truncate_levels {n : Nat} (hflat : o.isFlat = true) (hn : 1 ≤ n) (m : Nat) :
    (o.truncate n).levels ≤ n ∧
    (∀ path, path.length + 1 < n →
      ((o.truncate n).descendant? path).map outline = (o.descendant? path).map outline) ∧
    (∀ path, path.length + 1 = n →
      (o.truncate n).descendant? path = (o.descendant? path).map fun x =>
        { x with fields := x.fields.filter fun field => !field.2.holdsObject }) ∧
    (∀ path, n < path.length + 1 → (o.truncate n).descendant? path = none) ∧
    (o.truncate n).truncate m = o.truncate (min n m) ∧
    (o.levels ≤ n → o.truncate n = o) := by
  refine ⟨levels_truncate_le hn o, ?_, ?_, ?_, truncate_truncate n m o, truncate_of_levels_le hflat⟩
  · intro path h
    rw [descendant?_truncate (by omega), Option.map_map]
    refine congrArg (Option.map · _) (funext fun x => ?_)
    exact outline_truncate (by omega) x
  · intro path h
    rw [descendant?_truncate (by omega)]
    refine Option.map_congr fun x hx => ?_
    exact truncate_last_of_isFlat (by omega) (isFlat_of_descendant? hflat hx)
  · intro path h
    exact descendant?_truncate_of_le hn (Nat.le_of_lt_succ h)

/-- A cluster cut to its service: the list of the service with a replica in it goes with the
replica, the list of ports stays. -/
theorem truncate_levels_of_cluster :
    let option (name : String) : Node := .option ⟨name, .array [], .none, .start⟩
    let object (name : String) : Object := .empty name .start
    let ports : Node := .list "ports" [option "ports", option "ports"]
    let replicas : Node :=
      .list "replicas" [option "replicas", .object ((object "replicas").insert (option "host"))]
    let service := ((object "service").insert ports).insert replicas
    let cluster := ((object "").insert (option "zone")).insert (.object service)
    let cut := ((object "").insert (option "zone")).insert
      (.object ((object "service").insert ports))
    cluster.isFlat = true ∧ 1 ≤ 2 ∧ cluster.levels = 3 ∧ cluster.truncate 2 = cut ∧
      (cluster.truncate 2).levels ≤ 2 ∧
      ((cluster.truncate 2).descendant? []).map outline = (some cluster).map outline ∧
      (cluster.truncate 2).descendant? [("service", none)] =
        some ((object "service").insert ports) ∧
      (cluster.truncate 2).descendant? [("service", none), ("replicas", some 1)] = none ∧
      (cluster.truncate 2).truncate 1 = cluster.truncate 1 := by
  intro option object ports replicas service cluster cut
  have hflat : cluster.isFlat = true := by decide +kernel
  obtain ⟨hlevels, houter, hlast, hnone, htwice, -⟩ := truncate_levels (n := 2) hflat (by decide) 1
  refine ⟨hflat, by decide, by decide +kernel, rfl, hlevels, houter [] (by decide), ?_,
    hnone _ (by decide), htwice⟩
  exact (hlast [("service", none)] rfl).trans rfl

end Object

end ConfigLang
