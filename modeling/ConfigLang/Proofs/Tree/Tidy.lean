import Mathlib
import ConfigLang.Proofs.Keyed
import ConfigLang.Token.Lexeme
import ConfigLang.Tree.Merge
import ConfigLang.Tree.Truncate

/-!
# Tidy trees

A tree is tidy if its shape is one that a text can have: the fields of an object
have distinct keys and carry the names that they are stored under, a list has at least
two items, which carry the name of the list and are no lists themselves, and labels are
names.  The blocks among the arguments of directives are part of the tree.

Whatever puts trees together keeps them tidy.  For fields this comes down to
`Fields.Tidy.put`; the rest follows the recursion of the definitions.
-/

namespace ConfigLang

/-- Whether a node is a list. -/
def Node.isList : Node → Bool
  | .list .. => true
  | _ => false

/-- Whether a node is an object. -/
def Node.isObject : Node → Bool
  | .object _ => true
  | _ => false

mutual

/-- An object of a shape that a text can have. -/
inductive Object.Tidy : Object → Prop
  | intro {o : Object}
      (label : ∀ label, o.label = some label → Lexeme.startsName label.toList = true)
      (distinct : (Keyed.keys o.fields).Nodup)
      (named : ∀ field ∈ o.fields, field.2.name = field.1)
      (nodes : ∀ field ∈ o.fields, field.2.Tidy)
      (blocks : ∀ d ∈ o.directives, ∀ arg ∈ d.args, ∀ block, arg.value = .block block →
        block.Tidy) :
      o.Tidy

/-- A node of a shape that a text can have. -/
inductive Node.Tidy : Node → Prop
  | option (binding : Binding) : Node.Tidy (.option binding)
  | object {o : Object} (h : o.Tidy) : Node.Tidy (.object o)
  | list {name : String} {items : List Node}
      (several : 2 ≤ items.length)
      (named : ∀ item ∈ items, item.name = name)
      (single : ∀ item ∈ items, item.isList = false)
      (nodes : ∀ item ∈ items, item.Tidy) :
      Node.Tidy (.list name items)

end

/-- Fields of a shape that a text can have. -/
structure Fields.Tidy (fields : Fields) : Prop where
  distinct : (Keyed.keys fields).Nodup
  named : ∀ field ∈ fields, field.2.name = field.1
  nodes : ∀ field ∈ fields, field.2.Tidy

/-- If an argument of a directive is a block, it is tidy. -/
def Payload.Tidy (payload : Payload) : Prop :=
  ∀ block, payload = .block block → block.Tidy

/-- The blocks among the arguments of a directive are tidy. -/
def Directive.Tidy (d : Directive) : Prop :=
  ∀ arg ∈ d.args, arg.value.Tidy

/-- A node as an item of the list of a name. -/
structure Node.IsItem (name : String) (item : Node) : Prop where
  named : item.name = name
  single : item.isList = false
  tidy : item.Tidy

variable {o : Object} {node : Node}

namespace Object.Tidy

theorem label (h : o.Tidy) : ∀ label, o.label = some label →
    Lexeme.startsName label.toList = true := by
  cases h
  assumption

theorem fields (h : o.Tidy) : Fields.Tidy o.fields := by
  cases h with
  | intro _ distinct named nodes _ => exact ⟨distinct, named, nodes⟩

theorem directives (h : o.Tidy) : ∀ d ∈ o.directives, d.Tidy := by
  cases h
  assumption

theorem mk' (hlabel : ∀ label, o.label = some label → Lexeme.startsName label.toList = true)
    (hfields : Fields.Tidy o.fields) (hdirectives : ∀ d ∈ o.directives, d.Tidy) : o.Tidy :=
  .intro hlabel hfields.distinct hfields.named hfields.nodes hdirectives

/-- Other fields may take the place of the fields of an object. -/
theorem with_fields {fields : Fields} (h : o.Tidy) (hfields : Fields.Tidy fields) :
    ({ o with fields } : Object).Tidy :=
  .mk' h.label hfields h.directives

end Object.Tidy

namespace Node.Tidy

theorem of_object (h : (Node.object o).Tidy) : o.Tidy := by
  cases h
  assumption

theorem of_items {name : String} {items : List Node} (hseveral : 2 ≤ items.length)
    (h : ∀ item ∈ items, Node.IsItem name item) : (Node.list name items).Tidy :=
  .list hseveral (fun item hmem => (h item hmem).named) (fun item hmem => (h item hmem).single)
    fun item hmem => (h item hmem).tidy

theorem several {name : String} {items : List Node} (h : (Node.list name items).Tidy) :
    2 ≤ items.length := by
  cases h
  assumption

theorem items {name : String} {items : List Node} (h : (Node.list name items).Tidy) :
    ∀ item ∈ items, Node.IsItem name item := by
  cases h with
  | list _ named single nodes =>
      exact fun item hmem => ⟨named item hmem, single item hmem, nodes item hmem⟩

theorem flatten (h : node.Tidy) : ∀ item ∈ node.flatten, Node.IsItem node.name item := by
  cases h with
  | option binding =>
      rintro item hmem
      rw [List.mem_singleton.mp hmem]
      exact ⟨rfl, rfl, .option binding⟩
  | object h =>
      rintro item hmem
      rw [List.mem_singleton.mp hmem]
      exact ⟨rfl, rfl, .object h⟩
  | list _ named single nodes =>
      exact fun item hmem => ⟨named item hmem, single item hmem, nodes item hmem⟩

theorem length_flatten_pos (h : node.Tidy) : 0 < node.flatten.length := by
  cases h with
  | option binding => exact Nat.one_pos
  | object h => exact Nat.one_pos
  | list several _ _ _ => exact Nat.lt_of_lt_of_le Nat.two_pos several

end Node.Tidy

/-! ## Putting fields in place -/

namespace Fields.Tidy

variable {fields : Fields}

theorem nil : Fields.Tidy [] :=
  ⟨List.nodup_nil, nofun, nofun⟩

theorem of_get? {key : String} (h : Fields.Tidy fields) (hget : Keyed.get? fields key = some node) :
    node.Tidy ∧ node.name = key :=
  have hmem := Keyed.mem_of_get? hget
  ⟨h.nodes _ hmem, h.named _ hmem⟩

theorem put {key : String} (h : Fields.Tidy fields) (hnode : node.Tidy) (hname : node.name = key) :
    Fields.Tidy (Keyed.put key node fields) := by
  refine ⟨Keyed.nodup_keys_put h.distinct, fun field hmem => ?_, fun field hmem => ?_⟩
  · rcases Keyed.mem_put hmem with rfl | hmem
    · exact hname
    · exact h.named field hmem
  · rcases Keyed.mem_put hmem with rfl | hmem
    · exact hnode
    · exact h.nodes field hmem

theorem of_sublist {kept : Fields} (h : Fields.Tidy fields) (hsublist : kept.Sublist fields) :
    Fields.Tidy kept :=
  ⟨(hsublist.map Prod.fst).nodup h.distinct, fun field hmem => h.named field (hsublist.subset hmem),
    fun field hmem => h.nodes field (hsublist.subset hmem)⟩

/-- Repeated declarations stay tidy: they become items of one list. -/
theorem insert (h : Fields.Tidy fields) (hnode : node.Tidy) : Fields.Tidy (fields.insert node) := by
  have happend : ∀ items : List Node, 0 < items.length →
      (∀ item ∈ items, Node.IsItem node.name item) →
        (Node.list node.name (items ++ node.flatten)).Tidy := fun items hpos hitems => by
    have hflatten := hnode.length_flatten_pos
    apply Node.Tidy.of_items
    · rw [List.length_append]
      omega
    · intro item hmem
      rcases List.mem_append.mp hmem with hmem | hmem
      · exact hitems item hmem
      · exact hnode.flatten item hmem
  unfold Fields.insert
  split
  · exact h.put hnode rfl
  · rename_i name items hget
    obtain ⟨htidy, hname⟩ := h.of_get? hget
    obtain rfl : name = node.name := hname
    exact h.put (happend items (Nat.zero_lt_of_lt htidy.several) htidy.items) rfl
  · rename_i existing _ hget
    obtain ⟨htidy, hname⟩ := h.of_get? hget
    exact h.put (happend _ htidy.length_flatten_pos (hname ▸ htidy.flatten)) rfl

end Fields.Tidy

/-! ## Merging -/

theorem Object.name_overlay (existing incoming : Object) :
    (existing.overlay incoming).name = existing.name := by
  cases incoming
  rw [Object.overlay]

mutual

theorem Object.Tidy.overlay {existing : Object} (h : existing.Tidy) : ∀ {incoming : Object},
    incoming.Tidy → (existing.overlay incoming).Tidy
  | ⟨_, label, fields, directives, _, _, _⟩, hincoming => by
    have hfields := h.fields.mergeFields hincoming.fields.nodes
    rw [Object.overlay]
    refine .mk' ?_ hfields ?_
    · -- the upper label counts if there is one
      intro l hl
      cases label with
      | none => exact h.label l hl
      | some own => exact hincoming.label l hl
    · intro d hd
      rcases List.mem_append.mp hd with hd | hd
      · exact h.directives d hd
      · obtain ⟨d', hd', rfl⟩ := List.mem_map.mp hd
        exact hincoming.directives d' hd'

theorem Fields.Tidy.mergeFields {fields : Fields} (h : Fields.Tidy fields) :
    ∀ {incoming : Fields}, (∀ field ∈ incoming, field.2.Tidy) →
      Fields.Tidy (ConfigLang.mergeFields fields incoming)
  | [], _ => by
    rw [ConfigLang.mergeFields]
    exact h
  | (_, node) :: incoming, hincoming => by
    rw [ConfigLang.mergeFields]
    exact (h.mergeNode (hincoming _ List.mem_cons_self)).mergeFields
      fun field hmem => hincoming field (List.mem_cons_of_mem _ hmem)

theorem Fields.Tidy.mergeNode {fields : Fields} (h : Fields.Tidy fields) : ∀ {node : Node},
    node.Tidy → Fields.Tidy (ConfigLang.mergeNode fields node)
  | .object incoming, hnode => by
    rw [ConfigLang.mergeNode]
    split
    · rename_i existing hget
      obtain ⟨hexisting, hname⟩ := h.of_get? hget
      have hoverlay := hexisting.of_object.overlay hnode.of_object
      exact h.put (.object hoverlay) ((Object.name_overlay existing incoming).trans hname)
    · exact h.put hnode rfl
  | .option binding, hnode => by
    rw [ConfigLang.mergeNode]
    exact h.put hnode rfl
  | .list name items, hnode => by
    rw [ConfigLang.mergeNode]
    exact h.put hnode rfl

end

namespace Object

theorem name_combine (o : Object) (method : Method) (node : Node) :
    (o.combine method node).name = o.name := by
  cases method <;> rfl

theorem name_combineAll (method : Method) (fields : Fields) (o : Object) :
    (o.combineAll method fields).name = o.name := by
  induction fields generalizing o with
  | nil => rfl
  | cons field fields ih => exact (ih (o.combine method field.2)).trans (o.name_combine method _)

end Object

namespace Object.Tidy

theorem insert (h : o.Tidy) (hnode : node.Tidy) : (o.insert node).Tidy :=
  h.with_fields (h.fields.insert hnode)

theorem combine (h : o.Tidy) (method : Method) (hnode : node.Tidy) :
    (o.combine method node).Tidy := by
  cases method with
  | append => exact h.insert hnode
  | replace => exact h.with_fields (h.fields.put hnode rfl)
  | merge => exact h.with_fields (h.fields.mergeNode hnode)

theorem combineAll {fields : Fields} (h : o.Tidy) (method : Method)
    (hfields : ∀ field ∈ fields, field.2.Tidy) :
    (o.combineAll method fields).Tidy := by
  induction fields generalizing o with
  | nil => exact h
  | cons field fields ih =>
      exact ih (h.combine method (hfields field List.mem_cons_self))
        fun other hmem => hfields other (List.mem_cons_of_mem _ hmem)

theorem empty (name : String) (position : Position) : (Object.empty name position).Tidy :=
  .intro nofun List.nodup_nil nofun nofun nofun

end Object.Tidy

/-! ## Truncating -/

theorem keys_truncateFields (depth : Nat) (fields : Fields) :
    Keyed.keys (truncateFields depth fields) = Keyed.keys fields := by
  induction fields with
  | nil => rw [truncateFields]
  | cons field fields ih =>
      rw [truncateFields]
      exact congrArg (field.1 :: ·) ih

theorem length_truncateItems (depth : Nat) (items : List Node) :
    (truncateItems depth items).length = items.length := by
  induction items with
  | nil => rw [truncateItems]
  | cons item items ih =>
      rw [truncateItems]
      exact congrArg (· + 1) ih

theorem Node.name_truncate (depth : Nat) (node : Node) :
    (node.truncate depth).name = node.name := by
  cases node with
  | option binding => rw [Node.truncate]
  | object o =>
      obtain ⟨name, label, fields, directives, comments, footer, position⟩ := o
      rw [Node.truncate, Object.truncate]
      rfl
  | list name items =>
      rw [Node.truncate]
      rfl

mutual

theorem Object.Tidy.truncate (depth : Nat) : ∀ {o : Object}, o.Tidy → (o.truncate depth).Tidy
  | ⟨_, _, fields, _, _, _, _⟩, h => by
    rw [Object.truncate]
    split
    · exact h.with_fields (h.fields.of_sublist List.filter_sublist)
    · exact h.with_fields (Fields.Tidy.truncateFields (depth - 1) h.fields)

theorem Fields.Tidy.truncateFields (depth : Nat) : ∀ {fields : Fields},
    Fields.Tidy fields → Fields.Tidy (ConfigLang.truncateFields depth fields)
  | [], _ => by
    rw [ConfigLang.truncateFields]
    exact .nil
  | (key, node) :: fields, h => by
    have hrest := Fields.Tidy.truncateFields depth (h.of_sublist (List.sublist_cons_self _ _))
    have hnode := Node.Tidy.truncate depth (h.nodes _ List.mem_cons_self)
    have hname := (node.name_truncate depth).trans (h.named _ List.mem_cons_self)
    rw [ConfigLang.truncateFields]
    refine ⟨?_, List.forall_mem_cons.mpr ⟨hname, hrest.named⟩,
      List.forall_mem_cons.mpr ⟨hnode, hrest.nodes⟩⟩
    have hdistinct := h.distinct
    rw [← keys_truncateFields depth ((key, node) :: fields), ConfigLang.truncateFields] at hdistinct
    exact hdistinct

theorem Node.Tidy.truncate (depth : Nat) : ∀ {node : Node}, node.Tidy → (node.truncate depth).Tidy
  | .option binding, h => by
    rw [Node.truncate]
    exact h
  | .object _, h => by
    rw [Node.truncate]
    exact .object (Object.Tidy.truncate depth h.of_object)
  | .list _ items, h => by
    rw [Node.truncate]
    exact .of_items ((length_truncateItems depth items).symm ▸ h.several)
      (Node.Tidy.truncateItems depth h.items)

theorem Node.Tidy.truncateItems (depth : Nat) {name : String} : ∀ {items : List Node},
    (∀ item ∈ items, Node.IsItem name item) →
      ∀ item ∈ ConfigLang.truncateItems depth items, Node.IsItem name item
  | [], _ => by
    rw [ConfigLang.truncateItems]
    exact nofun
  | item :: items, h => by
    obtain ⟨hnamed, hsingle, htidy⟩ := h item List.mem_cons_self
    rw [ConfigLang.truncateItems]
    refine List.forall_mem_cons.mpr ⟨⟨(item.name_truncate depth).trans hnamed, ?_,
      Node.Tidy.truncate depth htidy⟩, Node.Tidy.truncateItems depth fun other hmem =>
        h other (List.mem_cons_of_mem _ hmem)⟩
    cases item with
    | option binding => rw [Node.truncate]; rfl
    | object o => rw [Node.truncate]; rfl
    | list _ _ => cases hsingle

end

end ConfigLang
