import Mathlib
import ConfigLang.Proofs.Tree.Mention

/-!
# The names in a tree

The names in a tree are those of its fields and of its nodes, and the labels of its objects.  A tree
is spelled in some names and directives if there are no others in it (`Object.Spelled`), the blocks
among the arguments of directives included.

Whatever puts trees together brings no name of its own.  As for the shape of trees, this comes down
to `Fields.Spelled.put`.
-/

namespace ConfigLang

mutual

/-- The names in an object satisfy `P`, and its directives satisfy `Q` at every offset. The name of
the object itself is left out. -/
inductive Object.Spelled (P : String → Prop) (Q : Directive → Prop) : Object → Prop
  | intro {o : Object} (label : ∀ label, o.label = some label → P label)
      (keys : ∀ field ∈ o.fields, P field.1) (nodes : ∀ field ∈ o.fields, field.2.Spelled P Q)
      (directives : ∀ d ∈ o.directives, ∀ offset, Q { d with offset })
      (blocks : ∀ d ∈ o.directives, ∀ arg ∈ d.args, ∀ block, arg.value = .block block →
        block.Spelled P Q) :
      o.Spelled P Q

/-- The names in a node satisfy `P`, and its directives satisfy `Q` at every offset. -/
inductive Node.Spelled (P : String → Prop) (Q : Directive → Prop) : Node → Prop
  | option {binding : Binding} (name : P binding.name) : Node.Spelled P Q (.option binding)
  | object {o : Object} (name : P o.name) (h : o.Spelled P Q) : Node.Spelled P Q (.object o)
  | list {list : String} {items : List Node} (name : P list)
      (nodes : ∀ item ∈ items, item.Spelled P Q) : Node.Spelled P Q (.list list items)

end

variable {P : String → Prop} {Q : Directive → Prop} {o : Object} {node : Node}

/-- The names in some fields satisfy `P`, and their directives satisfy `Q`. -/
structure Fields.Spelled (P : String → Prop) (Q : Directive → Prop) (fields : Fields) : Prop where
  keys : ∀ field ∈ fields, P field.1
  nodes : ∀ field ∈ fields, field.2.Spelled P Q

/-- A directive satisfies `Q`, and so do those in the blocks among its arguments, the names in which
satisfy `P`. -/
structure Directive.Spelled (P : String → Prop) (Q : Directive → Prop) (d : Directive) :
    Prop where
  self : ∀ offset, Q { d with offset }
  blocks : ∀ arg ∈ d.args, ∀ block, arg.value = .block block → block.Spelled P Q

namespace Object.Spelled

theorem label (h : o.Spelled P Q) : ∀ label, o.label = some label → P label := by
  cases h
  assumption

theorem fields (h : o.Spelled P Q) : Fields.Spelled P Q o.fields := by
  cases h with
  | intro _ keys nodes _ _ => exact ⟨keys, nodes⟩

theorem directives (h : o.Spelled P Q) : ∀ d ∈ o.directives, d.Spelled P Q := by
  cases h with
  | intro _ _ _ directives blocks => exact fun d hd => ⟨directives d hd, blocks d hd⟩

theorem mk' (hlabel : ∀ label, o.label = some label → P label)
    (hfields : Fields.Spelled P Q o.fields) (hdirectives : ∀ d ∈ o.directives, d.Spelled P Q) :
    o.Spelled P Q :=
  .intro hlabel hfields.keys hfields.nodes (fun d hd => (hdirectives d hd).self)
    fun d hd => (hdirectives d hd).blocks

/-- Other fields may take the place of the fields of an object. -/
theorem with_fields {fields : Fields} (h : o.Spelled P Q) (hfields : Fields.Spelled P Q fields) :
    ({ o with fields } : Object).Spelled P Q :=
  .mk' h.label hfields h.directives

end Object.Spelled

namespace Node.Spelled

theorem name (h : node.Spelled P Q) : P node.name := by
  cases h <;> assumption

theorem of_object (h : (Node.object o).Spelled P Q) : o.Spelled P Q := by
  cases h
  assumption

theorem items {name : String} {items : List Node} (h : (Node.list name items).Spelled P Q) :
    ∀ item ∈ items, item.Spelled P Q := by
  cases h
  assumption

theorem flatten (h : node.Spelled P Q) : ∀ item ∈ node.flatten, item.Spelled P Q := by
  cases node with
  | list name items => exact h.items
  | option binding => exact List.forall_mem_singleton.mpr h
  | object o => exact List.forall_mem_singleton.mpr h

end Node.Spelled

/-! ## Putting fields in place -/

namespace Fields.Spelled

variable {fields : Fields}

theorem nil : Fields.Spelled P Q [] :=
  ⟨nofun, nofun⟩

theorem subset {kept : Fields} (h : Fields.Spelled P Q fields) (hkept : kept ⊆ fields) :
    Fields.Spelled P Q kept :=
  ⟨fun field hmem => h.keys field (hkept hmem), fun field hmem => h.nodes field (hkept hmem)⟩

theorem of_get? {key : String} (h : Fields.Spelled P Q fields)
    (hget : Keyed.get? fields key = some node) : P key ∧ node.Spelled P Q :=
  have hmem := Keyed.mem_of_get? hget
  ⟨h.keys _ hmem, h.nodes _ hmem⟩

theorem put {key : String} (h : Fields.Spelled P Q fields) (hkey : P key)
    (hnode : node.Spelled P Q) : Fields.Spelled P Q (Keyed.put key node fields) := by
  constructor
  all_goals
    intro field hmem
    rcases Keyed.mem_put hmem with rfl | hmem
  · exact hkey
  · exact h.keys field hmem
  · exact hnode
  · exact h.nodes field hmem

theorem insert (h : Fields.Spelled P Q fields) (hnode : node.Spelled P Q) :
    Fields.Spelled P Q (fields.insert node) := by
  have happend {items : List Node} (hitems : ∀ item ∈ items, item.Spelled P Q) (name : String)
      (hname : P name) : (Node.list name (items ++ node.flatten)).Spelled P Q :=
    .list hname fun item hmem => (List.mem_append.mp hmem).elim (hitems item) (hnode.flatten item)
  unfold Fields.insert
  split
  · exact h.put hnode.name hnode
  · rename_i name items hget
    have hlist := (h.of_get? hget).2
    exact h.put hnode.name (happend hlist.items name hlist.name)
  · rename_i existing _ hget
    exact h.put hnode.name (happend (h.of_get? hget).2.flatten node.name hnode.name)

end Fields.Spelled

/-! ## Merging -/

mutual

theorem Object.Spelled.overlay {existing : Object} (h : existing.Spelled P Q) :
    ∀ {incoming : Object}, incoming.Spelled P Q → (existing.overlay incoming).Spelled P Q
  | ⟨_, label, fields, directives, _, _, _⟩, hincoming => by
    rw [Object.overlay]
    refine .mk' ?_ (h.fields.mergeFields hincoming.fields.nodes) ?_
    · -- the upper label counts if there is one
      intro l hl
      cases label with
      | none => exact h.label l hl
      | some own => exact hincoming.label l hl
    · intro d hd
      rcases List.mem_append.mp hd with hd | hd
      · exact h.directives d hd
      · obtain ⟨d', hd', rfl⟩ := List.mem_map.mp hd
        have hmoved := hincoming.directives d' hd'
        exact ⟨hmoved.self, hmoved.blocks⟩

theorem Fields.Spelled.mergeFields {fields : Fields} (h : Fields.Spelled P Q fields) :
    ∀ {incoming : Fields}, (∀ field ∈ incoming, field.2.Spelled P Q) →
      Fields.Spelled P Q (ConfigLang.mergeFields fields incoming)
  | [], _ => by
    rw [ConfigLang.mergeFields]
    exact h
  | (_, node) :: incoming, hincoming => by
    rw [ConfigLang.mergeFields]
    exact (h.mergeNode (hincoming _ List.mem_cons_self)).mergeFields
      fun field hmem => hincoming field (List.mem_cons_of_mem _ hmem)

theorem Fields.Spelled.mergeNode {fields : Fields} (h : Fields.Spelled P Q fields) :
    ∀ {node : Node}, node.Spelled P Q → Fields.Spelled P Q (ConfigLang.mergeNode fields node)
  | .object incoming, hnode => by
    rw [ConfigLang.mergeNode]
    split
    · rename_i existing hget
      have hexisting := (h.of_get? hget).2
      have hname : P (existing.overlay incoming).name := by
        rw [Object.name_overlay]
        exact hexisting.name
      exact h.put hnode.name (.object hname (hexisting.of_object.overlay hnode.of_object))
    · exact h.put hnode.name hnode
  | .option binding, hnode => by
    rw [ConfigLang.mergeNode]
    exact h.put hnode.name hnode
  | .list name items, hnode => by
    rw [ConfigLang.mergeNode]
    exact h.put hnode.name hnode

end

namespace Object.Spelled

theorem empty (name : String) (position : Position) : (Object.empty name position).Spelled P Q :=
  .intro nofun nofun nofun nofun nofun

theorem insert (h : o.Spelled P Q) (hnode : node.Spelled P Q) : (o.insert node).Spelled P Q :=
  h.with_fields (h.fields.insert hnode)

theorem combine (h : o.Spelled P Q) (method : Method) (hnode : node.Spelled P Q) :
    (o.combine method node).Spelled P Q := by
  cases method with
  | append => exact h.insert hnode
  | replace => exact h.with_fields (h.fields.put hnode.name hnode)
  | merge => exact h.with_fields (h.fields.mergeNode hnode)

theorem combineAll {fields : Fields} (h : o.Spelled P Q) (method : Method)
    (hfields : ∀ field ∈ fields, field.2.Spelled P Q) :
    (o.combineAll method fields).Spelled P Q := by
  induction fields generalizing o with
  | nil => exact h
  | cons field fields ih =>
      exact ih (h.combine method (hfields field List.mem_cons_self))
        fun other hmem => hfields other (List.mem_cons_of_mem _ hmem)

end Object.Spelled

/-! ## Truncating -/

mutual

theorem Object.Spelled.truncate (depth : Nat) :
    ∀ {o : Object}, o.Spelled P Q → (o.truncate depth).Spelled P Q
  | ⟨_, _, fields, _, _, _, _⟩, h => by
    rw [Object.truncate]
    split
    · exact h.with_fields (h.fields.subset (List.filter_subset_self _))
    · exact h.with_fields (Fields.Spelled.truncateFields (depth - 1) h.fields)

theorem Fields.Spelled.truncateFields (depth : Nat) : ∀ {fields : Fields},
    Fields.Spelled P Q fields → Fields.Spelled P Q (ConfigLang.truncateFields depth fields)
  | [], _ => by
    rw [ConfigLang.truncateFields]
    exact .nil
  | (_, node) :: fields, h => by
    have hrest := Fields.Spelled.truncateFields depth (h.subset (List.subset_cons_self _ fields))
    rw [ConfigLang.truncateFields]
    obtain ⟨hkey, -⟩ := List.forall_mem_cons.mp h.keys
    obtain ⟨hnode, -⟩ := List.forall_mem_cons.mp h.nodes
    exact ⟨List.forall_mem_cons.mpr ⟨hkey, hrest.keys⟩,
      List.forall_mem_cons.mpr ⟨Node.Spelled.truncate depth hnode, hrest.nodes⟩⟩

theorem Node.Spelled.truncate (depth : Nat) : ∀ {node : Node},
    node.Spelled P Q → (node.truncate depth).Spelled P Q
  | .option _, h => by
    rw [Node.truncate]
    exact h
  | .object o, h => by
    rw [Node.truncate]
    have hname : (o.truncate depth).name = o.name := by
      have := Node.name_truncate depth (.object o)
      rw [Node.truncate] at this
      exact this
    refine .object ?_ (Object.Spelled.truncate depth h.of_object)
    rw [hname]
    exact h.name
  | .list _ items, h => by
    rw [Node.truncate]
    exact .list h.name (Node.Spelled.truncateItems depth h.items)

theorem Node.Spelled.truncateItems (depth : Nat) : ∀ {items : List Node},
    (∀ item ∈ items, item.Spelled P Q) →
      ∀ item ∈ ConfigLang.truncateItems depth items, item.Spelled P Q
  | [], _ => by
    rw [ConfigLang.truncateItems]
    exact nofun
  | item :: items, h => by
    rw [ConfigLang.truncateItems]
    exact List.forall_mem_cons.mpr ⟨Node.Spelled.truncate depth (h item List.mem_cons_self),
      Node.Spelled.truncateItems depth fun other hmem => h other (List.mem_cons_of_mem _ hmem)⟩

end

/-! ## Directives -/

mutual

/-- A tree is spelled in the directives that stand in it. -/
theorem Object.Spelled.of_mentions {o : Object} : o.Spelled P (fun _ => True) →
    (∀ d, o.Mentions d → Q d) → o.Spelled P Q
  | .intro label keys nodes _ blocks, hQ =>
    .intro label keys
      (fun field hmem => (nodes field hmem).of_mentions fun d hd => hQ d (.field hmem hd))
      (fun _ hd _ => hQ _ (.directive hd rfl))
      fun d hd arg harg block hblock => (blocks d hd arg harg block hblock).of_mentions
        fun d' hd' => hQ d' (.argument hd harg hblock hd')

theorem Node.Spelled.of_mentions {node : Node} : node.Spelled P (fun _ => True) →
    (∀ d, node.Mentions d → Q d) → node.Spelled P Q
  | .option name, _ => .option name
  | .object name h, hQ => .object name (h.of_mentions fun d hd => hQ d (.object hd))
  | .list name nodes, hQ =>
    .list name fun item hmem => (nodes item hmem).of_mentions fun d hd => hQ d (.item hmem hd)

end

end ConfigLang
