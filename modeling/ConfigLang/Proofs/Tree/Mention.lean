import Mathlib
import ConfigLang.Proofs.Expand.Declared
import ConfigLang.Proofs.Tree.Weight

/-!
# The directives of a tree

A directive stands somewhere in a tree: in one of its objects, or in a block among the
arguments of another directive (`Object.Mentions`).  Where a directive stands among the
fields of its object is left out of account, since combining trees moves it.

However nodes are combined, whatever directive comes out has gone in
(`Object.Mentions.of_combineEach`).  In a tree without weight there is none.
-/

namespace ConfigLang

mutual

/-- A directive stands in an object or inside it, perhaps at another offset. -/
inductive Object.Mentions (d : Directive) : Object → Prop
  | directive {o : Object} {other : Directive} (h : other ∈ o.directives)
    (hsame : { other with offset := d.offset } = d) : Object.Mentions d o
  | argument {o : Object} {other : Directive} {arg : Argument Payload} {block : Object}
    (h : other ∈ o.directives) (harg : arg ∈ other.args) (hblock : arg.value = .block block)
    (inside : Object.Mentions d block) : Object.Mentions d o
  | field {o : Object} {field : String × Node} (h : field ∈ o.fields)
    (inside : Node.Mentions d field.2) : Object.Mentions d o

/-- A directive stands in one of the objects of a node. -/
inductive Node.Mentions (d : Directive) : Node → Prop
  | object {o : Object} (inside : Object.Mentions d o) : Node.Mentions d (.object o)
  | item {name : String} {items : List Node} {item : Node} (h : item ∈ items)
    (inside : Node.Mentions d item) : Node.Mentions d (.list name items)

end

/-- A directive stands in one of some fields. -/
def Fields.Mentions (d : Directive) (fields : Fields) : Prop :=
  ∃ field ∈ fields, field.2.Mentions d

variable {d : Directive}

theorem Object.Mentions.of_mem {o : Object} (h : d ∈ o.directives) : o.Mentions d :=
  .directive h (d.with_offset rfl)

namespace Node

theorem mentions_flatten {node item : Node} (h : item ∈ node.flatten) (inside : item.Mentions d) :
    node.Mentions d := by
  cases node with
  | list name items => exact .item h inside
  | option binding =>
      obtain rfl := List.mem_singleton.mp h
      exact inside
  | object o =>
      obtain rfl := List.mem_singleton.mp h
      exact inside

theorem mentions_of_items {name : String} {items : List Node} {P : Prop}
    (h : (list name items).Mentions d) (hitems : ∀ item ∈ items, item.Mentions d → P) : P := by
  cases h with
  | item hmem inside => exact hitems _ hmem inside

end Node

/-! ## Weight -/

theorem weightFields_pos {fields : Fields} {field : String × Node} (h : field ∈ fields)
    (hpos : 0 < field.2.weight) : 0 < weightFields fields := by
  induction fields with
  | nil => cases h
  | cons other fields ih =>
      rw [weightFields]
      rcases List.mem_cons.mp h with rfl | h
      · exact Nat.add_pos_left hpos _
      · exact Nat.add_pos_right _ (ih h)

theorem weightItems_pos {items : List Node} {item : Node} (h : item ∈ items)
    (hpos : 0 < item.weight) : 0 < weightItems items := by
  induction items with
  | nil => cases h
  | cons other items ih =>
      rw [weightItems]
      rcases List.mem_cons.mp h with rfl | h
      · exact Nat.add_pos_left hpos _
      · exact Nat.add_pos_right _ (ih h)

mutual

theorem Object.Mentions.weight_pos {o : Object} : o.Mentions d → 0 < o.weight
  | .directive h _ | .argument h _ _ _ => Nat.zero_lt_of_lt (o.weightArgs_lt h)
  | .field h inside => by
    rw [o.weight_eq]
    exact Nat.add_pos_left (weightFields_pos h inside.weight_pos) _

theorem Node.Mentions.weight_pos {node : Node} : node.Mentions d → 0 < node.weight
  | .object inside => by
    rw [Node.weight]
    exact inside.weight_pos
  | .item h inside => by
    rw [Node.weight]
    exact weightItems_pos h inside.weight_pos

end

theorem Fields.not_mentions {fields : Fields} (h : weightFields fields = 0) :
    ¬ Fields.Mentions d fields := by
  rintro ⟨field, hmem, inside⟩
  exact (weightFields_pos hmem inside.weight_pos).ne' h

/-! ## Combining -/

/-- What a name holds mentions a directive. -/
def heldMentions (d : Directive) (held : Option Node) : Prop :=
  ∃ node ∈ held, node.Mentions d

theorem Fields.Mentions.of_held {fields : Fields} {key : String}
    (h : heldMentions d (Keyed.get? fields key)) : Fields.Mentions d fields := by
  obtain ⟨node, hget, inside⟩ := h
  exact ⟨_, Keyed.mem_of_get? hget, inside⟩

theorem Fields.Mentions.of_put {fields : Fields} {key : String} {node : Node}
    (h : Fields.Mentions d (Keyed.put key node fields)) :
    node.Mentions d ∨ Fields.Mentions d fields := by
  obtain ⟨field, hmem, inside⟩ := h
  rcases Keyed.mem_put hmem with rfl | hmem
  · exact .inl inside
  · exact .inr ⟨field, hmem, inside⟩

mutual

theorem Object.Mentions.of_overlay {existing : Object} : ∀ {incoming : Object},
    (existing.overlay incoming).Mentions d → existing.Mentions d ∨ incoming.Mentions d
  | ⟨name, label, fields, directives, comments, footer, position⟩, h => by
    rw [Object.overlay] at h
    have hmoved : ∀ other ∈ existing.directives ++ directives.map fun d =>
          { d with offset := existing.fields.length +
            Fields.newBefore existing.fields fields d.offset },
        other ∈ existing.directives ∨ ∃ before ∈ directives,
          { before with offset := other.offset } = other := by
      intro other hmem
      rcases List.mem_append.mp hmem with hmem | hmem
      · exact .inl hmem
      · obtain ⟨before, hbefore, rfl⟩ := List.mem_map.mp hmem
        exact .inr ⟨before, hbefore, rfl⟩
    cases h with
    | directive hmem hsame =>
        rcases hmoved _ hmem with hold | ⟨before, hbefore, hother⟩
        · exact .inl (.directive hold hsame)
        · rw [← hother] at hsame
          exact .inr (.directive hbefore hsame)
    | argument hmem harg hblock inside =>
        rcases hmoved _ hmem with hold | ⟨before, hbefore, hother⟩
        · exact .inl (.argument hold harg hblock inside)
        · rw [← hother] at harg
          exact .inr (.argument hbefore harg hblock inside)
    | field hmem inside =>
        rcases Fields.Mentions.of_mergeFields ⟨_, hmem, inside⟩ with ⟨_, hold, h⟩ | ⟨_, hnew, h⟩
        · exact .inl (.field hold h)
        · exact .inr (.field hnew h)

theorem Fields.Mentions.of_mergeFields {fields : Fields} : ∀ {incoming : Fields},
    Fields.Mentions d (mergeFields fields incoming) →
      Fields.Mentions d fields ∨ Fields.Mentions d incoming
  | [], h => by
    rw [mergeFields] at h
    exact .inl h
  | (key, node) :: incoming, h => by
    rw [mergeFields] at h
    rcases Fields.Mentions.of_mergeFields h with h | ⟨field, hmem, inside⟩
    · rcases Fields.Mentions.of_mergeNode h with h | h
      · exact .inl h
      · exact .inr ⟨(key, node), List.mem_cons_self, h⟩
    · exact .inr ⟨field, List.mem_cons_of_mem _ hmem, inside⟩

theorem Fields.Mentions.of_mergeNode {fields : Fields} : ∀ {node : Node},
    Fields.Mentions d (mergeNode fields node) → Fields.Mentions d fields ∨ node.Mentions d
  | .option binding, h => by
    rw [mergeNode] at h
    exact h.of_put.symm
  | .list name items, h => by
    rw [mergeNode] at h
    exact h.of_put.symm
  | .object incoming, h => by
    rw [mergeNode] at h
    split at h
    · rename_i existing hget
      rcases h.of_put with h | h
      · -- an object is laid over the one that was there
        cases h with
        | object inside =>
            rcases Object.Mentions.of_overlay inside with h | h
            · exact .inl (.of_held ⟨_, hget, .object h⟩)
            · exact .inr (.object h)
      · exact .inl h
    · exact h.of_put.symm

end

theorem Fields.Mentions.of_insert {fields : Fields} {node : Node}
    (h : Fields.Mentions d (fields.insert node)) :
    Fields.Mentions d fields ∨ node.Mentions d := by
  unfold Fields.insert at h
  split at h
  · exact h.of_put.symm
  · rename_i name items hget
    rcases h.of_put with h | h
    · refine Node.mentions_of_items h fun item hmem inside => ?_
      rcases List.mem_append.mp hmem with hmem | hmem
      · exact .inl (.of_held ⟨_, hget, .item hmem inside⟩)
      · exact .inr (Node.mentions_flatten hmem inside)
    · exact .inl h
  · rename_i existing _ hget
    rcases h.of_put with h | h
    · refine Node.mentions_of_items h fun item hmem inside => ?_
      rcases List.mem_append.mp hmem with hmem | hmem
      · exact .inl (.of_held ⟨_, hget, Node.mentions_flatten hmem inside⟩)
      · exact .inr (Node.mentions_flatten hmem inside)
    · exact .inl h

namespace Object.Mentions

theorem with_fields {o : Object} {fields : Fields} (h : ({ o with fields } : Object).Mentions d) :
    o.Mentions d ∨ Fields.Mentions d fields := by
  cases h with
  | directive hmem hsame => exact .inl (.directive hmem hsame)
  | argument hmem harg hblock inside => exact .inl (.argument hmem harg hblock inside)
  | field hmem inside => exact .inr ⟨_, hmem, inside⟩

theorem of_combine {o : Object} {method : Method} {node : Node}
    (h : (o.combine method node).Mentions d) : o.Mentions d ∨ node.Mentions d := by
  have hfields {fields : Fields}
      (hof : Fields.Mentions d fields → Fields.Mentions d o.fields ∨ node.Mentions d)
      (h : ({ o with fields } : Object).Mentions d) : o.Mentions d ∨ node.Mentions d := by
    rcases h.with_fields with h | h
    · exact .inl h
    · rcases hof h with ⟨field, hmem, inside⟩ | h
      · exact .inl (.field hmem inside)
      · exact .inr h
  cases method with
  | merge => exact hfields Fields.Mentions.of_mergeNode h
  | append => exact hfields Fields.Mentions.of_insert h
  | replace => exact hfields (fun h => h.of_put.symm) h

/-- **Whatever directive comes out has gone in.** -/
theorem of_combineEach {o : Object} {arrivals : List Arrival}
    (h : (o.combineEach arrivals).Mentions d) :
    o.Mentions d ∨ ∃ a ∈ arrivals, a.node.Mentions d := by
  induction arrivals generalizing o with
  | nil => exact .inl h
  | cons a arrivals ih =>
      rcases ih (o := o.combine a.method a.node) h with h | ⟨other, hmem, inside⟩
      · rcases h.of_combine with h | h
        · exact .inl h
        · exact .inr ⟨a, List.mem_cons_self, h⟩
      · exact .inr ⟨other, List.mem_cons_of_mem _ hmem, inside⟩

end Object.Mentions

/-! ## What arrives -/

/-- What arrives in an object stands in it, or is brought by a directive. -/
theorem Item.mem_arrivals {items : List Item} {effects : List Effect} {a : Arrival}
    (h : a ∈ arrivals items effects) :
    field a.node ∈ items ∨ ∃ e ∈ effects, ∃ entry ∈ e.fields, entry.2 = a.node := by
  have hbrought {e : Effect} (h : a ∈ e.arrivals) : ∃ entry ∈ e.fields, entry.2 = a.node := by
    obtain ⟨entry, hmem, rfl⟩ := List.mem_map.mp h
    exact ⟨entry, hmem, rfl⟩
  induction items generalizing effects with
  | nil =>
      obtain ⟨e, he, h⟩ := List.mem_flatMap.mp h
      exact .inr ⟨e, he, hbrought h⟩
  | cons item items ih =>
      cases item with
      | field node =>
          rcases List.mem_cons.mp h with rfl | h
          · exact .inl List.mem_cons_self
          · exact (ih h).imp_left (List.mem_cons_of_mem _)
      | directive _ =>
          cases effects with
          | nil => exact (ih h).imp_left (List.mem_cons_of_mem _)
          | cons e effects =>
              rcases List.mem_append.mp h with h | h
              · exact .inr ⟨e, List.mem_cons_self, hbrought h⟩
              · refine (ih h).imp (List.mem_cons_of_mem _) ?_
                rintro ⟨other, hmem, h⟩
                exact ⟨other, List.mem_cons_of_mem _ hmem, h⟩

/-- When the directives of an object have run and have brought none, its other directives are
left. -/
theorem Object.Mentions.of_arrivals {o : Object} {effects : List Effect}
    (hplain : ∀ e ∈ effects, weightFields e.fields = 0)
    (h : (({ o with fields := [], directives := [] } : Object).combineEach
      (Item.arrivals o.items effects)).Mentions d) : o.Mentions d := by
  rcases h.of_combineEach with h | ⟨a, hmem, inside⟩
  · cases h with
    | directive h _ | argument h _ _ _ | field h _ => cases h
  · rcases Item.mem_arrivals hmem with hmem | ⟨e, he, entry, hmem, hnode⟩
    · obtain ⟨entry, hmem, hnode⟩ := Item.mem_interleave.mp hmem
      exact .field hmem (hnode ▸ inside)
    · exact absurd ⟨entry, hmem, hnode ▸ inside⟩ (Fields.not_mentions (hplain e he))

end ConfigLang
