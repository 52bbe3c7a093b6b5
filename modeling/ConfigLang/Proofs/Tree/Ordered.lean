import Mathlib
import ConfigLang.Proofs.Expand.Overlay

/-!
# Directives in order

The directives of an object stand in the order of their offsets, and each is placed behind
fields that there are (`Object.Ordered`).  The same holds of the objects inside and of the blocks
among the arguments of directives.

Trees that are combined stay ordered.  All that has to be seen for this is where the directives
of an object go when it is laid over another: behind those that are there already, and no
further than the fields that are new (`Object.Ordered.overlay`).
-/

namespace ConfigLang

mutual

/-- The directives of an object stand in order, and so do those inside. -/
inductive Object.Ordered : Object → Prop
  | intro {o : Object} (placed : ∀ d ∈ o.directives, d.offset ≤ o.fields.length)
      (sorted : o.directives.Pairwise fun d d' => d.offset ≤ d'.offset)
      (nodes : ∀ field ∈ o.fields, field.2.Ordered)
      (blocks : ∀ d ∈ o.directives, ∀ arg ∈ d.args, ∀ block, arg.value = .block block →
        block.Ordered) :
      o.Ordered

/-- The directives in a node stand in order. -/
inductive Node.Ordered : Node → Prop
  | option (binding : Binding) : Node.Ordered (.option binding)
  | object {o : Object} (h : o.Ordered) : Node.Ordered (.object o)
  | list (name : String) {items : List Node} (h : ∀ item ∈ items, item.Ordered) :
      Node.Ordered (.list name items)

end

variable {o : Object} {node : Node} {fields incoming : Fields}

namespace Object.Ordered

theorem placed (h : o.Ordered) : ∀ d ∈ o.directives, d.offset ≤ o.fields.length := by
  cases h
  assumption

theorem sorted (h : o.Ordered) : o.directives.Pairwise fun d d' => d.offset ≤ d'.offset := by
  cases h
  assumption

theorem nodes (h : o.Ordered) : ∀ field ∈ o.fields, field.2.Ordered := by
  cases h
  assumption

theorem blocks (h : o.Ordered) : ∀ d ∈ o.directives, ∀ arg ∈ d.args, ∀ block,
    arg.value = .block block → block.Ordered := by
  cases h
  assumption

theorem of_fields (hnone : o.directives = []) (h : ∀ field ∈ o.fields, field.2.Ordered) :
    o.Ordered :=
  .intro (by rw [hnone]; nofun) (by rw [hnone]; exact .nil) h (by rw [hnone]; nofun)

/-- Fields may take the place of others if there are no fewer of them. -/
theorem with_fields (h : o.Ordered) (hlength : o.fields.length ≤ fields.length)
    (hfields : ∀ field ∈ fields, field.2.Ordered) : ({ o with fields } : Object).Ordered :=
  .intro (fun d hd => (h.placed d hd).trans hlength) h.sorted hfields h.blocks

theorem empty (name : String) (position : Position) : (Object.empty name position).Ordered :=
  .of_fields rfl nofun

end Object.Ordered

theorem Node.Ordered.of_object (h : (Node.object o).Ordered) : o.Ordered := by
  cases h
  assumption

theorem Node.Ordered.flatten (h : node.Ordered) : ∀ item ∈ node.flatten, item.Ordered := by
  cases h with
  | option binding => exact List.forall_mem_singleton.mpr (.option binding)
  | object h => exact List.forall_mem_singleton.mpr (.object h)
  | list name h => exact h

/-! ## Trees without directives -/

mutual

theorem Object.Ordered.of_weight : ∀ {o : Object}, o.weight = 0 → o.Ordered
  | ⟨_, _, fields, directives, _, _, _⟩, h => by
    obtain rfl : directives = [] := Object.directives_of_weight h
    rw [Object.weight] at h
    have hfields : weightFields fields = 0 := by omega
    exact .of_fields rfl (Node.Ordered.of_weightFields hfields)

theorem Node.Ordered.of_weightFields : ∀ {fields : Fields}, weightFields fields = 0 →
    ∀ field ∈ fields, field.2.Ordered
  | [], _ => List.forall_mem_nil _
  | (_, node) :: fields, h => by
    rw [weightFields] at h
    have hnode : node.weight = 0 := by omega
    exact List.forall_mem_cons.mpr
      ⟨Node.Ordered.of_weight hnode, Node.Ordered.of_weightFields (by omega)⟩

theorem Node.Ordered.of_weight : ∀ {node : Node}, node.weight = 0 → node.Ordered
  | .option binding, _ => .option binding
  | .object _, h => .object (Object.Ordered.of_weight h)
  | .list name _, h => .list name (Node.Ordered.of_weightItems h)

theorem Node.Ordered.of_weightItems : ∀ {items : List Node}, weightItems items = 0 →
    ∀ item ∈ items, item.Ordered
  | [], _ => List.forall_mem_nil _
  | item :: items, h => by
    rw [weightItems] at h
    exact List.forall_mem_cons.mpr
      ⟨Node.Ordered.of_weight (by omega), Node.Ordered.of_weightItems (by omega)⟩

end

/-! ## Where directives go -/

theorem newBefore_le (fields incoming : Fields) (n : Nat) :
    fields.newBefore incoming n ≤ (fields.fresh incoming).length :=
  ((List.take_sublist n incoming).filter _).length_le

theorem newBefore_mono (fields incoming : Fields) {n k : Nat} (h : n ≤ k) :
    fields.newBefore incoming n ≤ fields.newBefore incoming k := by
  obtain ⟨more, rfl⟩ := Nat.exists_eq_add_of_le h
  rw [Fields.newBefore_add]
  exact Nat.le_add_right _ _

theorem length_mergeFields (fields : Fields) (h : Fields.Proper incoming) :
    (mergeFields fields incoming).length = fields.length + (fields.fresh incoming).length := by
  have hkeys : Keyed.keys (mergeFields fields (fields.known incoming)) = Keyed.keys fields :=
    keys_mergeFields_known rfl h.named
  have hlength := congrArg List.length hkeys
  rw [Keyed.keys, Keyed.keys, List.length_map, List.length_map] at hlength
  rw [mergeFields_eq_append h, List.length_append, hlength]

theorem Object.sorted_moved {a b : Object} (h : b.Ordered) :
    (a.moved b).Pairwise fun d d' => d.offset ≤ d'.offset :=
  List.pairwise_map.mpr (h.sorted.imp fun hle =>
    Nat.add_le_add_left (newBefore_mono a.fields b.fields hle) a.fields.length)

/-! ## Combining -/

theorem Node.Ordered.put {key : String} (hnode : node.Ordered)
    (h : ∀ field ∈ fields, field.2.Ordered) :
    ∀ field ∈ Keyed.put key node fields, field.2.Ordered := by
  intro field hmem
  rcases Keyed.mem_put hmem with rfl | hmem
  · exact hnode
  · exact h field hmem

mutual

theorem Object.Ordered.overlay : ∀ {b : Object}, b.Tidy → b.Ordered → ∀ {a : Object}, a.Ordered →
    (a.overlay b).Ordered
  | ⟨name, label, incoming, directives, comments, footer, position⟩, htidy, hb, a, ha => by
    let b : Object := ⟨name, label, incoming, directives, comments, footer, position⟩
    have hnodes := Node.Ordered.mergeFields htidy.fields.nodes hb.nodes ha.nodes
    have hlength := length_mergeFields a.fields htidy.fields.proper
    -- what was there stays in front of what is moved
    have hbehind : ∀ d ∈ a.moved b, a.fields.length ≤ d.offset ∧
        d.offset ≤ (mergeFields a.fields incoming).length := by
      intro d hd
      obtain ⟨d', -, rfl⟩ := List.mem_map.mp hd
      have hle := newBefore_le a.fields incoming d'.offset
      exact ⟨Nat.le_add_right _ _, hlength ▸ Nat.add_le_add_left hle _⟩
    rw [Object.overlay_eq]
    refine .intro ?_ ?_ hnodes ?_
    · intro d hd
      rcases List.mem_append.mp hd with hd | hd
      · exact (ha.placed d hd).trans (hlength ▸ Nat.le_add_right _ _)
      · exact (hbehind d hd).2
    · exact List.pairwise_append.mpr ⟨ha.sorted, Object.sorted_moved hb,
        fun d hd d' hd' => (ha.placed d hd).trans (hbehind d' hd').1⟩
    · intro d hd
      rcases List.mem_append.mp hd with hd | hd
      · exact ha.blocks d hd
      · obtain ⟨d', hd', rfl⟩ := List.mem_map.mp hd
        exact hb.blocks d' hd'

theorem Node.Ordered.mergeFields : ∀ {incoming : Fields}, (∀ field ∈ incoming, field.2.Tidy) →
    (∀ field ∈ incoming, field.2.Ordered) → ∀ {fields : Fields},
      (∀ field ∈ fields, field.2.Ordered) →
        ∀ field ∈ ConfigLang.mergeFields fields incoming, field.2.Ordered
  | [], _, _, _, h => by
    rw [ConfigLang.mergeFields]
    exact h
  | (_, node) :: incoming, htidy, hincoming, _, h => by
    obtain ⟨hone, htidy⟩ := List.forall_mem_cons.mp htidy
    obtain ⟨hnode, hincoming⟩ := List.forall_mem_cons.mp hincoming
    rw [ConfigLang.mergeFields]
    exact Node.Ordered.mergeFields htidy hincoming (Node.Ordered.mergeNode hone hnode h)

theorem Node.Ordered.mergeNode : ∀ {node : Node}, node.Tidy → node.Ordered → ∀ {fields : Fields},
    (∀ field ∈ fields, field.2.Ordered) →
      ∀ field ∈ ConfigLang.mergeNode fields node, field.2.Ordered
  | .option binding, _, hnode, _, h => by
    rw [ConfigLang.mergeNode]
    exact hnode.put h
  | .list name items, _, hnode, _, h => by
    rw [ConfigLang.mergeNode]
    exact hnode.put h
  | .object b, htidy, hnode, _, h => by
    rw [ConfigLang.mergeNode]
    split
    · rename_i a hget
      have ha := (h _ (Keyed.mem_of_get? hget)).of_object
      exact (Node.Ordered.object
        (Object.Ordered.overlay htidy.of_object hnode.of_object ha)).put h
    · exact hnode.put h

end

theorem Node.Ordered.insert (hnode : node.Ordered) (h : ∀ field ∈ fields, field.2.Ordered) :
    ∀ field ∈ Fields.insert fields node, field.2.Ordered := by
  have hlist (name : String) {held : Node} (hheld : held.Ordered) :
      (Node.list name (held.flatten ++ node.flatten)).Ordered :=
    .list name (List.forall_mem_append.mpr ⟨hheld.flatten, hnode.flatten⟩)
  unfold Fields.insert
  split
  · exact hnode.put h
  · rename_i name items hget
    exact (hlist name (h _ (Keyed.mem_of_get? hget))).put h
  · rename_i held _ hget
    exact (hlist node.name (h _ (Keyed.mem_of_get? hget))).put h

/-- What arrives in an object takes no field away. -/
theorem Object.length_fields_le (o : Object) (method : Method) (node : Node) :
    o.fields.length ≤ (o.combine method node).fields.length := by
  have hkeys := congrArg List.length
    (Keyed.keys_put node.name (method.combine (o.get? node.name) node) o.fields)
  rw [Keyed.keys, List.length_map] at hkeys
  rw [combine_eq, hkeys]
  split <;> simp [Keyed.keys]

namespace Object.Ordered

theorem insert (h : o.Ordered) (hnode : node.Ordered) : (o.insert node).Ordered :=
  h.with_fields (o.length_fields_le .append node) (hnode.insert h.nodes)

theorem combine (h : o.Ordered) (method : Method) (htidy : node.Tidy) (hnode : node.Ordered) :
    (o.combine method node).Ordered := by
  have hlength := o.length_fields_le method node
  cases method with
  | merge => exact h.with_fields hlength (Node.Ordered.mergeNode htidy hnode h.nodes)
  | append => exact h.with_fields hlength (hnode.insert h.nodes)
  | replace => exact h.with_fields hlength (hnode.put h.nodes)

/-- **Trees that are combined stay in order.** -/
theorem combineEach {arrivals : List Arrival} (h : o.Ordered)
    (harrivals : ∀ a ∈ arrivals, a.node.Tidy ∧ a.node.Ordered) :
    (o.combineEach arrivals).Ordered := by
  induction arrivals generalizing o with
  | nil => exact h
  | cons a arrivals ih =>
      obtain ⟨⟨htidy, hnode⟩, harrivals⟩ := List.forall_mem_cons.mp harrivals
      exact ih (h.combine a.method htidy hnode) harrivals

end Object.Ordered

end ConfigLang
