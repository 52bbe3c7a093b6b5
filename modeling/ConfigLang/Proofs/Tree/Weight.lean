import Mathlib
import ConfigLang.Proofs.Tree.Combine
import ConfigLang.Tree.Truncate
import ConfigLang.Tree.Weight

/-!
# Directives are moved, never made

However nodes are combined, no directive comes out that did not go in: the weight of
what is put together is at most that of the parts (`Object.weight_combineEach_le`).
A directive may get lost on the way, since what is replaced takes its directives with
it.  Cutting a tree to some levels does not add any directive either.
-/

namespace ConfigLang

/-! ## Sums -/

theorem weightFields_append (fields others : Fields) :
    weightFields (fields ++ others) = weightFields fields + weightFields others := by
  induction fields with
  | nil => rw [List.nil_append, weightFields, Nat.zero_add]
  | cons field fields ih =>
      rw [List.cons_append, weightFields, weightFields, ih, Nat.add_assoc]

theorem weightItems_append (items others : List Node) :
    weightItems (items ++ others) = weightItems items + weightItems others := by
  induction items with
  | nil => rw [List.nil_append, weightItems, Nat.zero_add]
  | cons item items ih => rw [List.cons_append, weightItems, weightItems, ih, Nat.add_assoc]

theorem weightDirectives_append (directives others : List Directive) :
    weightDirectives (directives ++ others) =
      weightDirectives directives + weightDirectives others := by
  induction directives with
  | nil => rw [List.nil_append, weightDirectives, Nat.zero_add]
  | cons d directives ih =>
      obtain ⟨kind, args, position, offset⟩ := d
      rw [List.cons_append, weightDirectives, weightDirectives, ih]
      omega

/-- Where a directive stands does not count. -/
theorem weightDirectives_map_offset (f : Directive → Nat) (directives : List Directive) :
    weightDirectives (directives.map fun d => { d with offset := f d }) =
      weightDirectives directives := by
  induction directives with
  | nil => rfl
  | cons d directives ih =>
      obtain ⟨kind, args, position, offset⟩ := d
      rw [List.map_cons, weightDirectives, weightDirectives, ih]

theorem weightFields_filter_le (p : String × Node → Bool) (fields : Fields) :
    weightFields (fields.filter p) ≤ weightFields fields := by
  induction fields with
  | nil => exact Nat.le_refl _
  | cons field fields ih =>
      rw [List.filter_cons]
      split
      · rw [weightFields, weightFields]
        omega
      · rw [weightFields]
        omega

theorem weightItems_flatten (node : Node) : weightItems node.flatten = node.weight := by
  cases node with
  | option binding => rfl
  | object o =>
      change o.weight + 0 = o.weight
      rw [Nat.add_zero]
  | list name items => rw [Node.flatten, Node.weight]

/-- A directive counts together with those in its arguments. -/
theorem weightArgs_lt_of_mem {d : Directive} {directives : List Directive}
    (h : d ∈ directives) : weightArgs d.args < weightDirectives directives := by
  induction directives with
  | nil => cases h
  | cons other directives ih =>
      obtain ⟨kind, args, position, offset⟩ := other
      rw [weightDirectives]
      rcases List.mem_cons.mp h with rfl | h
      · dsimp only
        omega
      · have := ih h
        omega

theorem weight_le_of_mem_args {arg : Argument Payload} {args : List (Argument Payload)}
    (h : arg ∈ args) : arg.value.weight ≤ weightArgs args := by
  induction args with
  | nil => cases h
  | cons other args ih =>
      rw [weightArgs]
      rcases List.mem_cons.mp h with rfl | h
      · exact Nat.le_add_right _ _
      · have := ih h
        omega

theorem Object.weight_eq (o : Object) :
    o.weight = weightFields o.fields + weightDirectives o.directives := by
  cases o
  rw [weight]

theorem Object.weightArgs_lt (o : Object) {d : Directive} (h : d ∈ o.directives) :
    weightArgs d.args < o.weight := by
  rw [o.weight_eq]
  exact (weightArgs_lt_of_mem h).trans_le (Nat.le_add_left _ _)

theorem Object.weightFields_lt (o : Object) (h : o.directives ≠ []) :
    weightFields o.fields < o.weight := by
  obtain ⟨d, hmem⟩ := List.exists_mem_of_ne_nil _ h
  have hlt := weightArgs_lt_of_mem hmem
  rw [o.weight_eq]
  omega

/-- The directives in what a name holds. -/
def heldWeight (held : Option Node) : Nat :=
  held.elim 0 Node.weight

/-- A node that is put in place takes the place of what was there. -/
theorem weightFields_put (key : String) (node : Node) (fields : Fields) :
    weightFields (Keyed.put key node fields) + heldWeight (Keyed.get? fields key) =
      weightFields fields + node.weight := by
  induction fields with
  | nil =>
      rw [Keyed.put, weightFields, weightFields]
      exact Nat.add_comm _ _
  | cons field fields ih =>
      obtain ⟨name, held⟩ := field
      rw [Keyed.put, Keyed.get?_cons]
      split
      · rw [weightFields, weightFields, heldWeight, Option.elim_some]
        dsimp only
        omega
      · rw [weightFields, weightFields]
        omega

/-- A node that is made of what was there and of a newcomer adds no more than the newcomer. -/
theorem weightFields_put_le {key : String} {node : Node} {fields : Fields} {n : Nat}
    (h : node.weight ≤ heldWeight (Keyed.get? fields key) + n) :
    weightFields (Keyed.put key node fields) ≤ weightFields fields + n := by
  have hput := weightFields_put key node fields
  omega

/-! ## Merging -/

mutual

theorem Object.weight_overlay_le (existing : Object) : ∀ incoming : Object,
    (existing.overlay incoming).weight ≤ existing.weight + incoming.weight
  | ⟨_, _, fields, directives, _, _, _⟩ => by
    have hfields := weightFields_mergeFields_le existing.fields fields
    rw [Object.overlay, Object.weight_eq, Object.weight_eq existing, Object.weight]
    dsimp only
    rw [weightDirectives_append, weightDirectives_map_offset]
    omega

theorem weightFields_mergeFields_le (fields : Fields) : ∀ incoming : Fields,
    weightFields (mergeFields fields incoming) ≤ weightFields fields + weightFields incoming
  | [] => by
    rw [mergeFields]
    exact Nat.le_add_right _ _
  | (_, node) :: incoming => by
    have hnode := weightFields_mergeNode_le fields node
    have hrest := weightFields_mergeFields_le (mergeNode fields node) incoming
    rw [mergeFields, weightFields]
    omega

theorem weightFields_mergeNode_le (fields : Fields) : ∀ node : Node,
    weightFields (mergeNode fields node) ≤ weightFields fields + node.weight
  | .option binding => by
    rw [mergeNode]
    exact weightFields_put_le (Nat.le_add_left _ _)
  | .list name items => by
    rw [mergeNode]
    exact weightFields_put_le (Nat.le_add_left _ _)
  | .object incoming => by
    rw [mergeNode]
    split
    · rename_i existing hget
      apply weightFields_put_le
      rw [hget]
      exact Object.weight_overlay_le existing incoming
    · exact weightFields_put_le (Nat.le_add_left _ _)

end

theorem Fields.weight_insert_le (fields : Fields) (node : Node) :
    weightFields (fields.insert node) ≤ weightFields fields + node.weight := by
  unfold insert
  split
  · exact weightFields_put_le (Nat.le_add_left _ _)
  · rename_i name items hget
    apply weightFields_put_le
    rw [hget, heldWeight, Option.elim_some, Node.weight, Node.weight, weightItems_append,
      weightItems_flatten]
  · rename_i existing _ hget
    apply weightFields_put_le
    rw [hget, heldWeight, Option.elim_some, Node.weight, weightItems_append, weightItems_flatten,
      weightItems_flatten]

namespace Object

/-- Combining adds no more directives than the newcomer has. -/
theorem weight_combine_le (o : Object) (method : Method) (node : Node) :
    (o.combine method node).weight ≤ o.weight + node.weight := by
  have hfields : ∀ fields : Fields, weightFields fields ≤ weightFields o.fields + node.weight →
      ({ o with fields } : Object).weight ≤ o.weight + node.weight := fun fields h => by
    rw [weight_eq, weight_eq o]
    dsimp only
    omega
  cases method with
  | merge => exact hfields _ (weightFields_mergeNode_le o.fields node)
  | append => exact hfields _ (Fields.weight_insert_le o.fields node)
  | replace => exact hfields _ (weightFields_put_le (Nat.le_add_left _ _))

/-- **No directive comes out that did not go in.** -/
theorem weight_combineEach_le (o : Object) (arrivals : List Arrival) :
    (o.combineEach arrivals).weight ≤ o.weight + (arrivals.map (·.node.weight)).sum := by
  induction arrivals generalizing o with
  | nil => exact Nat.le_refl _
  | cons a arrivals ih =>
      have hfirst := o.weight_combine_le a.method a.node
      have hrest := ih (o.combine a.method a.node)
      rw [List.map_cons, List.sum_cons]
      change ((o.combine a.method a.node).combineEach arrivals).weight ≤ _
      omega

end Object

/-! ## Truncating -/

mutual

theorem Object.weightFields_truncate_le (depth : Nat) : ∀ o : Object,
    weightFields (o.truncate depth).fields ≤ weightFields o.fields
  | ⟨_, _, fields, _, _, _, _⟩ => by
    rw [Object.truncate]
    dsimp only
    split
    · exact weightFields_filter_le (fun field => field.2.isValue) fields
    · exact weightFields_truncateFields_le (depth - 1) fields

theorem weightFields_truncateFields_le (depth : Nat) : ∀ fields : Fields,
    weightFields (truncateFields depth fields) ≤ weightFields fields
  | [] => by
    rw [truncateFields]
  | (_, node) :: fields => by
    have hnode := Node.weight_truncate_le depth node
    have hrest := weightFields_truncateFields_le depth fields
    rw [truncateFields, weightFields, weightFields]
    omega

theorem Node.weight_truncate_le (depth : Nat) : ∀ node : Node,
    (node.truncate depth).weight ≤ node.weight
  | .option binding => by
    rw [Node.truncate]
  | .object o => by
    have hfields := Object.weightFields_truncate_le depth o
    have hdirectives : (o.truncate depth).directives = o.directives := by
      cases o
      rw [Object.truncate]
    rw [Node.truncate, Node.weight, Node.weight, Object.weight_eq, o.weight_eq, hdirectives]
    omega
  | .list name items => by
    rw [Node.truncate, Node.weight, Node.weight]
    exact weightItems_truncateItems_le depth items

theorem weightItems_truncateItems_le (depth : Nat) : ∀ items : List Node,
    weightItems (truncateItems depth items) ≤ weightItems items
  | [] => by
    rw [truncateItems]
  | item :: items => by
    have hitem := Node.weight_truncate_le depth item
    have hrest := weightItems_truncateItems_le depth items
    rw [truncateItems, weightItems, weightItems]
    omega

end

end ConfigLang
