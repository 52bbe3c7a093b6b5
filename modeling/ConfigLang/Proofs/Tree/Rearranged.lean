import Mathlib
import ConfigLang.Proofs.Tree.Tidy

/-!
# Rearranged trees

A tree is rearranged if the fields of its objects stand in another order, while the
items of each list keep theirs (`Object.Rearranged`).  What is inside the fields of an
object is rearranged first, with the fields in their places, and then the fields change
places.

The same fields are found in both trees (`Object.Rearranged.get?`), and those with
values are found as they are, since there is no object in them
(`Node.Rearranged.eq_of_isValue`).
-/

namespace ConfigLang

mutual

/-- The fields of an object, or of objects in it, stand in another order. -/
inductive Object.Rearranged : Object → Object → Prop
  | intro {o : Object} {middle fields : Fields} (inner : FieldsRearranged o.fields middle)
      (perm : middle.Perm fields) : Object.Rearranged o { o with fields }

/-- Fields in their places, with rearranged nodes. -/
inductive FieldsRearranged : Fields → Fields → Prop
  | nil : FieldsRearranged [] []
  | cons (key : String) {node node' : Node} {fields fields' : Fields}
      (head : node.Rearranged node') (tail : FieldsRearranged fields fields') :
      FieldsRearranged ((key, node) :: fields) ((key, node') :: fields')

/-- The fields of objects in a node stand in another order. -/
inductive Node.Rearranged : Node → Node → Prop
  | option (binding : Binding) : Node.Rearranged (.option binding) (.option binding)
  | object {o o' : Object} (h : o.Rearranged o') : Node.Rearranged (.object o) (.object o')
  | list (name : String) {items items' : List Node} (h : ItemsRearranged items items') :
      Node.Rearranged (.list name items) (.list name items')

/-- The items of a list in their places, rearranged within. -/
inductive ItemsRearranged : List Node → List Node → Prop
  | nil : ItemsRearranged [] []
  | cons {item item' : Node} {items items' : List Node} (head : item.Rearranged item')
      (tail : ItemsRearranged items items') : ItemsRearranged (item :: items) (item' :: items')

end

variable {o o' : Object} {node node' : Node} {fields fields' : Fields} {items items' : List Node}

/-! ## Rearranging nothing -/

mutual

theorem Object.Rearranged.refl : ∀ o : Object, o.Rearranged o
  | ⟨_, _, fields, _, _, _, _⟩ => .intro (FieldsRearranged.refl fields) (.refl fields)

theorem FieldsRearranged.refl : ∀ fields : Fields, FieldsRearranged fields fields
  | [] => .nil
  | (key, node) :: fields => .cons key (Node.Rearranged.refl node) (FieldsRearranged.refl fields)

theorem Node.Rearranged.refl : ∀ node : Node, node.Rearranged node
  | .option binding => .option binding
  | .object o => .object (Object.Rearranged.refl o)
  | .list name items => .list name (ItemsRearranged.refl items)

theorem ItemsRearranged.refl : ∀ items : List Node, ItemsRearranged items items
  | [] => .nil
  | item :: items => .cons (Node.Rearranged.refl item) (ItemsRearranged.refl items)

end

/-- The fields of one object change places. -/
theorem Object.Rearranged.of_perm (h : o.fields.Perm fields) : o.Rearranged { o with fields } :=
  .intro (.refl o.fields) h

/-! ## What stays -/

namespace Node.Rearranged

theorem name_eq (h : node.Rearranged node') : node'.name = node.name := by
  cases h with
  | option binding => rfl
  | object h => cases h; rfl
  | list name h => rfl

theorem isOption_eq (h : node.Rearranged node') : node'.isOption = node.isOption := by
  cases h <;> rfl

theorem isList_eq (h : node.Rearranged node') : node'.isList = node.isList := by
  cases h <;> rfl

theorem hasLabel_eq (h : node.Rearranged node') (label : String) :
    node'.hasLabel label = node.hasLabel label := by
  cases h with
  | option binding => rfl
  | object h => cases h; rfl
  | list name h => rfl

/-- An option has no fields to rearrange. -/
theorem eq_of_isOption (h : node.Rearranged node') (hoption : node.isOption = true) :
    node' = node := by
  cases h with
  | option binding => rfl
  | object h => cases hoption
  | list name h => cases hoption

end Node.Rearranged

namespace ItemsRearranged

theorem all_isOption_eq : ∀ {items items' : List Node}, ItemsRearranged items items' →
    items'.all Node.isOption = items.all Node.isOption
  | _, _, .nil => rfl
  | _, _, .cons hitem h => by
    rw [List.all_cons, List.all_cons, hitem.isOption_eq, all_isOption_eq h]

theorem eq_of_all_isOption : ∀ {items items' : List Node}, ItemsRearranged items items' →
    items.all Node.isOption = true → items' = items
  | _, _, .nil, _ => rfl
  | _, _, .cons hitem h, hall => by
    rw [List.all_cons, Bool.and_eq_true] at hall
    rw [hitem.eq_of_isOption hall.1, eq_of_all_isOption h hall.2]

theorem length_eq : ∀ {items items' : List Node}, ItemsRearranged items items' →
    items'.length = items.length
  | _, _, .nil => rfl
  | _, _, .cons _ h => congrArg Nat.succ (length_eq h)

end ItemsRearranged

namespace Node.Rearranged

theorem isValue_eq (h : node.Rearranged node') : node'.isValue = node.isValue := by
  cases h with
  | option binding => rfl
  | object h => rfl
  | list name h => exact h.all_isOption_eq

/-- What has a value stands as it is. -/
theorem eq_of_isValue (h : node.Rearranged node') (hvalue : node.isValue = true) :
    node' = node := by
  cases h with
  | option binding => rfl
  | object h => cases hvalue
  | list name h => rw [h.eq_of_all_isOption hvalue]

end Node.Rearranged

/-! ## Tidy trees -/

theorem FieldsRearranged.keys_eq : ∀ {fields fields' : Fields}, FieldsRearranged fields fields' →
    Keyed.keys fields' = Keyed.keys fields
  | _, _, .nil => rfl
  | _, _, .cons key _ h => congrArg (key :: ·) (keys_eq h)

theorem Fields.Tidy.perm (h : Fields.Tidy fields) (hperm : fields.Perm fields') :
    Fields.Tidy fields' where
  distinct := (hperm.map Prod.fst).nodup_iff.mp h.distinct
  named field hmem := h.named field (hperm.mem_iff.mpr hmem)
  nodes field hmem := h.nodes field (hperm.mem_iff.mpr hmem)

mutual

/-- **A tidy tree is tidy in any order.** -/
theorem Object.Rearranged.tidy : ∀ {o o' : Object}, o.Rearranged o' → o.Tidy → o'.Tidy
  | _, _, .intro inner perm, ho => by
    obtain ⟨hnamed, hnodes⟩ := FieldsRearranged.tidy inner ho.fields.named ho.fields.nodes
    have hdistinct : (Keyed.keys _).Nodup := inner.keys_eq ▸ ho.fields.distinct
    exact ho.with_fields (Fields.Tidy.perm ⟨hdistinct, hnamed, hnodes⟩ perm)

theorem FieldsRearranged.tidy : ∀ {fields fields' : Fields}, FieldsRearranged fields fields' →
    (∀ field ∈ fields, field.2.name = field.1) → (∀ field ∈ fields, field.2.Tidy) →
      (∀ field ∈ fields', field.2.name = field.1) ∧ ∀ field ∈ fields', field.2.Tidy
  | _, _, .nil, hnamed, hnodes => ⟨hnamed, hnodes⟩
  | _, _, .cons key hnode h, hnamed, hnodes => by
    obtain ⟨hname, hnamed⟩ := List.forall_mem_cons.mp hnamed
    obtain ⟨htidy, hnodes⟩ := List.forall_mem_cons.mp hnodes
    obtain ⟨hnamed', hnodes'⟩ := FieldsRearranged.tidy h hnamed hnodes
    exact ⟨List.forall_mem_cons.mpr ⟨hnode.name_eq.trans hname, hnamed'⟩,
      List.forall_mem_cons.mpr ⟨Node.Rearranged.tidy hnode htidy, hnodes'⟩⟩

theorem Node.Rearranged.tidy : ∀ {node node' : Node}, node.Rearranged node' → node.Tidy →
    node'.Tidy
  | _, _, .option _, h => h
  | _, _, .object ho, h => .object (Object.Rearranged.tidy ho h.of_object)
  | _, _, .list _ hitems, h =>
    .of_items (hitems.length_eq ▸ h.several) (ItemsRearranged.tidy hitems h.items)

theorem ItemsRearranged.tidy : ∀ {items items' : List Node} {name : String},
    ItemsRearranged items items' → (∀ item ∈ items, Node.IsItem name item) →
      ∀ item ∈ items', Node.IsItem name item
  | _, _, _, .nil, h => h
  | _, _, _, .cons hitem hitems, h => by
    obtain ⟨hhead, hrest⟩ := List.forall_mem_cons.mp h
    have hitem' : Node.IsItem _ _ := ⟨hitem.name_eq.trans hhead.named,
      hitem.isList_eq.trans hhead.single, Node.Rearranged.tidy hitem hhead.tidy⟩
    exact List.forall_mem_cons.mpr ⟨hitem', ItemsRearranged.tidy hitems hrest⟩

end

/-! ## Finding fields and items -/

theorem FieldsRearranged.get? (key : String) : ∀ {fields fields' : Fields},
    FieldsRearranged fields fields' →
      Option.Rel Node.Rearranged (Keyed.get? fields key) (Keyed.get? fields' key)
  | _, _, .nil => .none
  | _, _, .cons name hnode h => by
    rw [Keyed.get?_cons, Keyed.get?_cons]
    split
    · exact .some hnode
    · exact FieldsRearranged.get? key h

theorem FieldsRearranged.countP_isValue : ∀ {fields fields' : Fields},
    FieldsRearranged fields fields' →
      (fields'.countP fun field => field.2.isValue) = fields.countP fun field => field.2.isValue
  | _, _, .nil => rfl
  | _, _, .cons _ hnode h => by
    rw [List.countP_cons, List.countP_cons, countP_isValue h, hnode.isValue_eq]

/-- The same fields are found, rearranged within. -/
theorem Object.Rearranged.get? (h : o.Rearranged o') (ho : o.Tidy) (key : String) :
    Option.Rel Node.Rearranged (o.get? key) (o'.get? key) := by
  cases h with
  | intro inner perm =>
      have hdistinct : (Keyed.keys _).Nodup := inner.keys_eq ▸ ho.fields.distinct
      have hget : Object.get? { o with fields := _ } key = Keyed.get? _ key :=
        (Keyed.get?_perm hdistinct perm key).symm
      rw [hget]
      exact inner.get? key

/-- A field with a value is found as it is. -/
theorem Object.Rearranged.filter_isValue (h : o.Rearranged o') (ho : o.Tidy) (key : String) :
    (o'.get? key).filter Node.isValue = (o.get? key).filter Node.isValue := by
  have hget := h.get? ho key
  generalize o.get? key = x, o'.get? key = x' at hget ⊢
  cases hget with
  | none => rfl
  | @some node node' hnode =>
      rw [Option.filter_some, Option.filter_some, hnode.isValue_eq]
      split
      · rename_i hvalue
        rw [hnode.eq_of_isValue hvalue]
      · rfl

namespace ItemsRearranged

theorem find?_hasLabel (label : String) : ∀ {items items' : List Node},
    ItemsRearranged items items' →
      Option.Rel Node.Rearranged (items.find? (Node.hasLabel label))
        (items'.find? (Node.hasLabel label))
  | _, _, .nil => .none
  | _, _, .cons hitem h => by
    rw [List.find?_cons, List.find?_cons, hitem.hasLabel_eq]
    split
    · exact .some hitem
    · exact find?_hasLabel label h

theorem getElem? : ∀ {items items' : List Node}, ItemsRearranged items items' → ∀ i : Nat,
    Option.Rel Node.Rearranged items[i]? items'[i]?
  | _, _, .nil, _ => .none
  | _, _, .cons hitem _, 0 => .some hitem
  | _, _, .cons _ h, i + 1 => getElem? h i

private theorem rel_or {x x' y y' : Option Node} (hx : Option.Rel Node.Rearranged x x')
    (hy : Option.Rel Node.Rearranged y y') : Option.Rel Node.Rearranged (x.or y) (x'.or y') := by
  cases hx with
  | some h => exact .some h
  | none => exact hy

/-- A key selects the same item of a list. -/
theorem selectItem? (h : ItemsRearranged items items') (key : String) :
    Option.Rel Node.Rearranged (ConfigLang.selectItem? items key)
      (ConfigLang.selectItem? items' key) := by
  have hplace : Option.Rel Node.Rearranged (placeOfText? key >>= fun i => items[i]?)
      (placeOfText? key >>= fun i => items'[i]?) := by
    cases placeOfText? key with
    | none => exact .none
    | some i => exact h.getElem? i
  exact rel_or (h.find?_hasLabel key) hplace

end ItemsRearranged

end ConfigLang
