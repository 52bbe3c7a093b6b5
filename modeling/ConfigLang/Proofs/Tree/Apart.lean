import Mathlib
import ConfigLang.Proofs.Expand.Reading
import ConfigLang.Proofs.Tree.Tidy

/-!
# Trees that agree apart from a field

A field is told by the names on the way to it.  Two trees agree apart from it if they have
the same fields in the same order, those of other names with the same nodes; under the
first name on the way, what was declared is the same in number and order, and what differs
are objects that agree apart from the rest of the way (`Object.AgreeOff`).  At its end the
two nodes may be any (`Node.AgreeOff`).

However nodes are combined, what differs stays where it is.  Combining looks at names, so
the newcomers have to carry the names that they are stored under.

## Strategy

* **One name.**  `Object.Apart` says that two objects agree apart from what is under a name,
  where the nodes are related somehow.  Their fields have the same names (`keys_apart`), so
  looking one up and putting one there keep the relation (`get?_apart`, `put_apart`).
* **Any relation.**  What the relation has to do is to survive combining with related nodes
  (`CombinesApart`).  Then it survives what arrives in an object, one node or many
  (`Object.Apart.combine`, `Object.Apart.combineEach`), and objects that are laid over one
  another (`Object.Apart.overlay`).
* **Inside.**  Objects that differ further inside are such a relation: they are merged where
  both are objects, and appended or replaced as a whole elsewhere
  (`Node.AgreeOff.combinesApart`, by induction on the way).
* **Directives.**  Two objects with the same directives are brought the same
  (`Item.arrivals_apart`).
-/

namespace ConfigLang

/-! ## Definitions -/

/-- Two fields agree, or have a name under which the nodes may differ. -/
structure FieldApart (key : String) (R : Node → Node → Prop) (field field' : String × Node) :
    Prop where
  key_eq : field.1 = field'.1
  other : field.1 ≠ key → field.2 = field'.2
  here : field.1 = key → R field.2 field'.2

/-- Two objects agree apart from what is under a name. -/
structure Object.Apart (key : String) (R : Node → Node → Prop) (o o' : Object) : Prop where
  rest : { o' with fields := o.fields } = o
  fields : List.Forall₂ (FieldApart key R) o.fields o'.fields

/-- Two items are the same, or are objects that may differ. -/
inductive ItemWithin (Q : Object → Object → Prop) : Node → Node → Prop
  | same (item : Node) : ItemWithin Q item item
  | object {o o' : Object} (h : Q o o') : ItemWithin Q (.object o) (.object o')

/-- Two nodes differ at most within their objects. -/
structure Node.Within (Q : Object → Object → Prop) (node node' : Node) : Prop where
  name_eq : node.name = node'.name
  isList_eq : node.isList = node'.isList
  items : List.Forall₂ (ItemWithin Q) node.flatten node'.flatten

/-- Two nodes agree apart from a field inside them, to which a way of names leads. If there is no
way left, they may be any nodes. -/
def Node.AgreeOff : (way : List String) → Node → Node → Prop
  | [], _, _ => True
  | key :: rest, node, node' => Node.Within (Object.Apart key (Node.AgreeOff rest)) node node'

/-- Two objects agree apart from a field inside them, to which a way of names leads. -/
def Object.AgreeOff : (way : List String) → Object → Object → Prop
  | [], _, _ => True
  | key :: rest, o, o' => Object.Apart key (Node.AgreeOff rest) o o'

variable {key : String} {R : Node → Node → Prop}

/-! ## A tree agrees with itself -/

theorem FieldApart.refl (hR : ∀ node, R node node) (field : String × Node) :
    FieldApart key R field field :=
  ⟨rfl, fun _ => rfl, fun _ => hR field.2⟩

theorem Object.Apart.refl (hR : ∀ node, R node node) (o : Object) : Object.Apart key R o o :=
  ⟨by cases o; rfl, List.forall₂_same.mpr fun field _ => .refl hR field⟩

theorem Node.Within.refl (Q : Object → Object → Prop) (node : Node) : Node.Within Q node node :=
  ⟨rfl, rfl, List.forall₂_same.mpr fun item _ => .same item⟩

theorem Node.AgreeOff.refl (way : List String) (node : Node) : Node.AgreeOff way node node := by
  cases way with
  | nil => exact True.intro
  | cons key rest => exact Node.Within.refl _ node

theorem Object.Apart.name_eq {o o' : Object} (h : Object.Apart key R o o') : o.name = o'.name := by
  rw [← h.rest]

theorem Object.Apart.label_eq {o o' : Object} (h : Object.Apart key R o o') :
    o.label = o'.label := by
  rw [← h.rest]

theorem Object.Apart.directives_eq {o o' : Object} (h : Object.Apart key R o o') :
    o'.directives = o.directives := by
  rw [← h.rest]

/-! ## Fields -/

section Fields

variable {fields fields' : Fields}

theorem keys_apart (h : List.Forall₂ (FieldApart key R) fields fields') :
    Keyed.keys fields = Keyed.keys fields' := by
  induction h with
  | nil => rfl
  | cons hfield _ ih =>
      rw [Keyed.keys, Keyed.keys, List.map_cons, List.map_cons, hfield.key_eq]
      exact congrArg (_ :: ·) ih

theorem get?_apart (h : List.Forall₂ (FieldApart key R) fields fields') {name : String}
    (hname : name ≠ key) : Keyed.get? fields name = Keyed.get? fields' name := by
  induction h with
  | nil => rfl
  | cons hfield _ ih =>
      rw [Keyed.get?_cons, Keyed.get?_cons, ih, ← hfield.key_eq]
      split
      · rename_i hkey
        rw [hfield.other (hkey ▸ hname)]
      · rfl

theorem get?_here (h : List.Forall₂ (FieldApart key R) fields fields') :
    Option.Rel R (Keyed.get? fields key) (Keyed.get? fields' key) := by
  induction h with
  | nil => exact .none
  | cons hfield _ ih =>
      rw [Keyed.get?_cons, Keyed.get?_cons, ← hfield.key_eq]
      split
      · rename_i hkey
        exact .some (hfield.here hkey)
      · exact ih

theorem put_apart (h : List.Forall₂ (FieldApart key R) fields fields') {name : String}
    {node node' : Node} (hother : name ≠ key → node = node') (hhere : name = key → R node node') :
    List.Forall₂ (FieldApart key R) (Keyed.put name node fields)
      (Keyed.put name node' fields') := by
  induction h with
  | nil => exact .cons ⟨rfl, hother, hhere⟩ .nil
  | @cons field field' _ _ hfield hrest ih =>
      obtain ⟨k, v⟩ := field
      obtain ⟨k', v'⟩ := field'
      obtain rfl : k = k' := hfield.key_eq
      rw [Keyed.put, Keyed.put]
      split
      · rename_i hkey
        subst hkey
        exact .cons ⟨rfl, hother, hhere⟩ hrest
      · exact .cons hfield ih

/-- Another node may be put under a name. -/
theorem Object.AgreeOff.put {o : Object} (hmem : key ∈ Keyed.keys o.fields) (node : Node) :
    Object.AgreeOff [key] o { o with fields := Keyed.put key node o.fields } := by
  refine ⟨by cases o; rfl, ?_⟩
  obtain ⟨name, label, fields, directives, comments, footer, position⟩ := o
  dsimp only at hmem ⊢
  induction fields with
  | nil => cases hmem
  | cons field fields ih =>
      obtain ⟨k, held⟩ := field
      rw [Keyed.put]
      split
      · rename_i hkey
        subst hkey
        exact .cons ⟨rfl, fun hne => absurd rfl hne, fun _ => True.intro⟩
          (List.forall₂_same.mpr fun field _ => .refl (fun _ => True.intro) field)
      · rename_i hkey
        have hrest := (List.mem_cons.mp hmem).resolve_left (Ne.symm hkey)
        exact .cons (.refl (fun _ => True.intro) _) (ih hrest)

end Fields

/-! ## Items -/

theorem Node.Within.of_item {Q : Object → Object → Prop}
    (hname : ∀ {o o'}, Q o o' → o.name = o'.name) {item item' : Node}
    (h : ItemWithin Q item item') : Node.Within Q item item' := by
  cases h with
  | same => exact .refl Q item
  | object ho => exact ⟨hname ho, rfl, .cons (.object ho) .nil⟩

theorem selectItem?_within {Q : Object → Object → Prop}
    (hlabel : ∀ {o o'}, Q o o' → o.label = o'.label) {items items' : List Node}
    (h : List.Forall₂ (ItemWithin Q) items items') (key : String) :
    Option.Rel (ItemWithin Q) (selectItem? items key) (selectItem? items' key) := by
  have hfind : Option.Rel (ItemWithin Q) (items.find? (Node.hasLabel key))
      (items'.find? (Node.hasLabel key)) := by
    induction h with
    | nil => exact .none
    | @cons item item' _ _ hitem _ ih =>
        have hhas : item.hasLabel key = item'.hasLabel key := by
          cases hitem with
          | same => rfl
          | object ho => rw [Node.hasLabel, Node.hasLabel, hlabel ho]
        rw [List.find?_cons, List.find?_cons, ← hhas]
        cases item.hasLabel key with
        | true => exact .some hitem
        | false => exact ih
  have hplace (i : Nat) : Option.Rel (ItemWithin Q) items[i]? items'[i]? := by
    clear hfind
    induction h generalizing i with
    | nil => exact .none
    | cons hitem _ ih =>
        cases i with
        | zero => exact .some hitem
        | succ i => exact ih i
  unfold selectItem?
  generalize items.find? (Node.hasLabel key) = x, items'.find? (Node.hasLabel key) = x' at hfind ⊢
  cases hfind with
  | some hitem => exact .some hitem
  | none =>
      cases placeOfText? key with
      | none => exact .none
      | some i => exact hplace i

/-! ## Combining -/

/-- Combining a node that may differ with what may differ gives what may differ. -/
def CombinesApart (R : Node → Node → Prop) : Prop :=
  ∀ {method : Method} {held held' : Option Node} {node node' : Node}, Option.Rel R held held' →
    R node node' → node.Tidy → node'.Tidy →
      R (method.combine held node) (method.combine held' node')

/-- Two nodes that arrive agree, or have a name under which they may differ. -/
structure Arrival.Apart (key : String) (R : Node → Node → Prop) (a a' : Arrival) : Prop where
  method_eq : a.method = a'.method
  node : FieldApart key R (a.node.name, a.node) (a'.node.name, a'.node)
  tidy : a.node.Tidy
  tidy' : a'.node.Tidy

theorem Arrival.Apart.put (hR : CombinesApart R) {fields fields' : Fields} {a a' : Arrival}
    (h : List.Forall₂ (FieldApart key R) fields fields') (ha : Arrival.Apart key R a a') :
    List.Forall₂ (FieldApart key R)
      (Keyed.put a.node.name (a.method.combine (Keyed.get? fields a.node.name) a.node) fields)
      (Keyed.put a'.node.name (a'.method.combine (Keyed.get? fields' a'.node.name) a'.node)
        fields') := by
  have hname : a.node.name = a'.node.name := ha.node.key_eq
  rw [← hname, ← ha.method_eq]
  refine put_apart h (fun hother => ?_) fun hhere => ?_
  · have hnode : a.node = a'.node := ha.node.other hother
    rw [get?_apart h hother, hnode]
  · rw [hhere]
    exact hR (get?_here h) (ha.node.here hhere) ha.tidy ha.tidy'

/-- The nodes of two fields, as they arrive in an object. -/
def FieldArrives (key : String) (R : Node → Node → Prop) (field field' : String × Node) : Prop :=
  Arrival.Apart key R ⟨.merge, field.2⟩ ⟨.merge, field'.2⟩

theorem fieldsArrive {fields fields' : Fields}
    (h : List.Forall₂ (FieldApart key R) fields fields') (htidy : Fields.Tidy fields)
    (htidy' : Fields.Tidy fields') : List.Forall₂ (FieldArrives key R) fields fields' := by
  induction h with
  | nil => exact .nil
  | @cons field field' _ _ hfield _ ih =>
      obtain ⟨k, node⟩ := field
      obtain ⟨k', node'⟩ := field'
      have hname : node.name = k := htidy.named _ List.mem_cons_self
      have hname' : node'.name = k' := htidy'.named _ List.mem_cons_self
      subst hname hname'
      refine .cons ⟨rfl, hfield, htidy.nodes _ List.mem_cons_self,
        htidy'.nodes _ List.mem_cons_self⟩ ?_
      exact ih (htidy.of_sublist (List.sublist_cons_self _ _))
        (htidy'.of_sublist (List.sublist_cons_self _ _))

theorem mergeFields_apart (hR : CombinesApart R) {fields fields' incoming incoming' : Fields}
    (h : List.Forall₂ (FieldApart key R) fields fields')
    (hincoming : List.Forall₂ (FieldArrives key R) incoming incoming') :
    List.Forall₂ (FieldApart key R) (mergeFields fields incoming)
      (mergeFields fields' incoming') := by
  induction hincoming generalizing fields fields' with
  | nil =>
      rw [mergeFields, mergeFields]
      exact h
  | cons harrival _ ih =>
      rw [mergeFields, mergeFields, mergeNode_eq, mergeNode_eq]
      exact ih (Arrival.Apart.put hR h harrival)

theorem newBefore_apart {fields fields' incoming incoming' : Fields}
    (h : List.Forall₂ (FieldApart key R) fields fields')
    (hincoming : List.Forall₂ (FieldApart key R) incoming incoming') (count : Nat) :
    Fields.newBefore fields incoming count = Fields.newBefore fields' incoming' count := by
  have hcontains (name : String) : Keyed.contains fields name = Keyed.contains fields' name := by
    rw [Bool.eq_iff_iff, Keyed.contains_iff, Keyed.contains_iff, keys_apart h]
  unfold Fields.newBefore
  simp only [hcontains]
  have htake := List.forall₂_take count hincoming
  generalize incoming.take count = taken at htake
  generalize incoming'.take count = taken' at htake
  induction htake with
  | nil => rfl
  | cons hfield _ ih =>
      rw [List.filter_cons, List.filter_cons, hfield.key_eq]
      split
      · exact congrArg (· + 1) ih
      · exact ih

namespace Object.Apart

theorem overlay (hR : CombinesApart R) {existing existing' incoming incoming' : Object}
    (h : Object.Apart key R existing existing') (hincoming : Object.Apart key R incoming incoming')
    (htidy : incoming.Tidy) (htidy' : incoming'.Tidy) :
    Object.Apart key R (existing.overlay incoming) (existing'.overlay incoming') := by
  obtain ⟨name, label, fields, directives, comments, footer, position⟩ := existing
  obtain ⟨name', label', fields', directives', comments', footer', position'⟩ := existing'
  obtain ⟨iname, ilabel, ifields, idirectives, icomments, ifooter, iposition⟩ := incoming
  obtain ⟨iname', ilabel', ifields', idirectives', icomments', ifooter', iposition'⟩ := incoming'
  obtain ⟨hrest, hfields⟩ := h
  obtain ⟨hirest, hifields⟩ := hincoming
  cases hrest
  cases hirest
  have hlength : fields.length = fields'.length := hfields.length_eq
  rw [Object.overlay, Object.overlay]
  refine ⟨?_, mergeFields_apart hR hfields (fieldsArrive hifields htidy.fields htidy'.fields)⟩
  dsimp only
  simp only [hlength, newBefore_apart hfields hifields]

theorem combine (hR : CombinesApart R) {o o' : Object} {a a' : Arrival}
    (h : Object.Apart key R o o') (ha : Arrival.Apart key R a a') :
    Object.Apart key R (o.combine a.method a.node) (o'.combine a'.method a'.node) := by
  obtain ⟨hrest, hfields⟩ := h
  rw [Object.combine_eq, Object.combine_eq]
  refine ⟨?_, ha.put hR hfields⟩
  rw [← hrest]

theorem combineEach (hR : CombinesApart R) {o o' : Object} {arrivals arrivals' : List Arrival}
    (h : Object.Apart key R o o')
    (harrivals : List.Forall₂ (Arrival.Apart key R) arrivals arrivals') :
    Object.Apart key R (o.combineEach arrivals) (o'.combineEach arrivals') := by
  induction harrivals generalizing o o' with
  | nil => exact h
  | cons ha _ ih => exact ih (h.combine hR ha)

end Object.Apart

/-- Only objects are merged into. -/
theorem Method.combine_merge_over {held : Node} (h : ∀ o, held ≠ .object o) (node : Node) :
    merge.combine (some held) node = node := by
  cases held with
  | option binding => rfl
  | list name items => rfl
  | object o => exact absurd rfl (h o)

namespace Node.Within

variable {Q : Object → Object → Prop} {node node' : Node}

theorem exists_object (hQ : ∀ o, Q o o) {o : Object} (h : Node.Within Q (.object o) node) :
    ∃ o', node = .object o' ∧ Q o o' := by
  obtain ⟨-, hlist, hitems⟩ := h
  cases node with
  | option binding =>
      cases hitems with
      | cons hitem _ => cases hitem
  | list name items => cases hlist
  | object o' =>
      refine ⟨o', rfl, ?_⟩
      cases hitems with
      | cons hitem _ =>
          cases hitem with
          | same => exact hQ o
          | object h => exact h

theorem eq_option {binding : Binding} (h : Node.Within Q (.option binding) node) :
    node = .option binding := by
  obtain ⟨-, hlist, hitems⟩ := h
  cases node with
  | option other =>
      cases hitems with
      | cons hitem _ =>
          cases hitem with
          | same => rfl
  | list name items => cases hlist
  | object o =>
      cases hitems with
      | cons hitem _ => cases hitem

theorem exists_list {name : String} {items : List Node}
    (h : Node.Within Q (.list name items) node) :
    ∃ items', node = .list name items' ∧ List.Forall₂ (ItemWithin Q) items items' := by
  obtain ⟨hname, hlist, hitems⟩ := h
  cases node with
  | option binding => cases hlist
  | object o => cases hlist
  | list name' items' =>
      obtain rfl : name = name' := hname
      exact ⟨items', rfl, hitems⟩

theorem symm (h : Node.Within Q node node') : Node.Within (fun o o' => Q o' o) node' node := by
  refine ⟨h.name_eq.symm, h.isList_eq.symm, h.items.flip.imp fun item item' hitem => ?_⟩
  cases hitem with
  | same => exact .same _
  | object h => exact .object h

theorem ne_object (hQ : ∀ o, Q o o) (h : Node.Within Q node node') (hne : ∀ o, node ≠ .object o) :
    ∀ o, node' ≠ .object o := by
  rintro o rfl
  obtain ⟨o', rfl, -⟩ := h.symm.exists_object (Q := fun o o' => Q o' o) hQ
  exact hne o' rfl

/-- Appending is not concerned with what the items are. -/
theorem append {held held' : Node} (hheld : Node.Within Q held held')
    (hnode : Node.Within Q node node') :
    Node.Within Q (Method.append.combine (some held) node)
      (Method.append.combine (some held') node') := by
  have hform (held node : Node) : Method.append.combine (some held) node =
      .list (if held.isList then held.name else node.name) (held.flatten ++ node.flatten) := by
    cases held <;> rfl
  rw [hform, hform, ← hheld.isList_eq, hheld.name_eq, hnode.name_eq]
  exact ⟨rfl, rfl, List.rel_append hheld.items hnode.items⟩

theorem combine (hQ : ∀ o, Q o o)
    (hoverlay : ∀ {existing existing' incoming incoming' : Object}, Q existing existing' →
      Q incoming incoming' → incoming.Tidy → incoming'.Tidy →
        Q (existing.overlay incoming) (existing'.overlay incoming')) :
    CombinesApart (Node.Within Q) := by
  intro method held held' node node' hheld hnode htidy htidy'
  cases hheld with
  | none =>
      rw [Method.combine_none, Method.combine_none]
      exact hnode
  | @some held held' hheld =>
      cases method with
      | replace => exact hnode
      | append => exact hheld.append hnode
      | merge =>
          cases node with
          | option binding =>
              rw [Method.combine_merge (by rintro _ ⟨⟩),
                Method.combine_merge (hnode.ne_object hQ (by rintro _ ⟨⟩))]
              exact hnode
          | list name items =>
              rw [Method.combine_merge (by rintro _ ⟨⟩),
                Method.combine_merge (hnode.ne_object hQ (by rintro _ ⟨⟩))]
              exact hnode
          | object incoming =>
              obtain ⟨incoming', rfl, hincoming⟩ := hnode.exists_object hQ
              by_cases hobject : ∃ o, held = .object o
              · -- objects are laid over one another on both sides
                obtain ⟨existing, rfl⟩ := hobject
                obtain ⟨existing', rfl, hexisting⟩ := hheld.exists_object hQ
                have hname : existing.name = existing'.name := hheld.name_eq
                refine ⟨?_, rfl, .cons (.object ?_) .nil⟩
                · change (existing.overlay incoming).name = (existing'.overlay incoming').name
                  rw [Object.name_overlay, Object.name_overlay, hname]
                · exact hoverlay hexisting hincoming htidy.of_object htidy'.of_object
              · have hne := not_exists.mp hobject
                rw [Method.combine_merge_over hne,
                  Method.combine_merge_over (hheld.ne_object hQ hne)]
                exact hnode

end Node.Within

/-- **What differs stays where it is** when nodes are combined. -/
theorem Node.AgreeOff.combinesApart (way : List String) : CombinesApart (Node.AgreeOff way) := by
  induction way with
  | nil => exact fun _ _ _ _ => True.intro
  | cons key rest ih =>
      exact Node.Within.combine (.refl (.refl rest)) fun h h' htidy htidy' =>
        h.overlay ih h' htidy htidy'

/-! ## What arrives -/

/-- What arrives in two objects whose directives bring the same. -/
theorem Item.arrivals_apart (hR : ∀ node, R node node) {fields fields' : Fields}
    (h : List.Forall₂ (FieldArrives key R) fields fields') {effects : List Effect}
    (heffects : ∀ e ∈ effects, ∀ entry ∈ e.fields, entry.2.Tidy) (placed : Nat)
    (ds : List Directive) :
    List.Forall₂ (Arrival.Apart key R) (arrivals (interleave placed fields ds) effects)
      (arrivals (interleave placed fields' ds) effects) := by
  refine forall₂_arrivals h (fun e he a hmem => ?_) placed ds
  obtain ⟨entry, hentry, rfl⟩ := List.mem_map.mp hmem
  have htidy := heffects e he entry hentry
  exact ⟨rfl, .refl hR _, htidy, htidy⟩

end ConfigLang
