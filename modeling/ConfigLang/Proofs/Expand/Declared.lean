import Mathlib
import ConfigLang.Proofs.Expand.Reading
import ConfigLang.Proofs.Tree.Grouped

/-!
# Declaring items one after the other

An object does not keep the order in which its items were declared: a name that is
declared again joins its first declaration, and a directive only knows how many names
stood above it.

`items_declareAll` says what is left of the order.  A name is found at its first
declaration with all that is declared under it, and as many directives stand above it
as stood above the first declaration.

## Strategy

* **One item.**  An item that is declared last comes last among the items of the object
  (`items_declare_new`, `items_declare_directive`), unless its name has been declared: then
  it changes the field of that name in its place (`items_declare_again`).  For this the
  object has to be `Orderly`, which it stays (`Orderly.declare`).
* **One name.**  `Object.Holds` says what the field of a name is and how many directives
  stand above it.  A declaration of the name joins those that there are
  (`Holds.declare_again`) and one of another name is of no matter (`Holds.declare_other`).
* **All items.**  `Holds.declareAll` is the induction over the items, which starts where
  the name is declared first.  What is gathered under a name is a list if there is more
  than one declaration of it (`Node.gather_eq_collect`).
* **Directives.**  What the directives below a field bring comes on top of it, and what
  those above it bring is lost unless the field is an object (`Holds.get?_combineEach`).
-/

namespace ConfigLang

/-- An object to which an item is added. -/
def Object.declare (o : Object) : Item → Object
  | .field node => o.insert node
  | .directive d => { o with directives := o.directives ++ [{ d with offset := o.fields.length }] }

/-- An object to which some items are added. -/
def Object.declareAll (o : Object) (items : List Item) : Object :=
  items.foldl declare o

theorem Directive.with_offset (d : Directive) {offset : Nat} (h : d.offset = offset) :
    { d with offset } = d := by
  subst h
  cases d
  rfl

/-- The fields and directives come from those that there were. -/
theorem Object.declareAll_congr {o o' : Object} (hfields : o.fields = o'.fields)
    (hdirectives : o.directives = o'.directives) (items : List Item) :
    (o.declareAll items).fields = (o'.declareAll items).fields ∧
      (o.declareAll items).directives = (o'.declareAll items).directives := by
  induction items generalizing o o' with
  | nil => exact ⟨hfields, hdirectives⟩
  | cons item items ih =>
      cases item with
      | field node =>
          refine @ih (o.insert node) (o'.insert node) ?_ hdirectives
          exact congrArg (Fields.insert · node) hfields
      | directive d =>
          refine @ih (o.declare (.directive d)) (o'.declare (.directive d)) hfields ?_
          rw [declare, declare, hfields, hdirectives]

/-! ## Adding an item -/

namespace Item

/-- Puts another node in the place of the field of a name. -/
def replace (name : String) (new : Node) : Item → Item
  | field node => field (if node.name = name then new else node)
  | directive d => directive d

/-- The nodes that are declared under a name. -/
def declared (name : String) (items : List Item) : List Node :=
  items.filterMap fun
    | field node => if node.name = name then some node else none
    | directive _ => none

theorem declared_append (name : String) (items others : List Item) :
    declared name (items ++ others) = declared name items ++ declared name others :=
  List.filterMap_append

theorem declared_cons {name : String} {node : Node} (hname : node.name = name)
    (items : List Item) : declared name (field node :: items) = node :: declared name items := by
  unfold declared
  rw [List.filterMap_cons]
  dsimp only
  rw [if_pos hname]

theorem declared_of_not_mem {name : String} {items : List Item} (h : name ∉ names items) :
    declared name items = [] := by
  apply List.filterMap_eq_nil_iff.mpr
  intro item hmem
  cases item with
  | directive d => rfl
  | field node =>
      have hne : node.name ≠ name := by
        rintro rfl
        exact h (List.mem_filterMap.mpr ⟨_, hmem, rfl⟩)
      exact if_neg hne

theorem mem_declared {name : String} {items : List Item} {node : Node} :
    node ∈ declared name items ↔ field node ∈ items ∧ node.name = name := by
  unfold declared
  rw [List.mem_filterMap]
  constructor
  · rintro ⟨item, hmem, hitem⟩
    cases item with
    | directive d => cases hitem
    | field other =>
        by_cases hname : other.name = name
        · obtain rfl : other = node := Option.some.inj ((if_pos hname).symm.trans hitem)
          exact ⟨hmem, hname⟩
        · cases (if_neg hname).symm.trans hitem
  · rintro ⟨hmem, hname⟩
    exact ⟨_, hmem, if_pos hname⟩

theorem replace_of_not_mem {name : String} {new : Node} {items : List Item}
    (h : name ∉ names items) : items.map (replace name new) = items := by
  induction items with
  | nil => rfl
  | cons item items ih =>
      cases item with
      | directive d => exact congrArg (directive d :: ·) (ih h)
      | field node =>
          obtain ⟨hname, hrest⟩ := not_or.mp (mt List.mem_cons.mpr h)
          rw [List.map_cons, replace, if_neg (Ne.symm hname), ih hrest]

theorem names_replace {name : String} {new : Node} (hnew : new.name = name) (items : List Item) :
    names (items.map (replace name new)) = names items := by
  unfold names
  rw [List.filterMap_map]
  apply List.filterMap_congr
  intro item _
  cases item with
  | directive d => rfl
  | field node =>
      rw [Function.comp_apply, replace, name?, name?]
      split
      · rename_i hname
        rw [hnew, hname]
      · rfl

theorem directives_replace (name : String) (new : Node) (items : List Item) :
    directives (items.map (replace name new)) = directives items := by
  unfold directives
  rw [List.filterMap_map]
  apply List.filterMap_congr
  intro item _
  cases item <;> rfl

theorem mem_ofFields {node : Node} {fields : Fields} :
    field node ∈ ofFields fields ↔ ∃ entry ∈ fields, entry.2 = node := by
  rw [ofFields, List.mem_map]
  refine exists_congr fun entry => and_congr_right fun _ => ?_
  exact ⟨fun h => by cases h; rfl, fun h => by rw [h]⟩

theorem mem_interleave {node : Node} {placed : Nat} {fields : Fields} {ds : List Directive} :
    field node ∈ interleave placed fields ds ↔ ∃ entry ∈ fields, entry.2 = node := by
  induction ds generalizing placed fields with
  | nil => exact mem_ofFields
  | cons d ds ih =>
      rw [interleave, List.mem_append, List.mem_cons, ih, mem_ofFields]
      constructor
      · rintro (⟨entry, hmem, rfl⟩ | h | ⟨entry, hmem, rfl⟩)
        · exact ⟨entry, List.mem_of_mem_take hmem, rfl⟩
        · cases h
        · exact ⟨entry, List.mem_of_mem_drop hmem, rfl⟩
      · rintro ⟨entry, hmem, rfl⟩
        rw [← List.take_append_drop (d.offset - placed) fields, List.mem_append] at hmem
        rcases hmem with hmem | hmem
        · exact .inl ⟨entry, hmem, rfl⟩
        · exact .inr (.inr ⟨entry, hmem, rfl⟩)

/-- A field that is added at the end comes last if no directive waits for it. -/
theorem interleave_concat_field {placed : Nat} {fields : Fields} {ds : List Directive}
    (h : ∀ d ∈ ds, d.offset ≤ placed + fields.length) (entry : String × Node) :
    interleave placed (fields ++ [entry]) ds = interleave placed fields ds ++ [field entry.2] := by
  induction ds generalizing placed fields with
  | nil => exact List.map_append
  | cons d ds ih =>
      have hdue : d.offset - placed ≤ fields.length := by
        have := h d List.mem_cons_self
        omega
      have hrest : ∀ other ∈ ds, other.offset ≤
          placed + (d.offset - placed) + (fields.drop (d.offset - placed)).length := by
        intro other hmem
        have := h other (List.mem_cons_of_mem _ hmem)
        rw [List.length_drop]
        omega
      rw [interleave, interleave, List.take_append_of_le_length hdue,
        List.drop_append_of_le_length hdue, ih hrest, List.append_assoc, List.cons_append]

/-- A directive that is added behind all fields comes last. -/
theorem interleave_concat_directive {placed : Nat} {fields : Fields} {ds : List Directive}
    (h : ∀ d ∈ ds, d.offset ≤ placed + fields.length) {d : Directive}
    (hd : d.offset = placed + fields.length) :
    interleave placed fields (ds ++ [d]) = interleave placed fields ds ++ [directive d] := by
  induction ds generalizing placed fields with
  | nil =>
      have hdue : d.offset - placed = fields.length := by omega
      rw [List.nil_append, interleave, interleave, hdue, List.take_length, List.drop_length]
      rfl
  | cons other ds ih =>
      have hdue : other.offset - placed ≤ fields.length := by
        have := h other List.mem_cons_self
        omega
      have hlength : placed + (other.offset - placed) +
          (fields.drop (other.offset - placed)).length = placed + fields.length := by
        rw [List.length_drop]
        omega
      rw [List.cons_append, interleave, interleave, ih, List.append_assoc, List.cons_append]
      · intro next hmem
        rw [hlength]
        exact h next (List.mem_cons_of_mem _ hmem)
      · rw [hlength]
        exact hd

theorem ofFields_map (name : String) (new : Node) {fields : Fields}
    (hnamed : ∀ field ∈ fields, field.2.name = field.1) :
    ofFields (fields.map fun entry => (entry.1, if entry.1 = name then new else entry.2)) =
      (ofFields fields).map (replace name new) := by
  unfold ofFields
  rw [List.map_map, List.map_map]
  apply List.map_congr_left
  intro entry hmem
  rw [Function.comp_apply, Function.comp_apply, replace, hnamed entry hmem]

theorem interleave_map {name : String} {new : Node} {placed : Nat} {fields : Fields}
    (hnamed : ∀ field ∈ fields, field.2.name = field.1) (ds : List Directive) :
    interleave placed (fields.map fun entry => (entry.1, if entry.1 = name then new else entry.2))
        ds =
      (interleave placed fields ds).map (replace name new) := by
  induction ds generalizing placed fields with
  | nil => exact ofFields_map name new hnamed
  | cons d ds ih =>
      have htaken : ∀ field ∈ fields.take (d.offset - placed), field.2.name = field.1 :=
        fun field hmem => hnamed field (List.mem_of_mem_take hmem)
      have hdropped : ∀ field ∈ fields.drop (d.offset - placed), field.2.name = field.1 :=
        fun field hmem => hnamed field (List.mem_of_mem_drop hmem)
      rw [interleave, interleave, ← List.map_take, ← List.map_drop, ofFields_map name new htaken,
        ih hdropped, List.map_append, List.map_cons]
      rfl

end Item

namespace Object

variable {o : Object}

/-- An object as it comes out of declaring items: fields under their names, and directives that
wait for no more fields than there are. -/
structure Orderly (o : Object) : Prop where
  proper : Fields.Proper o.fields
  placed : ∀ d ∈ o.directives, d.offset ≤ o.fields.length

theorem fields_insert (o : Object) (node : Node) :
    (o.insert node).fields =
      Keyed.put node.name (Method.append.combine (o.get? node.name) node) o.fields :=
  Fields.insert_eq o.fields node

theorem name_combine_append (h : Fields.Proper o.fields) (node : Node) :
    (Method.append.combine (o.get? node.name) node).name = node.name := by
  unfold Method.combine
  dsimp only
  split
  · rfl
  · rename_i name items hheld
    exact h.named _ (Keyed.mem_of_get? hheld)
  · rfl

theorem Orderly.declare (h : o.Orderly) (item : Item) : (o.declare item).Orderly := by
  cases item with
  | field node =>
      have hkeys : (o.declare (.field node)).fields =
          Keyed.put node.name (Method.append.combine (o.get? node.name) node) o.fields :=
        o.fields_insert node
      have hlength : o.fields.length ≤ (o.declare (.field node)).fields.length := by
        have hput := congrArg List.length (Keyed.keys_put node.name
          (Method.append.combine (o.get? node.name) node) o.fields)
        rw [← hkeys, Keyed.keys, List.length_map] at hput
        rw [hput]
        split <;> simp [Keyed.keys]
      refine ⟨⟨?_, fun field hmem => ?_⟩, fun d hd => (h.placed d hd).trans hlength⟩
      · rw [hkeys]
        exact Keyed.nodup_keys_put h.proper.distinct
      · rw [hkeys] at hmem
        rcases Keyed.mem_put hmem with rfl | hmem
        · exact name_combine_append h.proper node
        · exact h.proper.named field hmem
  | directive d =>
      refine ⟨h.proper, ?_⟩
      intro other hmem
      rcases List.mem_append.mp hmem with hmem | hmem
      · exact h.placed other hmem
      · rw [List.mem_singleton.mp hmem]
        exact le_rfl

theorem items_declare_directive (h : o.Orderly) (d : Directive) :
    (o.declare (.directive d)).items =
      o.items ++ [.directive { d with offset := o.fields.length }] := by
  have hplaced : ∀ other ∈ o.directives, other.offset ≤ 0 + o.fields.length := by
    simpa using h.placed
  exact Item.interleave_concat_directive hplaced (Nat.zero_add _).symm

theorem items_declare_new (h : o.Orderly) {node : Node} (hnew : node.name ∉ Keyed.keys o.fields) :
    (o.declare (.field node)).items = o.items ++ [.field node] := by
  have hfields : (o.declare (.field node)).fields = o.fields ++ [(node.name, node)] := by
    have hheld : o.get? node.name = none := Keyed.get?_eq_none.mpr hnew
    rw [declare, fields_insert, hheld, Method.combine_none, Keyed.put_of_not_mem hnew]
  have hplaced : ∀ other ∈ o.directives, other.offset ≤ 0 + o.fields.length := by
    simpa using h.placed
  rw [items, hfields]
  exact Item.interleave_concat_field hplaced _

theorem items_declare_again (h : o.Orderly) {node : Node} (hmem : node.name ∈ Keyed.keys o.fields) :
    (o.declare (.field node)).items =
      o.items.map (Item.replace node.name (Method.append.combine (o.get? node.name) node)) := by
  rw [items, declare, fields_insert, Keyed.put_eq_map h.proper.distinct hmem]
  exact Item.interleave_map h.proper.named _

end Object

/-! ## One name -/

/-- What is declared under a name by some nodes: the node if there is one, or else their list. -/
def Node.gather (name : String) : List Node → Node
  | [node] => node
  | nodes => .list name nodes

theorem Node.name_gather {name : String} {nodes : List Node}
    (h : ∀ node ∈ nodes, node.name = name) : (gather name nodes).name = name := by
  match nodes with
  | [] => rfl
  | [node] => exact h node List.mem_cons_self
  | _ :: _ :: _ => rfl

/-- Without lists among the nodes there is nothing to flatten. -/
theorem Node.gather_eq_collect {name : String} {nodes : List Node}
    (h : ∀ node ∈ nodes, node.isList = false) : gather name nodes = collect name nodes := by
  have hflatten : nodes.flatMap flatten = nodes := by
    have hsingle : nodes.flatMap flatten = nodes.flatMap fun node => [node] := by
      refine List.flatMap_congr fun node hmem => ?_
      cases node with
      | option b => rfl
      | object o => rfl
      | list name items => cases h _ hmem
    rw [hsingle, List.flatMap_singleton']
  match nodes with
  | [] => rfl
  | [node] => rfl
  | _ :: _ :: _ => exact congrArg (list name) hflatten.symm

theorem Node.gather_concat {name : String} {nodes : List Node} {node : Node} (hne : nodes ≠ [])
    (hnamed : ∀ other ∈ nodes, other.name = name) (hname : node.name = name)
    (hnodes : ∀ other ∈ nodes, other.isList = false) (hnode : node.isList = false) :
    Method.append.combine (some (gather name nodes)) node = gather name (nodes ++ [node]) := by
  have hall : ∀ other ∈ nodes ++ [node], other.isList = false :=
    List.forall_mem_append.mpr ⟨hnodes, List.forall_mem_singleton.mpr hnode⟩
  rw [gather_eq_collect hnodes, gather_eq_collect hall, combine_collect hne hnamed hname]

/-- The field of a name, and the number of directives above it. -/
def Object.Holds (o : Object) (name : String) (node : Node) (count : Nat) : Prop :=
  ∃ above below, o.items = above ++ .field node :: below ∧ name ∉ Item.names above ∧
    name ∉ Item.names below ∧ (Item.directives above).length = count

namespace Object.Holds

variable {o : Object} {name : String} {held : Node} {count : Nat}

theorem get? (h : o.Holds name held count) (ho : o.Orderly) (hname : held.name = name) :
    o.get? name = some held := by
  obtain ⟨above, below, hitems, -⟩ := h
  have hmem : Item.field held ∈ o.items := by
    rw [hitems]
    exact List.mem_append_right _ List.mem_cons_self
  obtain ⟨entry, hentry, rfl⟩ := Item.mem_interleave.mp hmem
  refine Keyed.get?_of_mem ho.proper.distinct ?_
  rw [← hname, ho.proper.named entry hentry]
  exact hentry

theorem concat (h : o.Holds name held count) {o' : Object} {item : Item}
    (hitems : o'.items = o.items ++ [item]) (hitem : name ∉ Item.names [item]) :
    o'.Holds name held count := by
  obtain ⟨above, below, hsplit, habove, hbelow, hcount⟩ := h
  refine ⟨above, below ++ [item], ?_, habove, ?_, hcount⟩
  · rw [hitems, hsplit, List.append_assoc, List.cons_append]
  · rw [Item.names_append, List.mem_append, not_or]
    exact ⟨hbelow, hitem⟩

/-- Another declaration of the name joins those that there are. -/
theorem declare_again (h : o.Holds name held count) (ho : o.Orderly) (hname : held.name = name)
    {node : Node} (hnode : node.name = name) :
    (o.declare (.field node)).Holds name (Method.append.combine (some held) node) count := by
  have hget := h.get? ho hname
  have hmem : node.name ∈ Keyed.keys o.fields := by
    by_contra hnew
    rw [hnode] at hnew
    rw [Object.get?, Keyed.get?_eq_none.mpr hnew] at hget
    cases hget
  have hitems := items_declare_again ho hmem
  obtain ⟨above, below, hsplit, habove, hbelow, hcount⟩ := h
  rw [hsplit, List.map_append, List.map_cons, Item.replace, hnode,
    Item.replace_of_not_mem habove, Item.replace_of_not_mem hbelow, hget, if_pos hname] at hitems
  exact ⟨above, below, hitems, habove, hbelow, hcount⟩

/-- An item that does not declare the name leaves its field where it is. -/
theorem declare_other (h : o.Holds name held count) (ho : o.Orderly) (hname : held.name = name)
    {item : Item} (hitem : name ∉ Item.names [item]) :
    (o.declare item).Holds name held count := by
  cases item with
  | directive d => exact h.concat (items_declare_directive ho d) hitem
  | field node =>
      by_cases hmem : node.name ∈ Keyed.keys o.fields
      · have hne : held.name ≠ node.name := by
          intro heq
          exact hitem (Item.mem_names.mpr ⟨node, List.mem_cons_self, heq.symm.trans hname⟩)
        have hitems := items_declare_again ho hmem
        have hnew := name_combine_append ho.proper node
        obtain ⟨above, below, hsplit, habove, hbelow, hcount⟩ := h
        rw [hsplit, List.map_append, List.map_cons, Item.replace, if_neg hne] at hitems
        refine ⟨_, _, hitems, ?_, ?_, ?_⟩
        · rwa [Item.names_replace hnew]
        · rwa [Item.names_replace hnew]
        · rwa [Item.directives_replace]
      · exact h.concat (items_declare_new ho hmem) hitem

/-- Of a name all declarations are gathered at the first. -/
theorem declareAll {nodes : List Node} (h : o.Holds name (Node.gather name nodes) count)
    (ho : o.Orderly) (hne : nodes ≠ []) (hnamed : ∀ node ∈ nodes, node.name = name)
    (hsingle : ∀ node ∈ nodes, node.isList = false) {items : List Item}
    (hitems : ∀ node, .field node ∈ items → node.isList = false) :
    (o.declareAll items).Holds name (Node.gather name (nodes ++ Item.declared name items))
      count := by
  induction items generalizing o nodes with
  | nil =>
      rw [Item.declared, List.filterMap_nil, List.append_nil]
      exact h
  | cons item items ih =>
      have hrest : ∀ node, .field node ∈ items → node.isList = false :=
        fun node hmem => hitems node (List.mem_cons_of_mem _ hmem)
      have hgather := Node.name_gather hnamed
      by_cases hitem : name ∈ Item.names [item]
      · -- one more node is gathered
        obtain ⟨node, hmem, hname⟩ := Item.mem_names.mp hitem
        obtain rfl := List.mem_singleton.mp hmem
        have hnode := hitems node List.mem_cons_self
        have hstep := h.declare_again ho hgather hname
        rw [Node.gather_concat hne hnamed hname hsingle hnode] at hstep
        rw [Item.declared_cons hname, List.append_cons]
        apply ih hstep (ho.declare _) (List.append_ne_nil_of_left_ne_nil hne _)
        · exact List.forall_mem_append.mpr ⟨hnamed, List.forall_mem_singleton.mpr hname⟩
        · exact List.forall_mem_append.mpr ⟨hsingle, List.forall_mem_singleton.mpr hnode⟩
        · exact hrest
      · have hcons : Item.declared name (item :: items) = Item.declared name items := by
          rw [← List.singleton_append, Item.declared_append, Item.declared_of_not_mem hitem,
            List.nil_append]
        rw [hcons]
        exact ih (h.declare_other ho hgather hitem) (ho.declare _) hne hnamed hsingle hrest

/-- What the directives below a field bring comes on top of it, and what those above it bring is
lost, unless the field is an object. -/
theorem get?_combineEach (h : o.Holds name held count) (hname : held.name = name)
    (hheld : ∀ inner, held ≠ .object inner) (bare : Object) (es : List Effect) :
    (bare.combineEach (Item.arrivals o.items es)).get? name =
      Arrival.settle (some held) (Effect.underName name (es.drop count)) := by
  subst hname
  obtain ⟨above, below, hitems, habove, hbelow, rfl⟩ := h
  rw [Object.get?_combineEach, hitems, Item.under_arrivals_field held habove hbelow,
    Arrival.settle_append, Arrival.settle_merge_cons hheld]

end Object.Holds

namespace Object

variable {o : Object}

theorem Orderly.declareAll (h : o.Orderly) (items : List Item) : (o.declareAll items).Orderly := by
  induction items generalizing o with
  | nil => exact h
  | cons item items ih => exact ih (h.declare item)

theorem length_directives_declareAll (o : Object) (items : List Item) :
    (o.declareAll items).directives.length =
      o.directives.length + (Item.directives items).length := by
  induction items generalizing o with
  | nil => rfl
  | cons item items ih =>
      have hstep := ih (o.declare item)
      cases item with
      | field node => exact hstep
      | directive d =>
          have hone : (o.declare (.directive d)).directives.length = o.directives.length + 1 :=
            List.length_append
          have hcons : (Item.directives (.directive d :: items)).length =
              (Item.directives items).length + 1 := rfl
          rw [hone] at hstep
          rw [hcons, declareAll, List.foldl_cons, ← declareAll, hstep]
          omega

theorem not_mem_keys_declareAll {name : String} {items : List Item}
    (hkeys : name ∉ Keyed.keys o.fields) (h : name ∉ Item.names items) :
    name ∉ Keyed.keys (o.declareAll items).fields := by
  induction items generalizing o with
  | nil => exact hkeys
  | cons item items ih =>
      cases item with
      | directive d => exact ih (o := o.declare (.directive d)) hkeys h
      | field node =>
          obtain ⟨hname, hrest⟩ := not_or.mp (mt List.mem_cons.mpr h)
          refine ih (o := o.declare (.field node)) ?_ hrest
          rw [declare, fields_insert, Keyed.keys_put]
          split
          · exact hkeys
          · rw [List.mem_append, not_or, List.mem_singleton]
            exact ⟨hkeys, hname⟩

/-- **A name is found at its first declaration**, with all that is declared under it and below as
many directives as stand above that declaration. -/
theorem items_declareAll (hfields : o.fields = []) (hdirectives : o.directives = [])
    {above below : List Item} {node : Node} (hfirst : node.name ∉ Item.names above)
    (hitems : ∀ other, .field other ∈ above ++ .field node :: below → other.isList = false) :
    (o.declareAll (above ++ .field node :: below)).Holds node.name
      (Node.gather node.name (node :: Item.declared node.name below))
        (Item.directives above).length := by
  have hstart : o.Orderly := ⟨hfields ▸ .nil, by rw [hdirectives]; exact List.forall_mem_nil _⟩
  have habove := hstart.declareAll above
  have hnew : node.name ∉ Keyed.keys (o.declareAll above).fields :=
    not_mem_keys_declareAll (by rw [hfields]; exact List.not_mem_nil) hfirst
  have hcount : (Item.directives (o.declareAll above).items).length =
      (Item.directives above).length := by
    rw [directives_items, length_directives_declareAll, hdirectives, List.length_nil, Nat.zero_add]
  have hholds : ((o.declareAll above).declare (.field node)).Holds node.name
      (Node.gather node.name [node]) (Item.directives above).length := by
    refine ⟨_, [], items_declare_new habove hnew, ?_, List.not_mem_nil, hcount⟩
    rw [names_items habove.proper]
    exact hnew
  have hnode := hitems node (List.mem_append_right _ List.mem_cons_self)
  have hall := hholds.declareAll (habove.declare _) (List.cons_ne_nil _ _)
    (List.forall_mem_singleton.mpr rfl) (List.forall_mem_singleton.mpr hnode)
    fun other hmem => hitems other (List.mem_append_right _ (List.mem_cons_of_mem _ hmem))
  unfold Object.declareAll at hall ⊢
  rw [List.foldl_append, List.foldl_cons]
  exact hall

end Object

end ConfigLang
