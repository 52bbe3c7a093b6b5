import Mathlib
import ConfigLang.Expand.Basic
import ConfigLang.Proofs.Running
import ConfigLang.Proofs.Tree.Overlay

/-!
# Reading an object in the order of its text

`Object.items` lists the fields and directives of an object in order, and
`Expander.read` goes through such a list: a field is merged and a directive is run
where it stands.  The expander replays the fields of an object in step with its
directives, which comes to the same (`expandObject_succ`).

What a directive brings depends on the fragments that it sees and never on the
fields above it.  So the directives might as well run first, and what a reading
leaves is decided by what arrives in which order (`read_eq`).

## Strategy

* **Items in order.**  `Item.interleave` puts the fields and the directives of an object
  together by the offsets of the latter.  `runAll_eq_read` compares the expander with the
  reading of that list; `placed` counts the fields that have been merged on the way.
* **What arrives.**  `Item.arrivals` are the fields of the items and the effects of their
  directives, as they come to the object.  They are told apart by names: a name that no
  field has is decided by the directives (`under_arrivals`), and one that a field has by
  the field and what is brought below it (`under_arrivals_field`).
* **Directives first.**  `Expander.effects` runs directives one after the other, where each
  sees the fragments of those above it (`visible`).  `read_eq` is by induction on the
  items, since merging a field makes no request and fails at nothing.
* **Objects.**  `step_eq` and `expandObject_eq` say the same of objects, whose fields are
  expanded by descending into them in the end.
-/

namespace ConfigLang

/-- An item of the body of an object. -/
inductive Item where
  | field (node : Node)
  | directive (d : Directive)

namespace Item

/-- The directive that an item is. -/
def directive? : Item → Option Directive
  | field _ => none
  | directive d => some d

/-- The name of the field that an item is. -/
def name? : Item → Option String
  | field node => some node.name
  | directive _ => none

/-- The directives among some items. -/
def directives (items : List Item) : List Directive :=
  items.filterMap directive?

/-- The names of the fields among some items. -/
def names (items : List Item) : List String :=
  items.filterMap name?

/-- Fields as items. -/
def ofFields (fields : Fields) : List Item :=
  fields.map fun entry => field entry.2

/-- Fields and directives in order. `placed` fields stood above. -/
def interleave (placed : Nat) (fields : Fields) : List Directive → List Item
  | [] => ofFields fields
  | d :: ds =>
    let due := d.offset - placed
    ofFields (fields.take due) ++ directive d :: interleave (placed + due) (fields.drop due) ds

end Item

/-- The fields and directives of an object in order. -/
def Object.items (o : Object) : List Item :=
  Item.interleave 0 o.fields o.directives

namespace Effect

/-- What a directive brings, as arrivals in its object. -/
def arrivals (e : Effect) : List Arrival :=
  e.fields.map fun field => ⟨e.method, field.2⟩

/-- A directive brings a field of some name. -/
def Brings (e : Effect) (name : String) : Prop :=
  ∃ field ∈ e.fields, field.2.name = name

/-- What some directives bring under a name. -/
def underName (name : String) (effects : List Effect) : List Arrival :=
  Arrival.under name (effects.flatMap arrivals)

/-- The fragments that are visible behind some directives. -/
def visible (scope : Scope) (effects : List Effect) : Scope :=
  effects.foldl (fun scope e => e.fragments ++ scope) scope

theorem underName_append (name : String) (effects others : List Effect) :
    underName name (effects ++ others) = underName name effects ++ underName name others := by
  unfold underName Arrival.under
  rw [List.flatMap_append, List.filter_append]

theorem underName_cons (name : String) (e : Effect) (effects : List Effect) :
    underName name (e :: effects) = Arrival.under name e.arrivals ++ underName name effects :=
  List.filter_append _ _

theorem mem_underName {name : String} {effects : List Effect} {a : Arrival} :
    a ∈ underName name effects ↔
      a.node.name = name ∧ ∃ e ∈ effects, e.method = a.method ∧ ∃ field ∈ e.fields,
        field.2 = a.node := by
  unfold underName Arrival.under arrivals
  constructor
  · intro h
    obtain ⟨hmem, hname⟩ := List.mem_filter.mp h
    obtain ⟨e, he, hmem⟩ := List.mem_flatMap.mp hmem
    obtain ⟨field, hfield, rfl⟩ := List.mem_map.mp hmem
    exact ⟨by simpa using hname, e, he, rfl, field, hfield, rfl⟩
  · rintro ⟨hname, e, he, hmethod, field, hfield, hnode⟩
    refine List.mem_filter.mpr ⟨List.mem_flatMap.mpr ⟨e, he, ?_⟩, by simpa using hname⟩
    refine List.mem_map.mpr ⟨field, hfield, ?_⟩
    rw [hmethod, hnode]

theorem underName_eq_nil {name : String} {effects : List Effect}
    (h : ∀ e ∈ effects, ¬ e.Brings name) : underName name effects = [] := by
  apply List.eq_nil_iff_forall_not_mem.mpr
  intro a ha
  obtain ⟨hname, e, he, -, field, hfield, hnode⟩ := mem_underName.mp ha
  exact h e he ⟨field, hfield, hnode ▸ hname⟩

theorem on_eq (e : Effect) (stage : Stage) :
    e.on stage = ⟨stage.object.combineEach e.arrivals, e.fragments ++ stage.scope⟩ := by
  unfold on
  rw [Object.combineAll_eq]
  rfl

end Effect

/-! ## What arrives -/

namespace Item

/-- What arrives in an object as its items are read and its directives bring some effects. -/
def arrivals : List Item → List Effect → List Arrival
  | [], effects => effects.flatMap Effect.arrivals
  | field node :: items, effects => ⟨.merge, node⟩ :: arrivals items effects
  | directive _ :: items, [] => arrivals items []
  | directive _ :: items, e :: effects => e.arrivals ++ arrivals items effects

variable {items others : List Item} {effects : List Effect} {name : String}

theorem directives_append (items others : List Item) :
    directives (items ++ others) = directives items ++ directives others :=
  List.filterMap_append

theorem mem_names {items : List Item} {name : String} :
    name ∈ names items ↔ ∃ node, field node ∈ items ∧ node.name = name := by
  unfold names
  rw [List.mem_filterMap]
  constructor
  · rintro ⟨item, hmem, hname⟩
    cases item with
    | field node => exact ⟨node, hmem, Option.some.inj hname⟩
    | directive d => cases hname
  · rintro ⟨node, hmem, rfl⟩
    exact ⟨_, hmem, rfl⟩

theorem names_append (items others : List Item) :
    names (items ++ others) = names items ++ names others :=
  List.filterMap_append

theorem names_ofFields (fields : Fields) :
    names (ofFields fields) = fields.map fun entry => entry.2.name := by
  unfold names ofFields
  rw [List.filterMap_map]
  exact congrFun List.filterMap_eq_map fields

theorem directives_ofFields (fields : Fields) : directives (ofFields fields) = [] := by
  unfold directives ofFields
  rw [List.filterMap_map]
  exact List.filterMap_eq_nil_iff.mpr fun _ _ => rfl

theorem directives_interleave (placed : Nat) (fields : Fields) (ds : List Directive) :
    directives (interleave placed fields ds) = ds := by
  induction ds generalizing placed fields with
  | nil => exact directives_ofFields fields
  | cons d ds ih =>
      rw [interleave, directives_append, directives_ofFields, List.nil_append]
      exact congrArg (d :: ·) (ih _ _)

theorem names_interleave (placed : Nat) (fields : Fields) (ds : List Directive) :
    names (interleave placed fields ds) = fields.map fun entry => entry.2.name := by
  induction ds generalizing placed fields with
  | nil => exact names_ofFields fields
  | cons d ds ih =>
      have hrest : names (directive d :: interleave (placed + (d.offset - placed))
          (fields.drop (d.offset - placed)) ds) =
            (fields.drop (d.offset - placed)).map fun entry => entry.2.name := ih _ _
      rw [interleave, names_append, names_ofFields, hrest, ← List.map_append,
        List.take_append_drop]

theorem arrivals_ofFields_append (fields : Fields) (items : List Item) (effects : List Effect) :
    arrivals (ofFields fields ++ items) effects =
      fields.map (fun entry => ⟨.merge, entry.2⟩) ++ arrivals items effects := by
  induction fields with
  | nil => rfl
  | cons entry fields ih => exact congrArg (_ :: ·) ih

theorem arrivals_interleave_nil (placed : Nat) (fields : Fields) (ds : List Directive) :
    arrivals (interleave placed fields ds) [] = fields.map fun entry => ⟨.merge, entry.2⟩ := by
  induction ds generalizing placed fields with
  | nil =>
      have h := arrivals_ofFields_append fields [] []
      rw [List.append_nil] at h
      rw [interleave, h]
      exact List.append_nil _
  | cons d ds ih =>
      rw [interleave, arrivals_ofFields_append, arrivals, ih, ← List.map_append,
        List.take_append_drop]

theorem arrivals_interleave_last (placed : Nat) (fields : Fields) (effects : List Effect) :
    arrivals (interleave placed fields []) effects =
      fields.map (fun entry => ⟨.merge, entry.2⟩) ++ effects.flatMap Effect.arrivals := by
  have happend := arrivals_ofFields_append fields [] effects
  rwa [List.append_nil] at happend

theorem arrivals_interleave_cons (placed : Nat) (fields : Fields) (d : Directive)
    (ds : List Directive) (e : Effect) (es : List Effect) :
    arrivals (interleave placed fields (d :: ds)) (e :: es) =
      (fields.take (d.offset - placed)).map (fun entry => ⟨.merge, entry.2⟩) ++
        (e.arrivals ++ arrivals (interleave (placed + (d.offset - placed))
          (fields.drop (d.offset - placed)) ds) es) := by
  rw [interleave, arrivals_ofFields_append, arrivals]

/-- What arrives in two objects with the same directives is related if their fields are, and what
the directives bring is related to itself. -/
theorem forall₂_arrivals {R : Arrival → Arrival → Prop} {fields fields' : Fields}
    (h : List.Forall₂ (fun field field' => R ⟨.merge, field.2⟩ ⟨.merge, field'.2⟩) fields fields')
    {effects : List Effect} (heffects : ∀ e ∈ effects, ∀ a ∈ e.arrivals, R a a) (placed : Nat)
    (ds : List Directive) :
    List.Forall₂ R (arrivals (interleave placed fields ds) effects)
      (arrivals (interleave placed fields' ds) effects) := by
  have hmap {fields fields' : Fields}
      (h : List.Forall₂ (fun field field' => R ⟨.merge, field.2⟩ ⟨.merge, field'.2⟩)
        fields fields') :
      List.Forall₂ R (fields.map fun entry => ⟨.merge, entry.2⟩)
        (fields'.map fun entry => ⟨.merge, entry.2⟩) :=
    List.forall₂_map_left_iff.mpr (List.forall₂_map_right_iff.mpr h)
  induction ds generalizing placed fields fields' effects with
  | nil =>
      rw [arrivals_interleave_last, arrivals_interleave_last]
      refine List.rel_append (hmap h) (List.forall₂_same.mpr fun a hmem => ?_)
      obtain ⟨e, he, hmem⟩ := List.mem_flatMap.mp hmem
      exact heffects e he a hmem
  | cons d ds ih =>
      cases effects with
      | nil =>
          rw [arrivals_interleave_nil, arrivals_interleave_nil]
          exact hmap h
      | cons e effects =>
          obtain ⟨he, heffects⟩ := List.forall_mem_cons.mp heffects
          rw [arrivals_interleave_cons, arrivals_interleave_cons]
          refine List.rel_append (hmap (List.forall₂_take _ h)) ?_
          exact List.rel_append (List.forall₂_same.mpr he) (ih (List.forall₂_drop _ h) heffects _)

/-- Fields that are left out are missing from the arrivals, and nothing else is. -/
theorem arrivals_filter (p : Item → Bool) (q : Arrival → Bool)
    (hdirective : ∀ d, p (directive d) = true)
    (hfield : ∀ node, p (field node) = false → q ⟨.merge, node⟩ = false)
    (items : List Item) (effects : List Effect) :
    (arrivals (items.filter p) effects).filter q = (arrivals items effects).filter q := by
  induction items generalizing effects with
  | nil => rfl
  | cons item items ih =>
      cases item with
      | directive d =>
          rw [List.filter_cons_of_pos (hdirective d)]
          cases effects with
          | nil => exact ih []
          | cons e effects =>
              rw [arrivals, arrivals, List.filter_append, List.filter_append, ih]
      | field node =>
          rw [arrivals, List.filter_cons]
          split
          · rw [arrivals, List.filter_cons, List.filter_cons, ih]
          · rename_i hp
            have hq := hfield node (by simpa using hp)
            rw [List.filter_cons_of_neg (by simp [hq]), ih]

theorem under_arrivals_of_ne {node : Node} (h : name ≠ node.name) (items : List Item)
    (effects : List Effect) :
    Arrival.under name (arrivals (field node :: items) effects) =
      Arrival.under name (arrivals items effects) :=
  List.filter_cons_of_neg (by simpa using Ne.symm h)

/-- Where no field has a name, only the directives bring something under it. -/
theorem under_arrivals (h : name ∉ names items) :
    Arrival.under name (arrivals items effects) = Effect.underName name effects := by
  induction items generalizing effects with
  | nil => rfl
  | cons item items ih =>
      cases item with
      | directive d =>
          cases effects with
          | nil => exact ih h
          | cons e effects =>
              rw [Effect.underName_cons, ← ih h]
              exact List.filter_append _ _
      | field node =>
          obtain ⟨hname, hrest⟩ := not_or.mp (mt List.mem_cons.mpr h)
          rw [under_arrivals_of_ne hname, ih hrest]

/-- Of the effects, as many go to some items as there are directives among them. -/
theorem under_arrivals_append (h : name ∉ names items) :
    Arrival.under name (arrivals (items ++ others) effects) =
      Effect.underName name (effects.take (directives items).length) ++
        Arrival.under name (arrivals others (effects.drop (directives items).length)) := by
  induction items generalizing effects with
  | nil => rfl
  | cons item items ih =>
      cases item with
      | directive d =>
          have hlength : (directives (directive d :: items)).length =
              (directives items).length + 1 := rfl
          cases effects with
          | nil =>
              have hnext := @ih [] h
              rw [List.take_nil, List.drop_nil] at hnext ⊢
              exact hnext
          | cons e effects =>
              rw [hlength, List.take_succ_cons, List.drop_succ_cons, Effect.underName_cons,
                List.append_assoc, ← ih h]
              exact List.filter_append _ _
      | field node =>
          obtain ⟨hname, hrest⟩ := not_or.mp (mt List.mem_cons.mpr h)
          exact (under_arrivals_of_ne hname _ effects).trans (ih hrest)

/-- What arrives under the name of a field, if no other field has it. -/
theorem under_arrivals_field {above below : List Item} (node : Node)
    (habove : node.name ∉ names above) (hbelow : node.name ∉ names below)
    (effects : List Effect) :
    Arrival.under node.name (arrivals (above ++ field node :: below) effects) =
      Effect.underName node.name (effects.take (directives above).length) ++
        ⟨.merge, node⟩ :: Effect.underName node.name (effects.drop (directives above).length) := by
  have hfield : Arrival.under node.name
      (arrivals (field node :: below) (effects.drop (directives above).length)) =
        ⟨.merge, node⟩ :: Arrival.under node.name
          (arrivals below (effects.drop (directives above).length)) :=
    List.filter_cons_of_pos (by simp)
  rw [under_arrivals_append habove, hfield, under_arrivals hbelow]

end Item

theorem Object.directives_items (o : Object) : Item.directives o.items = o.directives :=
  Item.directives_interleave 0 o.fields o.directives

theorem Object.names_items {o : Object} (h : Fields.Proper o.fields) :
    Item.names o.items = Keyed.keys o.fields :=
  (Item.names_interleave 0 o.fields o.directives).trans h.names_eq

/-! ## Reading -/

namespace Expander

variable {m : Type → Type} [Monad m] (x : Expander m)
  (expandBlock : Scope → Object → Expansion m Object)

/-- Reads items in order: fields are merged, directives run where they stand. -/
def read (stage : Stage) : List Item → Expansion m Stage
  | [] => return stage
  | .field node :: items =>
    read { stage with object := stage.object.combine .merge node } items
  | .directive d :: items => do
    let stage ← x.run expandBlock d stage
    read stage items

/-- What some directives bring, each of which sees the fragments of those above it. -/
def effects (scope : Scope) : List Directive → Expansion m (List Effect)
  | [] => return []
  | d :: ds => do
    let e ← x.effect expandBlock d scope
    let es ← effects (e.fragments ++ scope) ds
    return e :: es

/-- Runs the directives of an object, and then expands the objects inside by `recur`. -/
def step (recur : Scope → Object → Expansion m Object) (scope : Scope) (o : Object) :
    Expansion m Object := do
  let bare := { o with fields := [], directives := [] }
  let stage ← x.runAll (Object.descend recur) 0 o.fields ⟨bare, scope⟩ o.directives
  stage.object.descend recur stage.scope

variable {x expandBlock}

theorem read_ofFields_append (fields : Fields) (items : List Item) (stage : Stage) :
    x.read expandBlock stage (Item.ofFields fields ++ items) =
      x.read expandBlock { stage with object := stage.object.combineAll .merge fields } items := by
  induction fields generalizing stage with
  | nil => rfl
  | cons entry fields ih => exact ih _

theorem runAll_eq_read (placed : Nat) (literal : Fields) (stage : Stage) (ds : List Directive) :
    x.runAll expandBlock placed literal stage ds =
      x.read expandBlock stage (Item.interleave placed literal ds) := by
  induction ds generalizing placed literal stage with
  | nil =>
      have h : x.read expandBlock stage (Item.ofFields literal ++ []) = _ :=
        read_ofFields_append literal [] stage
      rw [List.append_nil] at h
      rw [runAll, Item.interleave, h]
      rfl
  | cons d ds ih =>
      rw [runAll, Item.interleave, read_ofFields_append, read]
      exact congrArg (_ >>= ·) (funext fun stage => ih _ _ stage)

/-- **An object is expanded by reading its items**, and then expanding the objects inside. -/
theorem expandObject_succ (weight : Nat) (scope : Scope) (o : Object) :
    x.expandObject (weight + 1) scope o = (do
      let stage ← x.read (Object.descend (x.expandObject weight))
        ⟨{ o with fields := [], directives := [] }, scope⟩ o.items
      stage.object.descend (x.expandObject weight) stage.scope) := by
  rw [expandObject, runAll_eq_read]
  rfl

/-- **The directives of a reading might as well run first**: what they bring does not depend on
the fields. -/
theorem read_eq [LawfulMonad m] (stage : Stage) (items : List Item) :
    x.read expandBlock stage items = (do
      let es ← x.effects expandBlock stage.scope (Item.directives items)
      return ⟨stage.object.combineEach (Item.arrivals items es),
        Effect.visible stage.scope es⟩) := by
  induction items generalizing stage with
  | nil =>
      rw [read, Item.directives, List.filterMap_nil, effects, pure_bind]
      rfl
  | cons item items ih =>
      cases item with
      | field node =>
          rw [read, ih]
          rfl
      | directive d =>
          have hcons : Item.directives (.directive d :: items) = d :: Item.directives items := rfl
          rw [read, hcons, effects, run]
          simp only [bind_assoc, pure_bind]
          refine congrArg (_ >>= ·) (funext fun e => ?_)
          rw [ih, Effect.on_eq]
          refine congrArg (_ >>= ·) (funext fun es => ?_)
          rw [← Object.combineEach_append]
          rfl

/-- The fields of an object are decided by its items and by what its directives bring. -/
theorem step_eq [LawfulMonad m] (recur : Scope → Object → Expansion m Object) (scope : Scope)
    (o : Object) :
    x.step recur scope o = (do
      let es ← x.effects (Object.descend recur) scope o.directives
      (({ o with fields := [], directives := [] } : Object).combineEach
        (Item.arrivals o.items es)).descend recur (Effect.visible scope es)) := by
  rw [step, runAll_eq_read]
  change x.read _ _ o.items >>= _ = _
  rw [read_eq, o.directives_items]
  simp only [bind_assoc, pure_bind]

theorem expandObject_eq [LawfulMonad m] (weight : Nat) (scope : Scope) (o : Object) :
    x.expandObject (weight + 1) scope o = (do
      let es ← x.effects (Object.descend (x.expandObject weight)) scope o.directives
      (({ o with fields := [], directives := [] } : Object).combineEach
        (Item.arrivals o.items es)).descend (x.expandObject weight) (Effect.visible scope es)) :=
  step_eq _ scope o

/-- Where a directive stands is of no matter for what it brings. -/
theorem effects_map_offset (f : Directive → Nat) (scope : Scope) (ds : List Directive) :
    x.effects expandBlock scope (ds.map fun d => { d with offset := f d }) =
      x.effects expandBlock scope ds := by
  induction ds generalizing scope with
  | nil => rfl
  | cons d ds ih =>
      rw [List.map_cons, effects, effects]
      have heffect : x.effect expandBlock { d with offset := f d } scope =
          x.effect expandBlock d scope := by
        cases d
        rfl
      rw [heffect]
      refine congrArg (_ >>= ·) (funext fun e => ?_)
      rw [ih]

end Expander

end ConfigLang
