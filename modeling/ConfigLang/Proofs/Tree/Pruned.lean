import Mathlib
import ConfigLang.Proofs.Expand.Overlay

/-!
# Trees without some directives

A tree is pruned if directives are left out of its objects, also of those inside and of
the blocks among the arguments of directives (`Object.Pruned`).  The others keep their
offsets.

However trees are combined, they are pruned after it if they were before
(`Object.Pruned.combineEach`).  A directive gets another offset when its object is laid over
another, so whether it may be left out must not depend on that (`AnyOffset`).

## Strategy

There is one relation for each kind of thing in a tree, from objects to the arguments of
directives.

* **Instances.**  Nothing need be left out (`Object.Pruned.refl`), and whatever passes a test
  may be (`Object.pruned_prune`); both are inductions over the tree, with a theorem for each
  relation.
* **What stays.**  Pruned fields have the same names in the same order, and the nodes under a
  name are pruned (`FieldsPruned.keys_eq`, `FieldsPruned.get?`).  So new fields are counted
  alike, by which the directives of an object that is laid over another are moved
  (`newBefore_eq`, `Object.Pruned.moved`).
* **Combining.**  Laying an object over another merges their fields, and merging a field lays
  the objects under its name over one another.  `Object.Pruned.overlay`,
  `FieldsPruned.mergeFields` and `Node.Pruned.mergeNode` follow this recursion, where
  `Node.Pruned.merge` is their common step.
-/

namespace ConfigLang

mutual

/-- Directives that `skip` holds of are left out of an object. -/
inductive Object.Pruned (skip : Directive → Prop) : Object → Object → Prop
  | intro {o : Object} {fields : Fields} {directives : List Directive}
      (inner : FieldsPruned skip o.fields fields)
      (own : DirectivesPruned skip o.directives directives) :
      Object.Pruned skip o { o with fields, directives }

/-- Directives are left out of the objects in some fields. -/
inductive FieldsPruned (skip : Directive → Prop) : Fields → Fields → Prop
  | nil : FieldsPruned skip [] []
  | cons (key : String) {node node' : Node} {fields fields' : Fields}
      (head : Node.Pruned skip node node') (tail : FieldsPruned skip fields fields') :
      FieldsPruned skip ((key, node) :: fields) ((key, node') :: fields')

/-- Directives are left out of the objects in a node. -/
inductive Node.Pruned (skip : Directive → Prop) : Node → Node → Prop
  | option (binding : Binding) : Node.Pruned skip (.option binding) (.option binding)
  | object {o o' : Object} (h : Object.Pruned skip o o') :
      Node.Pruned skip (.object o) (.object o')
  | list (name : String) {items items' : List Node} (h : ItemsPruned skip items items') :
      Node.Pruned skip (.list name items) (.list name items')

/-- Directives are left out of the objects in the items of a list. -/
inductive ItemsPruned (skip : Directive → Prop) : List Node → List Node → Prop
  | nil : ItemsPruned skip [] []
  | cons {item item' : Node} {items items' : List Node} (head : Node.Pruned skip item item')
      (tail : ItemsPruned skip items items') : ItemsPruned skip (item :: items) (item' :: items')

/-- Some directives are left out, and others are left out of the arguments of the rest. -/
inductive DirectivesPruned (skip : Directive → Prop) : List Directive → List Directive → Prop
  | nil : DirectivesPruned skip [] []
  | keep {d : Directive} {args : List (Argument Payload)} {ds ds' : List Directive}
      (inner : ArgsPruned skip d.args args) (h : DirectivesPruned skip ds ds') :
      DirectivesPruned skip (d :: ds) ({ d with args } :: ds')
  | drop {d : Directive} {ds ds' : List Directive} (hskip : skip d)
      (h : DirectivesPruned skip ds ds') : DirectivesPruned skip (d :: ds) ds'

/-- Directives are left out of the arguments of a directive. -/
inductive ArgsPruned (skip : Directive → Prop) :
    List (Argument Payload) → List (Argument Payload) → Prop
  | nil : ArgsPruned skip [] []
  | cons (name : Option String) {payload payload' : Payload} {args args' : List (Argument Payload)}
      (head : Payload.Pruned skip payload payload') (tail : ArgsPruned skip args args') :
      ArgsPruned skip (⟨name, payload⟩ :: args) (⟨name, payload'⟩ :: args')

/-- Directives are left out of the block that an argument is. -/
inductive Payload.Pruned (skip : Directive → Prop) : Payload → Payload → Prop
  | expr (e : Expr) : Payload.Pruned skip (.expr e) (.expr e)
  | ident (name : String) : Payload.Pruned skip (.ident name) (.ident name)
  | block {o o' : Object} (h : Object.Pruned skip o o') : Payload.Pruned skip (.block o) (.block o')

end

variable {skip : Directive → Prop} {o o' : Object} {node node' : Node} {fields fields' : Fields}
  {items items' : List Node} {ds ds' : List Directive}

/-! ## Leaving out nothing -/

mutual

theorem Object.Pruned.refl (skip : Directive → Prop) : ∀ o : Object, o.Pruned skip o
  | ⟨_, _, fields, directives, _, _, _⟩ =>
    .intro (FieldsPruned.refl skip fields) (DirectivesPruned.refl skip directives)

theorem FieldsPruned.refl (skip : Directive → Prop) : ∀ fields : Fields,
    FieldsPruned skip fields fields
  | [] => .nil
  | (key, node) :: fields =>
    .cons key (Node.Pruned.refl skip node) (FieldsPruned.refl skip fields)

theorem Node.Pruned.refl (skip : Directive → Prop) : ∀ node : Node, node.Pruned skip node
  | .option binding => .option binding
  | .object o => .object (Object.Pruned.refl skip o)
  | .list name items => .list name (ItemsPruned.refl skip items)

theorem ItemsPruned.refl (skip : Directive → Prop) : ∀ items : List Node,
    ItemsPruned skip items items
  | [] => .nil
  | item :: items => .cons (Node.Pruned.refl skip item) (ItemsPruned.refl skip items)

theorem DirectivesPruned.refl (skip : Directive → Prop) : ∀ ds : List Directive,
    DirectivesPruned skip ds ds
  | [] => .nil
  | ⟨_, args, _, _⟩ :: ds => .keep (ArgsPruned.refl skip args) (DirectivesPruned.refl skip ds)

theorem ArgsPruned.refl (skip : Directive → Prop) : ∀ args : List (Argument Payload),
    ArgsPruned skip args args
  | [] => .nil
  | ⟨name, payload⟩ :: args =>
    .cons name (Payload.Pruned.refl skip payload) (ArgsPruned.refl skip args)

theorem Payload.Pruned.refl (skip : Directive → Prop) : ∀ payload : Payload,
    payload.Pruned skip payload
  | .expr e => .expr e
  | .ident name => .ident name
  | .block o => .block (Object.Pruned.refl skip o)

end

/-! ## Leaving out by a test -/

section Prune

variable (p : Directive → Bool)

mutual

/-- An object without the directives that pass a test. -/
def Object.prune : Object → Object
  | ⟨name, label, fields, directives, comments, footer, position⟩ =>
    ⟨name, label, pruneFields fields, pruneDirectives directives, comments, footer, position⟩

/-- Fields without the directives that pass a test. -/
def pruneFields : Fields → Fields
  | [] => []
  | (key, node) :: fields => (key, node.prune) :: pruneFields fields

/-- A node without the directives that pass a test. -/
def Node.prune : Node → Node
  | .option binding => .option binding
  | .object o => .object o.prune
  | .list name items => .list name (pruneItems items)

/-- The items of a list without the directives that pass a test. -/
def pruneItems : List Node → List Node
  | [] => []
  | item :: items => item.prune :: pruneItems items

/-- Directives without those that pass a test. -/
def pruneDirectives : List Directive → List Directive
  | [] => []
  | ⟨kind, args, position, offset⟩ :: ds =>
    if p ⟨kind, args, position, offset⟩ then pruneDirectives ds
    else ⟨kind, pruneArgs args, position, offset⟩ :: pruneDirectives ds

/-- The arguments of a directive without the directives that pass a test. -/
def pruneArgs : List (Argument Payload) → List (Argument Payload)
  | [] => []
  | ⟨name, payload⟩ :: args => ⟨name, payload.prune⟩ :: pruneArgs args

/-- An argument of a directive without the directives that pass a test. -/
def Payload.prune : Payload → Payload
  | .expr e => .expr e
  | .ident name => .ident name
  | .block o => .block o.prune

end

end Prune

section

variable {p : Directive → Bool}

mutual

theorem Object.pruned_prune (h : ∀ d, p d = true → skip d) :
    ∀ o : Object, o.Pruned skip (o.prune p)
  | ⟨_, _, fields, directives, _, _, _⟩ => by
    rw [Object.prune]
    exact .intro (pruned_pruneFields h fields) (pruned_pruneDirectives h directives)

theorem pruned_pruneFields (h : ∀ d, p d = true → skip d) :
    ∀ fields : Fields, FieldsPruned skip fields (pruneFields p fields)
  | [] => by
    rw [pruneFields]
    exact .nil
  | (key, node) :: fields => by
    rw [pruneFields]
    exact .cons key (Node.pruned_prune h node) (pruned_pruneFields h fields)

theorem Node.pruned_prune (h : ∀ d, p d = true → skip d) :
    ∀ node : Node, node.Pruned skip (node.prune p)
  | .option binding => by
    rw [Node.prune]
    exact .option binding
  | .object o => by
    rw [Node.prune]
    exact .object (Object.pruned_prune h o)
  | .list name items => by
    rw [Node.prune]
    exact .list name (pruned_pruneItems h items)

theorem pruned_pruneItems (h : ∀ d, p d = true → skip d) :
    ∀ items : List Node, ItemsPruned skip items (pruneItems p items)
  | [] => by
    rw [pruneItems]
    exact .nil
  | item :: items => by
    rw [pruneItems]
    exact .cons (Node.pruned_prune h item) (pruned_pruneItems h items)

theorem pruned_pruneDirectives (h : ∀ d, p d = true → skip d) :
    ∀ ds : List Directive, DirectivesPruned skip ds (pruneDirectives p ds)
  | [] => by
    rw [pruneDirectives]
    exact .nil
  | ⟨kind, args, position, offset⟩ :: ds => by
    rw [pruneDirectives]
    split
    · rename_i hp
      exact .drop (h _ hp) (pruned_pruneDirectives h ds)
    · exact .keep (d := ⟨kind, args, position, offset⟩) (pruned_pruneArgs h args)
        (pruned_pruneDirectives h ds)

theorem pruned_pruneArgs (h : ∀ d, p d = true → skip d) :
    ∀ args : List (Argument Payload), ArgsPruned skip args (pruneArgs p args)
  | [] => by
    rw [pruneArgs]
    exact .nil
  | ⟨name, payload⟩ :: args => by
    rw [pruneArgs]
    exact .cons name (Payload.pruned_prune h payload) (pruned_pruneArgs h args)

theorem Payload.pruned_prune (h : ∀ d, p d = true → skip d) :
    ∀ payload : Payload, payload.Pruned skip (payload.prune p)
  | .expr e => by
    rw [Payload.prune]
    exact .expr e
  | .ident name => by
    rw [Payload.prune]
    exact .ident name
  | .block o => by
    rw [Payload.prune]
    exact .block (Object.pruned_prune h o)

end

end

/-! ## What stays -/

theorem Object.Pruned.inner (h : o.Pruned skip o') : FieldsPruned skip o.fields o'.fields := by
  cases h
  assumption

theorem Object.Pruned.own (h : o.Pruned skip o') :
    DirectivesPruned skip o.directives o'.directives := by
  cases h
  assumption

theorem Object.Pruned.bare_eq (h : o.Pruned skip o') :
    ({ o' with fields := [], directives := [] } : Object) =
      { o with fields := [], directives := [] } := by
  cases h
  rfl

theorem Node.Pruned.name_eq (h : node.Pruned skip node') : node'.name = node.name := by
  cases h with
  | option binding => rfl
  | object h => cases h; rfl
  | list name h => rfl

theorem Node.Pruned.flatten (h : node.Pruned skip node') :
    ItemsPruned skip node.flatten node'.flatten := by
  cases h with
  | option binding => exact .cons (.option binding) .nil
  | object h => exact .cons (.object h) .nil
  | list name h => exact h

theorem Node.Pruned.list_of_eq {name name' : String} (hname : name' = name)
    (h : ItemsPruned skip items items') :
    Node.Pruned skip (.list name items) (.list name' items') :=
  hname ▸ .list name' h

theorem ItemsPruned.append {others others' : List Node} (h : ItemsPruned skip items items')
    (hothers : ItemsPruned skip others others') :
    ItemsPruned skip (items ++ others) (items' ++ others') := by
  induction items generalizing items' with
  | nil =>
      cases h
      exact hothers
  | cons item items ih =>
      cases h with
      | cons head tail => exact .cons head (ih tail)

namespace FieldsPruned

theorem keys_eq : ∀ {fields fields' : Fields}, FieldsPruned skip fields fields' →
    Keyed.keys fields' = Keyed.keys fields
  | _, _, .nil => rfl
  | _, _, .cons key _ h => congrArg (key :: ·) (keys_eq h)

theorem length_eq (h : FieldsPruned skip fields fields') : fields'.length = fields.length := by
  have hkeys := congrArg List.length h.keys_eq
  rwa [Keyed.keys, Keyed.keys, List.length_map, List.length_map] at hkeys

theorem named : ∀ {fields fields' : Fields}, FieldsPruned skip fields fields' →
    (∀ field ∈ fields, field.2.name = field.1) → ∀ field ∈ fields', field.2.name = field.1
  | _, _, .nil, h => h
  | _, _, .cons _ hnode hfields, h => by
    obtain ⟨hname, h⟩ := List.forall_mem_cons.mp h
    exact List.forall_mem_cons.mpr ⟨hnode.name_eq.trans hname, named hfields h⟩

theorem proper (h : FieldsPruned skip fields fields') (hproper : Fields.Proper fields) :
    Fields.Proper fields' :=
  ⟨h.keys_eq ▸ hproper.distinct, h.named hproper.named⟩

theorem get? (key : String) : ∀ {fields fields' : Fields}, FieldsPruned skip fields fields' →
    Option.Rel (Node.Pruned skip) (Keyed.get? fields key) (Keyed.get? fields' key)
  | _, _, .nil => .none
  | _, _, .cons name hnode h => by
    rw [Keyed.get?_cons, Keyed.get?_cons]
    split
    · exact .some hnode
    · exact get? key h

theorem put (key : String) (hnode : node.Pruned skip node') (h : FieldsPruned skip fields fields') :
    FieldsPruned skip (Keyed.put key node fields) (Keyed.put key node' fields') := by
  induction fields generalizing fields' with
  | nil =>
      cases h
      exact .cons key hnode .nil
  | cons field fields ih =>
      cases h with
      | cons name hheld h =>
          rw [Keyed.put, Keyed.put]
          split
          · exact .cons name hnode h
          · exact .cons name hheld (ih h)

theorem nodes : ∀ {fields fields' : Fields}, FieldsPruned skip fields fields' →
    List.Forall₂ (fun field field' => field.2.Pruned skip field'.2) fields fields'
  | _, _, .nil => .nil
  | _, _, .cons _ hnode h => .cons hnode (nodes h)

/-- Pruned fields count alike. -/
theorem newBefore_eq {incoming incoming' : Fields} (h : FieldsPruned skip fields fields')
    (hincoming : FieldsPruned skip incoming incoming') (count : Nat) :
    Fields.newBefore fields' incoming' count = Fields.newBefore fields incoming count := by
  have hcount (known fields : Fields) : (fields.filter fun field =>
      !Keyed.contains known field.1).length =
        ((Keyed.keys fields).filter fun key => !Keyed.contains known key).length := by
    rw [Keyed.keys, List.filter_map, List.length_map]
    rfl
  have hcontains : (fun key => !Keyed.contains fields' key) =
      fun key => !Keyed.contains fields key :=
    funext fun key => congrArg (!·) (Fields.contains_congr h.keys_eq key)
  have htake : Keyed.keys (incoming'.take count) = Keyed.keys (incoming.take count) := by
    rw [Keyed.keys, Keyed.keys, List.map_take, List.map_take]
    exact congrArg (List.take count) hincoming.keys_eq
  unfold Fields.newBefore
  rw [hcount, hcount, htake, hcontains]

end FieldsPruned

/-! ## Directives -/

/-- A directive may be left out wherever it stands. -/
def AnyOffset (skip : Directive → Prop) : Prop :=
  ∀ d offset, skip d → skip { d with offset }

namespace DirectivesPruned

theorem append {others others' : List Directive} (h : DirectivesPruned skip ds ds')
    (hothers : DirectivesPruned skip others others') :
    DirectivesPruned skip (ds ++ others) (ds' ++ others') := by
  induction ds generalizing ds' with
  | nil =>
      cases h
      exact hothers
  | cons d ds ih =>
      cases h with
      | keep inner h => exact .keep inner (ih h)
      | drop hskip h => exact .drop hskip (ih h)

theorem map_offset (hskip : AnyOffset skip) (f : Nat → Nat)
    (h : DirectivesPruned skip ds ds') :
    DirectivesPruned skip (ds.map fun d => { d with offset := f d.offset })
      (ds'.map fun d => { d with offset := f d.offset }) := by
  induction ds generalizing ds' with
  | nil =>
      cases h
      exact .nil
  | cons d ds ih =>
      cases h with
      | @keep _ _ _ _ inner h => exact .keep (d := { d with offset := _ }) inner (ih h)
      | drop hd h => exact .drop (hskip d _ hd) (ih h)

end DirectivesPruned

/-! ## Combining -/

theorem Object.Pruned.moved {a a' b b' : Object} (hskip : AnyOffset skip)
    (ha : a.Pruned skip a') (hb : b.Pruned skip b') :
    DirectivesPruned skip (a.moved b) (a'.moved b') := by
  have hmoved : a'.moved b' = b'.directives.map fun d =>
      { d with offset := a.fields.length + Fields.newBefore a.fields b.fields d.offset } := by
    unfold Object.moved
    simp only [ha.inner.length_eq, ha.inner.newBefore_eq hb.inner]
  rw [hmoved]
  exact hb.own.map_offset hskip fun offset =>
    a.fields.length + Fields.newBefore a.fields b.fields offset

/-- Merging an object into what a name holds, if laying it over another is known. -/
theorem Node.Pruned.merge {held held' : Option Node} {b b' : Object}
    (hover : ∀ {a a' : Object}, a.Pruned skip a' → (a.overlay b).Pruned skip (a'.overlay b'))
    (hheld : Option.Rel (Node.Pruned skip) held held') (hb : b.Pruned skip b') :
    Node.Pruned skip (Method.merge.combine held (.object b))
      (Method.merge.combine held' (.object b')) := by
  cases hheld with
  | none => exact .object hb
  | some hheld =>
      cases hheld with
      | option binding => exact .object hb
      | object ha => exact .object (hover ha)
      | list name h => exact .object hb

mutual

theorem Object.Pruned.overlay (hskip : AnyOffset skip) : ∀ {b b' : Object}, b.Pruned skip b' →
    ∀ {a a' : Object}, a.Pruned skip a' → (a.overlay b).Pruned skip (a'.overlay b')
  | _, _, .intro inner own, _, _, ha => by
    have hdirectives := ha.own.append (ha.moved hskip (.intro inner own))
    have hfields := FieldsPruned.mergeFields hskip inner ha.inner
    rw [Object.overlay_eq, Object.overlay_eq]
    cases ha
    exact .intro hfields hdirectives

theorem FieldsPruned.mergeFields (hskip : AnyOffset skip) : ∀ {incoming incoming' : Fields},
    FieldsPruned skip incoming incoming' → ∀ {fields fields' : Fields},
      FieldsPruned skip fields fields' →
        FieldsPruned skip (ConfigLang.mergeFields fields incoming)
          (ConfigLang.mergeFields fields' incoming')
  | _, _, .nil, _, _, h => by
    rw [ConfigLang.mergeFields, ConfigLang.mergeFields]
    exact h
  | _, _, .cons _ hnode hincoming, _, _, h => by
    rw [ConfigLang.mergeFields, ConfigLang.mergeFields]
    exact FieldsPruned.mergeFields hskip hincoming (Node.Pruned.mergeNode hskip hnode h)

theorem Node.Pruned.mergeNode (hskip : AnyOffset skip) : ∀ {node node' : Node},
    node.Pruned skip node' → ∀ {fields fields' : Fields}, FieldsPruned skip fields fields' →
      FieldsPruned skip (ConfigLang.mergeNode fields node) (ConfigLang.mergeNode fields' node')
  | _, _, .option binding, _, _, h => by
    rw [ConfigLang.mergeNode, ConfigLang.mergeNode]
    exact h.put _ (.option binding)
  | _, _, .list name hitems, _, _, h => by
    rw [ConfigLang.mergeNode, ConfigLang.mergeNode]
    exact h.put _ (.list name hitems)
  | _, _, .object hb, _, _, h => by
    have hname := (Node.Pruned.object hb).name_eq
    rw [mergeNode_eq, mergeNode_eq, hname]
    exact h.put _ (Node.Pruned.merge (fun ha => Object.Pruned.overlay hskip hb ha) (h.get? _) hb)

end

/-- What a name holds after a node arrives. -/
theorem Node.Pruned.combine (hskip : AnyOffset skip) (method : Method)
    {held held' : Option Node} (hheld : Option.Rel (Node.Pruned skip) held held')
    (hnode : node.Pruned skip node') :
    Node.Pruned skip (method.combine held node) (method.combine held' node') := by
  cases method with
  | replace => exact hnode
  | append =>
      cases hheld with
      | none => exact hnode
      | some hheld =>
          have hflatten := hheld.flatten.append hnode.flatten
          have hlist := Node.Pruned.list_of_eq hnode.name_eq hflatten
          cases hheld with
          | option binding => exact hlist
          | object h => exact hlist
          | list name h => exact .list name hflatten
  | merge =>
      cases hnode with
      | option binding =>
          rw [Method.combine_merge (by rintro _ ⟨⟩), Method.combine_merge (by rintro _ ⟨⟩)]
          exact .option binding
      | object hb => exact .merge (fun ha => hb.overlay hskip ha) hheld hb
      | list name h =>
          rw [Method.combine_merge (by rintro _ ⟨⟩), Method.combine_merge (by rintro _ ⟨⟩)]
          exact .list name h

/-- Two nodes that arrive in the same way, the one pruned. -/
structure Arrival.Pruned (skip : Directive → Prop) (a a' : Arrival) : Prop where
  method_eq : a'.method = a.method
  node : a.node.Pruned skip a'.node

theorem Object.Pruned.combine (hskip : AnyOffset skip) {a a' : Arrival}
    (h : o.Pruned skip o') (ha : Arrival.Pruned skip a a') :
    (o.combine a.method a.node).Pruned skip (o'.combine a'.method a'.node) := by
  have hget := h.inner.get? a.node.name
  have hput := h.inner.put a.node.name (ha.node.combine hskip a.method hget)
  rw [Object.combine_eq, Object.combine_eq, ha.method_eq, ha.node.name_eq]
  cases h with
  | intro inner own => exact .intro hput own

/-- **A pruned object stays pruned, whatever arrives in it.** -/
theorem Object.Pruned.combineEach (hskip : AnyOffset skip) {arrivals arrivals' : List Arrival}
    (h : o.Pruned skip o') (harrivals : List.Forall₂ (Arrival.Pruned skip) arrivals arrivals') :
    (o.combineEach arrivals).Pruned skip (o'.combineEach arrivals') := by
  induction harrivals generalizing o o' with
  | nil => exact h
  | cons ha _ ih => exact ih (h.combine hskip ha)

end ConfigLang
