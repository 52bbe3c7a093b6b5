import Mathlib
import ConfigLang.Proofs.Document.Rearranged
import ConfigLang.Proofs.Expand.Scoping
import ConfigLang.Proofs.Tree.Apart
import ConfigLang.Proofs.Tree.Mention

/-!
# The frame of an object

What is in a field of an object is of no matter to what is not: if two trees agree apart
from a field, then so do their expansions (`Scene.agreeOff_expandWithin`).  For the directives
around the field are the same in both, and bring the same, as they see fragments and no
fields; and however nodes are combined, what differs stays where it is.

The world is one that gives the same answer whenever it is asked the same question, or
else no two expansions need agree.

## Strategy

* **Pairs of runs.**  `Agree` relates the results of two computations in such a world.  A
  computation agrees with itself (`Agree.same`), and sequences agree step by step
  (`Agree.bind`).
* **Objects inside.**  Descending goes through both trees field by field.  They have the
  same objects but for the one that holds the field, or is the field (`eachField_apart`,
  `KeepsApart.descend`).
* **Directives.**  What they bring is combined with fields that differ in one name at
  most.  Combining looks at names, so the induction also carries that the trees are tidy
  (`tidy_effects`, `keepsApart_expandObject`).
* **Paths.**  A path that does not pass through the field leads to the same in both trees
  (`locateFrom_agreeOn`), so two documents agree there (`agreeAt`).
-/

namespace ConfigLang

open Running

/-! ## Pairs of runs -/

section

variable {α β α' β' : Type} {R : α → β → Prop} {S : α' → β' → Prop}

/-- The results of two computations are related, if both have one. -/
def Agree (R : α → β → Prop) (x : Expansion Id α) (y : Expansion Id β) : Prop :=
  ∀ a b, x.run.run = .ok a → y.run.run = .ok b → R a b

namespace Agree

theorem pure {a : α} {b : β} (h : R a b) : Agree R (Pure.pure a) (Pure.pure b) := by
  rintro _ _ ⟨⟩ ⟨⟩
  exact h

theorem bind {x : Expansion Id α} {y : Expansion Id β} {f : α → Expansion Id α'}
    {g : β → Expansion Id β'} (h : Agree R x y) (hf : ∀ a b, R a b → Agree S (f a) (g b)) :
    Agree S (x >>= f) (y >>= g) := by
  intro a' b' hx hy
  rw [run_bind_id] at hx hy
  obtain ⟨a, ha, hx⟩ := bind_eq_ok hx
  obtain ⟨b, hb, hy⟩ := bind_eq_ok hy
  exact hf a b (h a b ha hb) a' b' hx hy

/-- A computation agrees with itself on whatever its results have. -/
theorem same {x : Expansion Id α} {P : α → Prop} (h : Ensures x P) :
    Agree (fun a b => a = b ∧ P a) x x := by
  intro a b ha hb
  cases ha.symm.trans hb
  exact ⟨rfl, h.of_run_id ha⟩

theorem refl (x : Expansion Id α) : Agree Eq x x :=
  fun _ _ ha hb => Except.ok.inj (ha.symm.trans hb)

theorem mono {R' : α → β → Prop} {x : Expansion Id α} {y : Expansion Id β} (h : Agree R x y)
    (hR : ∀ a b, R a b → R' a b) : Agree R' x y :=
  fun a b ha hb => hR a b (h a b ha hb)

end Agree

end

/-! ## Objects inside a tree -/

section Descend

variable {f : Object → Expansion Id Object} {Q : Object → Object → Prop}

theorem eachItem_within
    (hf : ∀ {o o'}, o.Tidy → o'.Tidy → Q o o' → Agree Q (f o) (f o')) {items items' : List Node}
    (h : List.Forall₂ (ItemWithin Q) items items') (htidy : ∀ item ∈ items, item.Tidy)
    (htidy' : ∀ item ∈ items', item.Tidy) :
    Agree (List.Forall₂ (ItemWithin Q)) (eachItem f items) (eachItem f items') := by
  induction h with
  | nil =>
      rw [eachItem]
      exact .pure .nil
  | cons hitem _ ih =>
      obtain ⟨hone, htidy⟩ := List.forall_mem_cons.mp htidy
      obtain ⟨hone', htidy'⟩ := List.forall_mem_cons.mp htidy'
      rw [eachItem, eachItem]
      refine Agree.bind (R := ItemWithin Q) ?_ fun item item' hitem =>
        (ih htidy htidy').bind fun _ _ hitems => .pure (.cons hitem hitems)
      cases hitem with
      | same item => exact (Agree.refl _).mono fun _ _ heq => heq ▸ .same _
      | object ho =>
          rw [Node.eachObject, Node.eachObject]
          exact (hf hone.of_object hone'.of_object ho).bind fun _ _ hexpanded =>
            .pure (.object hexpanded)

theorem Node.Within.eachObject (hQ : ∀ o, Q o o) (hname : ∀ {o o'}, Q o o' → o.name = o'.name)
    (hf : ∀ {o o'}, o.Tidy → o'.Tidy → Q o o' → Agree Q (f o) (f o')) {node node' : Node}
    (htidy : node.Tidy) (htidy' : node'.Tidy) (h : Node.Within Q node node') :
    Agree (Node.Within Q) (node.eachObject f) (node'.eachObject f) := by
  cases node with
  | option binding =>
      obtain rfl := h.eq_option
      exact (Agree.refl _).mono fun _ _ heq => heq ▸ .refl Q _
  | object o =>
      obtain ⟨o', rfl, ho⟩ := h.exists_object hQ
      rw [Node.eachObject, Node.eachObject]
      exact (hf htidy.of_object htidy'.of_object ho).bind fun _ _ hexpanded =>
        .pure ⟨hname hexpanded, rfl, .cons (.object hexpanded) .nil⟩
  | list name items =>
      obtain ⟨items', rfl, hitems⟩ := h.exists_list
      rw [Node.eachObject, Node.eachObject]
      exact (eachItem_within hf hitems (fun item hmem => (htidy.items item hmem).tidy)
        fun item hmem => (htidy'.items item hmem).tidy).bind fun _ _ hexpanded =>
          .pure ⟨rfl, rfl, hexpanded⟩

theorem eachField_apart {key : String} {R : Node → Node → Prop}
    (hnode : ∀ {node node'}, node.Tidy → node'.Tidy → R node node' →
      Agree R (node.eachObject f) (node'.eachObject f))
    {fields fields' : Fields} (h : List.Forall₂ (FieldApart key R) fields fields')
    (htidy : ∀ field ∈ fields, field.2.Tidy) (htidy' : ∀ field ∈ fields', field.2.Tidy) :
    Agree (List.Forall₂ (FieldApart key R)) (eachField f fields) (eachField f fields') := by
  induction h with
  | nil => exact .pure .nil
  | @cons field field' _ _ hfield _ ih =>
      obtain ⟨k, node⟩ := field
      obtain ⟨k', node'⟩ := field'
      obtain rfl : k = k' := hfield.key_eq
      obtain ⟨hone, htidy⟩ := List.forall_mem_cons.mp htidy
      obtain ⟨hone', htidy'⟩ := List.forall_mem_cons.mp htidy'
      rw [eachField, eachField]
      refine Agree.bind (R := fun a b => FieldApart key R (k, a) (k, b)) ?_ fun _ _ hexpanded =>
        (ih htidy htidy').bind fun _ _ hrest => .pure (.cons hexpanded hrest)
      by_cases hkey : k = key
      · exact (hnode hone hone' (hfield.here hkey)).mono fun _ _ hexpanded =>
          ⟨rfl, fun hne => absurd hkey hne, fun _ => hexpanded⟩
      · obtain rfl : node = node' := hfield.other hkey
        exact (Agree.refl _).mono fun _ _ heq =>
          ⟨rfl, fun _ => heq, fun heq => absurd heq hkey⟩

end Descend

/-- A way to expand objects leaves what differs where it is. -/
def KeepsApart (expand : Scope → Object → Expansion Id Object) : Prop :=
  ∀ ⦃scope way o o'⦄, Scope.Tidy scope → o.directives ≠ [] → o.Tidy → o'.Tidy →
    Object.AgreeOff way o o' → Agree (Object.AgreeOff way) (expand scope o) (expand scope o')

theorem KeepsApart.descend {expand : Scope → Object → Expansion Id Object}
    (hexpand : KeepsApart expand) {scope : Scope} (hscope : Scope.Tidy scope) {way : List String}
    {o o' : Object} (ho : o.Tidy) (ho' : o'.Tidy) (h : Object.AgreeOff way o o') :
    Agree (Object.AgreeOff way) (o.descend expand scope) (o'.descend expand scope) := by
  induction way generalizing o o' with
  | nil => exact fun _ _ _ _ => True.intro
  | cons key rest ih =>
      have hdirectives : o'.directives = o.directives := Object.Apart.directives_eq h
      obtain ⟨hrest, hfields⟩ := h
      by_cases hne : o.directives = []
      · rw [Object.descend_of_directives hne, Object.descend_of_directives (hdirectives.trans hne)]
        refine (eachField_apart (fun hnode hnode' hoff => ?_) hfields ho.fields.nodes
          ho'.fields.nodes).bind fun _ _ hexpanded => .pure ⟨?_, hexpanded⟩
        · -- the rest of the way is inside the objects of the node
          cases rest with
          | nil => exact fun _ _ _ _ => True.intro
          | cons next rest =>
              exact hoff.eachObject (.refl (.refl rest)) (·.name_eq) ih hnode hnode'
        · rw [← hrest]
      · rw [Object.descend_of_ne hne, Object.descend_of_ne (hdirectives ▸ hne)]
        exact hexpand hscope hne ho ho' ⟨hrest, hfields⟩

/-! ## Expansion -/

theorem Object.Tidy.combineEach {o : Object} {arrivals : List Arrival} (ho : o.Tidy)
    (h : ∀ a ∈ arrivals, a.node.Tidy) : (o.combineEach arrivals).Tidy := by
  induction arrivals generalizing o with
  | nil => exact ho
  | cons a arrivals ih =>
      obtain ⟨ha, h⟩ := List.forall_mem_cons.mp h
      exact ih (ho.combine a.method ha) h

/-- When the directives of an object have run, it is as tidy as before. -/
theorem Object.Tidy.combineEach_arrivals {o : Object} (ho : o.Tidy) {effects : List Effect}
    (h : ∀ e ∈ effects, ∀ entry ∈ e.fields, entry.2.Tidy) :
    (({ o with fields := [], directives := [] } : Object).combineEach
      (Item.arrivals o.items effects)).Tidy := by
  have harrivals : ∀ a ∈ Item.arrivals o.items effects, a.node.Tidy := by
    intro a hmem
    rcases Item.mem_arrivals hmem with hmem | ⟨e, he, entry, hentry, hnode⟩
    · obtain ⟨entry, hentry, hnode⟩ := Item.mem_interleave.mp hmem
      exact hnode ▸ ho.fields.nodes entry hentry
    · exact hnode ▸ h e he entry hentry
  exact Object.Tidy.combineEach (.mk' ho.label .nil nofun) harrivals

theorem Effect.tidy_visible {scope : Scope} {effects : List Effect} (hscope : Scope.Tidy scope)
    (h : ∀ e ∈ effects, e.Tidy) : Scope.Tidy (visible scope effects) := by
  induction effects generalizing scope with
  | nil => exact hscope
  | cons e effects ih =>
      obtain ⟨he, h⟩ := List.forall_mem_cons.mp h
      exact ih (List.forall_mem_append.mpr ⟨he.fragments, hscope⟩) h

namespace Expander

theorem tidy_effects {m : Type → Type} [Monad m] [LawfulMonad m] {x : Expander m}
    {expandBlock : Scope → Object → Expansion m Object} (hexpand : KeepsTidy expandBlock)
    (hnested : x.NestedTidy) {scope : Scope} (hscope : Scope.Tidy scope) {ds : List Directive}
    (h : ∀ d ∈ ds, d.Tidy) :
    Ensures (x.effects expandBlock scope ds) fun es => ∀ e ∈ es, e.Tidy := by
  induction ds generalizing scope with
  | nil => exact .pure nofun
  | cons d ds ih =>
      obtain ⟨hd, h⟩ := List.forall_mem_cons.mp h
      rw [effects]
      refine (tidy_effect hexpand hnested hd hscope).bind fun e he => ?_
      have hvisible : Scope.Tidy (e.fragments ++ scope) :=
        List.forall_mem_append.mpr ⟨he.fragments, hscope⟩
      exact (ih hvisible h).bind fun es hes => .pure (List.forall_mem_cons.mpr ⟨he, hes⟩)

variable {x : Expander Id}

theorem keepsApart_expandObject (hnested : x.NestedTidy) (n : Nat) :
    KeepsApart (x.expandObject n) := by
  induction n with
  | zero => exact fun _ _ _ _ _ _ _ _ h => .pure h
  | succ n ih =>
      intro scope way o o' hscope hne ho ho' h
      cases way with
      | nil => exact fun _ _ _ _ => True.intro
      | cons key rest =>
          have hdirectives : o'.directives = o.directives := Object.Apart.directives_eq h
          obtain ⟨hrest, hfields⟩ := h
          have hbare : ({ o' with fields := [], directives := [] } : Object) =
              { o with fields := [], directives := [] } := by rw [← hrest]
          rw [expandObject_eq, expandObject_eq, hdirectives, hbare]
          -- the directives are the same, and see the same
          refine (Agree.same (tidy_effects (fun scope o hscope ho =>
            tidy_descend (tidy_expandObject hnested n) hscope ho) hnested hscope
              ho.directives)).bind fun es es' hes => ?_
          obtain ⟨rfl, hes⟩ := hes
          have hbrought : ∀ e ∈ es, ∀ entry ∈ e.fields, entry.2.Tidy :=
            fun e he => (hes e he).fields
          refine ih.descend (Effect.tidy_visible hscope hes)
            (ho.combineEach_arrivals hbrought) ?_ ?_
          · have htidy := ho'.combineEach_arrivals hbrought
            rwa [hbare] at htidy
          · have harrivals := Item.arrivals_apart (.refl rest)
              (fieldsArrive hfields ho.fields ho'.fields) hbrought 0 o.directives
            rw [Object.items, Object.items, hdirectives]
            exact (Object.Apart.refl (.refl rest) _).combineEach (.combinesApart rest) harrivals

end Expander

namespace Scene

theorem nestedTidy_expander {m : Type → Type} [Monad m] [LawfulMonad m] (scene : Scene m)
    (directory : String) (budget : Nat) : (scene.expander directory budget).NestedTidy := by
  cases budget with
  | zero => rintro nested ⟨⟩
  | succ budget =>
      rintro nested ⟨⟩ directory o ho
      exact scene.tidy_expandWithin budget directory ho

theorem agreeOff_expandWithin (scene : Scene Id) (budget : Nat) (directory : String)
    {way : List String} {o o' : Object} (ho : o.Tidy) (ho' : o'.Tidy)
    (h : Object.AgreeOff way o o') :
    Agree (Object.AgreeOff way) (scene.expandWithin budget directory o)
      (scene.expandWithin budget directory o') := by
  have hx := scene.includesPlain_expander directory budget
  have hscope : Scope.Plain [] := List.forall_mem_nil _
  -- both are expanded with one and the same count
  let count := max o.weight o'.weight
  have hcount : o.weight ≤ count ∧ o'.weight ≤ count := ⟨le_max_left _ _, le_max_right _ _⟩
  have heq {o : Object} (hweight : o.weight ≤ count) : scene.expandWithin budget directory o =
      o.descend ((scene.expander directory budget).expandObject count) [] := by
    rw [expandWithin_eq, hx.expand_eq]
    exact (hx.descend_eq hscope hweight).symm
  have hkeeps := Expander.keepsApart_expandObject (scene.nestedTidy_expander directory budget) count
  rw [heq hcount.1, heq hcount.2]
  exact hkeeps.descend (List.forall_mem_nil _) ho ho' h

end Scene

/-! ## Paths -/

/-- A path from an object passes through the field that a way of names leads to. -/
inductive Object.Passes : Object → (way path : List String) → Prop
  | whole (o : Object) (path : List String) : Passes o [] path
  | field (o : Object) (key : String) (path : List String) : Passes o [key] (key :: path)
  | object {o inner : Object} {key : String} {rest path : List String}
      (hget : o.get? key = some (.object inner)) (h : Passes inner rest path) :
      Passes o (key :: rest) (key :: path)
  | item {o inner : Object} {key name next : String} {items : List Node} {rest path : List String}
      (hget : o.get? key = some (.list name items))
      (hselect : selectItem? items next = some (.object inner)) (h : Passes inner rest path) :
      Passes o (key :: rest) (key :: next :: path)

/-- A path that passes through a field starts where the way to it does. -/
theorem Object.Passes.head?_eq {o : Object} {key : String} {rest path : List String}
    (h : o.Passes (key :: rest) path) : path.head? = some key := by
  cases h <;> rfl

/-- Two objects are the same, or agree apart from a field that a path does not pass through. -/
def Object.AgreeOn (way path : List String) (o o' : Object) : Prop :=
  o = o' ∨ Object.AgreeOff way o o' ∧ ¬ o.Passes way path

/-- Two nodes under the first name of a path are the same, or the field is inside them and not on
the path. -/
def Node.AgreeBehind (o : Object) (way : List String) (key : String) (path : List String)
    (node node' : Node) : Prop :=
  node = node' ∨ ∃ next rest, way = key :: next :: rest ∧ ¬ o.Passes way (key :: path) ∧
    Node.AgreeOff (next :: rest) node node'

/-- Two nodes agree apart from a field inside them. -/
def Node.AgreeInside (node node' : Node) : Prop :=
  ∃ key rest, Node.AgreeOff (key :: rest) node node'

theorem Node.AgreeInside.refl (node : Node) : Node.AgreeInside node node :=
  ⟨"", [], .refl _ node⟩

theorem Node.AgreeBehind.inside {o : Object} {key : String} {way path : List String}
    {node node' : Node} (h : Node.AgreeBehind o way key path node node') :
    Node.AgreeInside node node' := by
  rcases h with rfl | ⟨next, rest, -, -, h⟩
  · exact .refl node
  · exact ⟨next, rest, h⟩

theorem Object.AgreeOn.get? {key : String} {way path : List String} {o o' : Object}
    (h : Object.AgreeOn way (key :: path) o o') :
    Option.Rel (Node.AgreeBehind o way key path) (o.get? key) (o'.get? key) := by
  have hsame (node : Option Node) : Option.Rel (Node.AgreeBehind o way key path) node node := by
    cases node with
    | none => exact .none
    | some node => exact .some (.inl rfl)
  rcases h with rfl | ⟨hoff, hpath⟩
  · exact hsame _
  · cases way with
    | nil => exact absurd (.whole o _) hpath
    | cons first rest =>
        have hfields := Object.Apart.fields hoff
        by_cases hkey : first = key
        · subst hkey
          cases rest with
          | nil => exact absurd (.field o first path) hpath
          | cons next rest =>
              have hhere := get?_here hfields
              unfold Object.get?
              generalize Keyed.get? o.fields first = x, Keyed.get? o'.fields first = x' at hhere ⊢
              cases hhere with
              | none => exact .none
              | some hnode => exact .some (.inr ⟨next, rest, rfl, hpath, hnode⟩)
        · have hget : o.get? key = o'.get? key := get?_apart hfields (Ne.symm hkey)
          rw [hget]
          exact hsame _

namespace Document

/-- **A path leads to the same** if it does not pass through the field where two trees differ. -/
theorem locateFrom_agreeOn : ∀ (way : List String) {path : List String} {o o' : Object},
    Object.AgreeOn way path o o' → ∀ {walked : List String} {chain chain' : List Object},
      Paired Eq (fun place place' => Node.AgreeInside place.node place'.node)
        (locateFrom chain walked o path) (locateFrom chain' walked o' path)
  | _, [], _, _, _, _, _, _ => .error rfl
  | way, [key], o, o', h, walked, chain, chain' => by
    have hget := h.get?
    rw [locateFrom, locateFrom]
    generalize o.get? key = x, o'.get? key = x' at hget ⊢
    cases hget with
    | none => exact .error rfl
    | some hnode => exact .ok hnode.inside
  | way, key :: next :: path, o, o', h, walked, chain, chain' => by
    have hget := h.get?
    rw [locateFrom, locateFrom]
    generalize hx : o.get? key = x, o'.get? key = x' at hget ⊢
    cases hget with
    | none => exact .error rfl
    | @some node node' hnode =>
        rcases hnode with rfl | ⟨first, rest, rfl, hpath, hoff⟩
        · cases node with
          | option binding => exact .error rfl
          | object inner => exact locateFrom_agreeOn [] (.inl rfl)
          | list name items =>
              dsimp only
              cases selectItem? items next with
              | none => exact .error rfl
              | some item =>
                  cases path with
                  | nil => exact .ok (.refl item)
                  | cons after path =>
                      cases item with
                      | option binding => exact .error rfl
                      | list name items => exact .error rfl
                      | object inner => exact locateFrom_agreeOn [] (.inl rfl)
        · cases node with
          | option binding =>
              obtain rfl := hoff.eq_option
              exact .error rfl
          | object inner =>
              obtain ⟨inner', rfl, hinner⟩ := hoff.exists_object (.refl (.refl rest))
              exact locateFrom_agreeOn (first :: rest)
                (.inr ⟨hinner, fun h => hpath (.object hx h)⟩)
          | list name items =>
              obtain ⟨items', rfl, hitems⟩ := hoff.exists_list
              have hselect := selectItem?_within (·.label_eq) hitems next
              dsimp only
              generalize hy : selectItem? items next = y, selectItem? items' next = y' at hselect ⊢
              cases hselect with
              | none => exact .error rfl
              | @some item item' hitem =>
                  cases path with
                  | nil => exact .ok ⟨first, rest, .of_item (·.name_eq) hitem⟩
                  | cons after path =>
                      cases hitem with
                      | object hinner =>
                          exact locateFrom_agreeOn (first :: rest)
                            (.inr ⟨hinner, fun h => hpath (.item hx hy h)⟩)
                      | same =>
                          cases item with
                          | option binding => exact .error rfl
                          | list name items => exact .error rfl
                          | object inner => exact locateFrom_agreeOn [] (.inl rfl)

/-- What two documents have at a path agrees. -/
structure AgreeAt (path : List String) (d d' : Document) : Prop where
  /-- The same is found, but for a field inside it, or it is missing for the same reason. -/
  node : Paired Eq Node.AgreeInside (d.node path) (d'.node path)
  /-- The same option is found, or there is none for the same reason. -/
  expr : d.expr path = d'.expr path

theorem agreeAt {way path : List String} {o o' : Object} (h : Object.AgreeOn way path o o')
    (base : Frame) (ancestors : List Object) :
    AgreeAt path ⟨o, base, ancestors⟩ ⟨o', base, ancestors⟩ := by
  have hnode : Paired Eq Node.AgreeInside (node ⟨o, base, ancestors⟩ path)
      (node ⟨o', base, ancestors⟩ path) :=
    (locateFrom_agreeOn way h).map fun _ _ hplace => hplace
  refine ⟨hnode, ?_⟩
  unfold expr
  generalize node ⟨o, base, ancestors⟩ path = x, node ⟨o', base, ancestors⟩ path = x' at hnode ⊢
  cases hnode with
  | error he => rw [he]
  | @ok node node' hinside =>
      obtain ⟨key, rest, hoff⟩ := hinside
      cases node with
      | option binding =>
          obtain rfl := hoff.eq_option
          rfl
      | object inner =>
          obtain ⟨inner', rfl, -⟩ := hoff.exists_object (.refl (.refl rest))
          rfl
      | list name items =>
          obtain ⟨items', rfl, -⟩ := hoff.exists_list
          rfl

end Document

/-! ## Scopes and frames -/

/-- **Expansion goes by the scopes of the text, and is local.**  A directive sees what was defined
above it in its object, and else what was defined last in the innermost of the objects around it in
its document.  So what is inside a field is of no matter to what is outside: if two trees agree
apart from a field and both can be expanded, what they expand to agrees wherever no path leads
through that field. -/
theorem Scene.expand_lexical :
    (∀ (m : Type → Type) [Monad m] [LawfulMonad m] (scene : Scene m) (directory : String)
      (budget : Nat), (scene.expander directory budget).Scoped ∧
        (∀ o, scene.expandWithin budget directory o =
          (scene.expander directory budget).expandIn [] o) ∧
        ∀ nested ∈ (scene.expander directory budget).nested?, ∃ less < budget,
          ∀ directory' o, nested directory' o = (scene.expander directory' less).expandIn [] o) ∧
    ∀ (scene : Scene Id) (directory : String) (way : List String) (o o' r r' : Object),
      o.Tidy → o'.Tidy → Object.AgreeOff way o o' →
      (scene.expand directory o).run.run = .ok r → (scene.expand directory o').run.run = .ok r' →
        Object.AgreeOff way r r' ∧ ∀ path, ¬ r.Passes way path → ∀ base ancestors,
          Document.AgreeAt path ⟨r, base, ancestors⟩ ⟨r', base, ancestors⟩ := by
  constructor
  · intro m _ _ scene directory budget
    have hdocument (directory : String) (budget : Nat) (o : Object) :
        scene.expandWithin budget directory o = (scene.expander directory budget).expandIn [] o :=
      (scene.expandWithin_eq budget directory o).trans
        ((scene.includesPlain_expander directory budget).expand_eq o)
    refine ⟨(scene.includesPlain_expander directory budget).scoped, hdocument directory budget, ?_⟩
    cases budget with
    | zero => rintro nested ⟨⟩
    | succ budget =>
        rintro nested ⟨⟩
        exact ⟨budget, Nat.lt_succ_self budget, fun directory' o => hdocument directory' budget o⟩
  · intro scene directory way o o' r r' ho ho' h hr hr'
    have hoff := scene.agreeOff_expandWithin includeLimit directory ho ho' h r r' hr hr'
    exact ⟨hoff, fun path hpath base ancestors =>
      Document.agreeAt (.inr ⟨hoff, hpath⟩) base ancestors⟩

/-- The object `c` is replaced by another one. Each of them has a fragment `f` of its own, while
`d` goes on with that of the document. -/
theorem Scene.expand_lexical_of_child :
    ∃ (root child root' r r' : Object) (scene : Scene Id),
      parseDocument ".define(f, { x = 1 })\nc { .define(f, { x = 2 }) }\nd { .apply(f) }\n" =
        .ok root ∧
      parseDocument ".define(f, { x = 3 })\n.apply(f)\n" = .ok child ∧
      root' = { root with
        fields := Keyed.put "c" (.object { child with name := "c" }) root.fields } ∧
      (scene.expand "" root).run.run = .ok r ∧ (scene.expand "" root').run.run = .ok r' ∧
      Object.AgreeOff ["c"] root root' ∧ Object.AgreeOff ["c"] r r' ∧
      Document.AgreeAt ["d", "x"] ⟨r, .empty, []⟩ ⟨r', .empty, []⟩ := by
  let scene : Scene Id := ⟨(FileTree.mk [] []).host, (FileTree.mk [] []).source, .ofBase .empty⟩
  let replace (root child : Object) : Object :=
    { root with fields := Keyed.put "c" (.object { child with name := "c" }) root.fields }
  have hfound : (parseDocument
      ".define(f, { x = 1 })\nc { .define(f, { x = 2 }) }\nd { .apply(f) }\n").toOption.any
        (fun root => (parseDocument ".define(f, { x = 3 })\n.apply(f)\n").toOption.any fun child =>
          (scene.expand "" root).run.run.toOption.any fun _ =>
            (scene.expand "" (replace root child)).run.run.toOption.any fun _ =>
              Keyed.contains root.fields "c") = true := by
    decide +kernel
  obtain ⟨root, hparse, hfound⟩ := exists_of_any hfound
  obtain ⟨child, hparse', hfound⟩ := exists_of_any hfound
  obtain ⟨r, hr, hfound⟩ := exists_of_any hfound
  obtain ⟨r', hr', hcontains⟩ := exists_of_any hfound
  have hroot := tidy_parseDocument hparse
  have hchild := tidy_parseDocument hparse'
  have hnamed : Object.Tidy { child with name := "c" } :=
    .mk' hchild.label hchild.fields hchild.directives
  have hreplaced : (replace root child).Tidy :=
    hroot.with_fields (hroot.fields.put (.object hnamed) rfl)
  have hoff : Object.AgreeOff ["c"] root (replace root child) :=
    .put (Keyed.contains_iff.mp hcontains) _
  obtain ⟨hexpanded, hpaths⟩ :=
    Scene.expand_lexical.2 scene "" ["c"] root (replace root child) r r' hroot hreplaced hoff hr hr'
  have hpath : ¬ r.Passes ["c"] ["d", "x"] := fun h => absurd h.head?_eq (by decide)
  exact ⟨root, child, _, r, r', scene, hparse, hparse', rfl, hr, hr', hoff, hexpanded,
    hpaths ["d", "x"] hpath .empty []⟩

end ConfigLang
