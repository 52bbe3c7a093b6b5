import Mathlib
import ConfigLang.Proofs.Expand.Overlay
import ConfigLang.Proofs.Tree.Weight

/-!
# The algebra of layers

An object is laid over another name by name: what a name holds in the end depends on what it
holds in the two objects only (`get?_mergeFields`), and the names of the lower object come
first (`keys_mergeFields`).  So every law of overlaying is a law of what one name holds, and
the objects under the name are met again by induction.

An object that is laid over itself, or once more over what it lies on already, changes nothing
(`Object.Layer.overlay_self`, `Object.Layer.overlay_twice`).  Three layers can be grouped either
way (`Object.Layer.overlay_assoc`) unless something that is no object lies between two objects:
it hides the lower one, which shows again if the upper two are put together first.

## Strategy

* **Layers.**  Directives are joined when objects are laid over one another, and no law holds of
  them.  An `Object.Layer` is an object without any, neither itself nor inside, and tidy objects
  without directives are layers (`Object.Tidy.layer`).
* **One name.**  `layered` is what a name holds above laid over what it holds below, and
  `layered_cases` that it is either the one above or a pair of objects laid over one another.
* **Names in order.**  Names that are known keep their places, and new ones come behind them, so
  three layers have their names in one order however they are grouped
  (`keys_mergeFields_assoc`).
* **Three layers.**  The condition goes down along paths: `Object.Compatible` looks at the objects
  that a path leads to in all three, and holds of what is inside (`Compatible.inner`).
-/

namespace ConfigLang

/-! ## Layers -/

/-- An object without directives whose fields are stored under their names, each once; so are those
of the objects among its fields. The items of lists do not matter, for no overlay looks into
them. -/
inductive Object.Layer : Object → Prop
  | intro {o : Object} (bare : o.directives = []) (proper : Fields.Proper o.fields)
      (inner : ∀ name child, o.get? name = some (.object child) → child.Layer) : o.Layer

namespace Object.Layer

variable {o : Object}

theorem bare (h : o.Layer) : o.directives = [] := by
  cases h
  assumption

theorem proper (h : o.Layer) : Fields.Proper o.fields := by
  cases h
  assumption

theorem inner (h : o.Layer) : ∀ name child, o.get? name = some (.object child) → child.Layer := by
  cases h
  assumption

end Object.Layer

mutual

/-- Every tidy object without directives is a layer. -/
theorem Object.Tidy.layer : ∀ {o : Object}, o.Tidy → o.weight = 0 → o.Layer
  | ⟨_, _, fields, _, _, _, _⟩, h, hweight => by
    have hbare := Object.directives_of_weight hweight
    rw [Object.weight] at hweight
    exact .intro hbare h.fields.proper
      (Fields.Tidy.layers h.fields (Nat.eq_zero_of_add_eq_zero_right hweight))

theorem Fields.Tidy.layers : ∀ {fields : Fields}, Fields.Tidy fields → weightFields fields = 0 →
    ∀ name child, Keyed.get? fields name = some (.object child) → child.Layer
  | [], _, _ => nofun
  | (_, node) :: fields, h, hweight => by
    intro name child hget
    rw [weightFields] at hweight
    rw [Keyed.get?_cons] at hget
    split at hget
    · have hnode : node.weight = 0 := by omega
      exact Node.Tidy.layer (h.nodes _ List.mem_cons_self) hnode child (Option.some.inj hget)
    · exact Fields.Tidy.layers (h.of_sublist (List.sublist_cons_self _ _)) (by omega) name child
        hget

theorem Node.Tidy.layer : ∀ {node : Node}, node.Tidy → node.weight = 0 →
    ∀ o, node = .object o → o.Layer
  | .object _, h, hweight, _, rfl => Object.Tidy.layer h.of_object hweight

end

/-! ## What a name holds -/

namespace Node

theorem eq_object_of_isObject {node : Node} (h : node.isObject = true) :
    ∃ o, node = .object o := by
  cases node with
  | object o => exact ⟨o, rfl⟩
  | option binding => cases h
  | list name items => cases h

/-- What a name holds when what it holds above is laid over what it holds below. -/
def layered (below above : Option Node) : Option Node :=
  above.elim below fun node => some (Method.merge.combine below node)

theorem layered_none (above : Option Node) : layered none above = above := by
  cases above with
  | none => rfl
  | some node => exact congrArg some (Method.combine_none _ node)

theorem layered_objects (a b : Object) :
    layered (some (.object a)) (some (.object b)) = some (.object (a.overlay b)) :=
  rfl

/-- What is no object hides all that lies below it. -/
theorem layered_of_not_isObject {above : Node} (h : above.isObject = false)
    (below : Option Node) : layered below (some above) = some above := by
  refine congrArg some (Method.combine_merge ?_)
  rintro o rfl
  cases h

/-- Two nodes are laid over one another only if both are objects; else the upper one is left. -/
theorem layered_cases (below above : Node) :
    (∃ a b, below = .object a ∧ above = .object b) ∨
      layered (some below) (some above) = some above := by
  cases above with
  | option binding => exact .inr (layered_of_not_isObject rfl _)
  | list name items => exact .inr (layered_of_not_isObject rfl _)
  | object b =>
      cases below with
      | object a => exact .inl ⟨a, b, rfl, rfl⟩
      | option binding => exact .inr rfl
      | list name items => exact .inr rfl

end Node

open Node (layered layered_none layered_objects layered_of_not_isObject layered_cases)

variable {fields incoming : Fields}

theorem get?_mergeFields (hincoming : incoming.Proper) (name : String) :
    Keyed.get? (mergeFields fields incoming) name =
      layered (Keyed.get? fields name) (Keyed.get? incoming name) := by
  induction incoming generalizing fields with
  | nil =>
      rw [mergeFields]
      rfl
  | cons field incoming ih =>
      obtain ⟨key, node⟩ := field
      have hkey : node.name = key := hincoming.named _ List.mem_cons_self
      rw [mergeFields, ih hincoming.tail, mergeNode_eq, Keyed.get?_put, Keyed.get?_cons, hkey]
      by_cases hname : name = key
      · -- no later field has the name
        have hfresh : Keyed.get? incoming name = none :=
          Keyed.get?_eq_none.mpr (hname ▸ (List.nodup_cons.mp hincoming.distinct).1)
        rw [if_pos hname, if_pos hname.symm, hfresh, hname]
        rfl
      · rw [if_neg hname, if_neg (Ne.symm hname)]

theorem keys_mergeFields (hincoming : incoming.Proper) :
    Keyed.keys (mergeFields fields incoming) =
      Keyed.keys fields ++ (Keyed.keys incoming).filter (· ∉ Keyed.keys fields) := by
  have hfresh : Keyed.keys (fields.fresh incoming) =
      (Keyed.keys incoming).filter (· ∉ Keyed.keys fields) := by
    have hmap : Keyed.keys incoming = incoming.map Prod.fst := rfl
    rw [hmap, List.filter_map, Fields.fresh]
    refine congrArg _ (List.filter_congr fun field _ => ?_)
    rw [Function.comp, Bool.eq_iff_iff, Bool.not_eq_true', ← Bool.not_eq_true, Keyed.contains_iff,
      decide_eq_true_iff]
  rw [mergeFields_eq_append hincoming, Keyed.keys, List.map_append]
  exact congrArg₂ _ (keys_mergeFields_known rfl hincoming.named) hfresh

/-- Known names keep their places. -/
theorem keys_mergeFields_of_subset (hincoming : incoming.Proper)
    (h : Keyed.keys incoming ⊆ Keyed.keys fields) :
    Keyed.keys (mergeFields fields incoming) = Keyed.keys fields := by
  have hnone : (Keyed.keys incoming).filter (· ∉ Keyed.keys fields) = [] :=
    List.filter_eq_nil_iff.mpr fun name hname => by simpa using h hname
  rw [keys_mergeFields hincoming, hnone, List.append_nil]

theorem subset_keys_mergeFields (fields : Fields) (hincoming : incoming.Proper) :
    Keyed.keys incoming ⊆ Keyed.keys (mergeFields fields incoming) := by
  intro name hname
  rw [keys_mergeFields hincoming, List.mem_append, List.mem_filter, decide_eq_true_iff]
  exact (Decidable.em (name ∈ Keyed.keys fields)).imp_right fun hnew => ⟨hname, hnew⟩

/-- The names of three layers come in one order, however the layers are grouped. -/
theorem keys_mergeFields_assoc {below : Fields} (hfields : fields.Proper)
    (hincoming : incoming.Proper) :
    Keyed.keys (mergeFields (mergeFields below fields) incoming) =
      Keyed.keys (mergeFields below (mergeFields fields incoming)) := by
  rw [keys_mergeFields hincoming, keys_mergeFields hfields,
    keys_mergeFields (hfields.mergeFields incoming), keys_mergeFields hincoming,
    List.filter_append, List.filter_filter, List.append_assoc]
  refine congrArg _ (congrArg _ (List.filter_congr fun name _ => ?_))
  by_cases hbelow : name ∈ Keyed.keys below <;> simp [hbelow]

/-! ## Two layers -/

namespace Object

variable {a b c : Object}

theorem overlay_of_bare (hb : b.directives = []) :
    a.overlay b =
      { a with label := b.label.or a.label, fields := mergeFields a.fields b.fields } := by
  rw [overlay_eq, moved, hb, List.map_nil, List.append_nil]
  rfl

/-- An object without fields that is laid over another gives its label at most. -/
theorem overlay_of_empty (hfields : b.fields = []) (hb : b.directives = []) :
    a.overlay b = { a with label := b.label.or a.label } := by
  rw [overlay_of_bare hb, hfields, mergeFields]

/-- An object without fields that lies below another takes its fields. -/
theorem overlay_over_empty (hfields : a.fields = []) (hb : b.Layer) :
    a.overlay b = { a with label := b.label.or a.label, fields := b.fields } := by
  have hnew : mergeFields [] b.fields = _ := mergeFields_eq_append hb.proper
  have hfresh : Fields.fresh [] b.fields = b.fields := List.filter_eq_self.mpr fun _ _ => rfl
  have hknown : Fields.known [] b.fields = [] := List.filter_eq_nil_iff.mpr fun _ _ => nofun
  rw [hknown, hfresh, mergeFields, List.nil_append] at hnew
  rw [overlay_of_bare hb.bare, hfields, hnew]

namespace Layer

theorem overlay_self (h : a.Layer) : a.overlay a = a := by
  induction h with
  | @intro a bare proper _ ih =>
      have hkeys := keys_mergeFields_of_subset proper (List.Subset.refl (Keyed.keys a.fields))
      have hfields : mergeFields a.fields a.fields = a.fields := by
        refine Keyed.ext_get? hkeys (proper.mergeFields _).distinct fun name => ?_
        rw [get?_mergeFields proper]
        cases hget : Keyed.get? a.fields name with
        | none => rfl
        | some node =>
            rcases layered_cases node node with ⟨child, _, rfl, -⟩ | hupper
            · rw [layered_objects, ih name child hget]
            · exact hupper
      rw [overlay_of_bare bare, hfields, Option.or_self]
      cases a
      rfl

theorem overlay_twice (ha : a.Layer) (hb : b.Layer) : (a.overlay b).overlay b = a.overlay b := by
  induction hb generalizing a with
  | @intro b bare proper inner ih =>
      have hproper := ha.proper.mergeFields b.fields
      have hkeys := keys_mergeFields_of_subset proper (subset_keys_mergeFields a.fields proper)
      have hfields : mergeFields (mergeFields a.fields b.fields) b.fields =
          mergeFields a.fields b.fields := by
        refine Keyed.ext_get? hkeys (hproper.mergeFields _).distinct fun name => ?_
        rw [get?_mergeFields proper, get?_mergeFields proper]
        cases habove : Keyed.get? b.fields name with
        | none => rfl
        | some above =>
            -- alone, the upper node changes nothing when it comes again
            have hself : layered (some above) (some above) = some above := by
              rcases layered_cases above above with ⟨child, _, rfl, -⟩ | hupper
              · rw [layered_objects, (inner name child habove).overlay_self]
              · exact hupper
            cases hbelow : Keyed.get? a.fields name with
            | none => rw [layered_none, hself]
            | some below =>
                rcases layered_cases below above with ⟨x, y, rfl, rfl⟩ | hupper
                · rw [layered_objects, layered_objects, ih name y habove (ha.inner name x hbelow)]
                · rw [hupper, hself]
      rw [overlay_of_bare bare, overlay_of_bare bare]
      dsimp only
      rw [hfields, ← Option.or_assoc, Option.or_self]

end Layer

/-! ## Three layers -/

/-- The object that a path of names leads to. -/
def inside? (o : Object) : List String → Option Object
  | [] => some o
  | name :: path =>
    match o.get? name with
    | some (.object inner) => inner.inside? path
    | _ => none

theorem inside?_cons {o inner : Object} {name : String} (h : o.get? name = some (.object inner))
    (path : List String) : o.inside? (name :: path) = inner.inside? path := by
  rw [inside?, h]

/-- Where each of three objects has an object, no name is an object in one of these and an option
or a list in another. -/
def Compatible (a b c : Object) : Prop :=
  ∀ path x y z, a.inside? path = some x → b.inside? path = some y → c.inside? path = some z →
    ∀ name, ∀ node ∈ [x, y, z].filterMap (·.get? name), ∀ other ∈ [x, y, z].filterMap (·.get? name),
      node.isObject = other.isObject

theorem exists_of_inside?_cons {o x : Object} {name : String} {path : List String}
    (h : o.inside? (name :: path) = some x) :
    ∃ inner, o.get? name = some (.object inner) ∧ inner.inside? path = some x := by
  rw [inside?] at h
  split at h
  · exact ⟨_, by assumption, h⟩
  · cases h

/-- Objects are compatible if their fields are all of one kind and the objects among these are
compatible. -/
theorem Compatible.of_uniform (isObject : Bool)
    (h : ∀ o ∈ [a, b, c], ∀ field ∈ o.fields, field.2.isObject = isObject)
    (hinner : ∀ name x y z, a.get? name = some (.object x) → b.get? name = some (.object y) →
      c.get? name = some (.object z) → Compatible x y z) : Compatible a b c := by
  intro path x y z hx hy hz
  cases path with
  | nil =>
      cases hx; cases hy; cases hz
      have hheld : ∀ name, ∀ node ∈ [a, b, c].filterMap (·.get? name),
          node.isObject = isObject := by
        intro name node hmem
        obtain ⟨o, ho, hget⟩ := List.mem_filterMap.mp hmem
        exact h o ho _ (Keyed.mem_of_get? hget)
      intro name node hnode other hother
      rw [hheld name node hnode, hheld name other hother]
  | cons name path =>
      obtain ⟨x', hx', hx⟩ := exists_of_inside?_cons hx
      obtain ⟨y', hy', hy⟩ := exists_of_inside?_cons hy
      obtain ⟨z', hz', hz⟩ := exists_of_inside?_cons hz
      exact hinner name x' y' z' hx' hy' hz' path x y z hx hy hz

theorem Compatible.inner (h : Compatible a b c) {name : String} {x y z : Object}
    (hx : a.get? name = some (.object x)) (hy : b.get? name = some (.object y))
    (hz : c.get? name = some (.object z)) : Compatible x y z := by
  intro path x' y' z' hx' hy' hz'
  apply h (name :: path)
  · rw [inside?_cons hx, hx']
  · rw [inside?_cons hy, hy']
  · rw [inside?_cons hz, hz']

/-- **Layers can be grouped either way** if no object lies below something else that lies below an
object. -/
theorem Layer.overlay_assoc (ha : a.Layer) (hb : b.Layer) (hc : c.Layer) (h : Compatible a b c) :
    (a.overlay b).overlay c = a.overlay (b.overlay c) := by
  induction ha generalizing b c with
  | @intro a bare proper _ ih =>
      have hbelow := proper.mergeFields b.fields
      have habove := hb.proper.mergeFields c.fields
      have hfields : mergeFields (mergeFields a.fields b.fields) c.fields =
          mergeFields a.fields (mergeFields b.fields c.fields) := by
        refine Keyed.ext_get? (keys_mergeFields_assoc hb.proper hc.proper)
          (hbelow.mergeFields _).distinct fun name => ?_
        rw [get?_mergeFields hc.proper, get?_mergeFields hb.proper, get?_mergeFields habove,
          get?_mergeFields hc.proper]
        have hkinds := h [] a b c rfl rfl rfl name
        cases hx : Keyed.get? a.fields name with
        | none => rw [layered_none, layered_none]
        | some lower =>
            cases hy : Keyed.get? b.fields name with
            | none => rw [layered_none]; rfl
            | some middle =>
                cases hz : Keyed.get? c.fields name with
                | none => rfl
                | some upper =>
                    have hlower : lower.isObject = upper.isObject :=
                      hkinds lower (List.mem_filterMap.mpr ⟨a, by simp, hx⟩) upper
                        (List.mem_filterMap.mpr ⟨c, by simp, hz⟩)
                    have hmiddle : middle.isObject = upper.isObject :=
                      hkinds middle (List.mem_filterMap.mpr ⟨b, by simp, hy⟩) upper
                        (List.mem_filterMap.mpr ⟨c, by simp, hz⟩)
                    cases hupper : upper.isObject with
                    | false => simp only [layered_of_not_isObject hupper]
                    | true =>
                        obtain ⟨x, rfl⟩ := Node.eq_object_of_isObject (hlower.trans hupper)
                        obtain ⟨y, rfl⟩ := Node.eq_object_of_isObject (hmiddle.trans hupper)
                        obtain ⟨z, rfl⟩ := Node.eq_object_of_isObject hupper
                        simp only [layered_objects]
                        rw [ih name x hx (hb.inner name y hy) (hc.inner name z hz)
                          (h.inner hx hy hz)]
      rw [overlay_of_bare hc.bare, overlay_of_bare hb.bare, overlay_of_bare (b := b.overlay c),
        overlay_of_bare hc.bare]
      · dsimp only
        rw [hfields, Option.or_assoc]
      · rw [overlay_of_bare hc.bare]
        exact hb.bare

end Object

/-- **The algebra of layers.**  Overlaying is idempotent, an object without fields and label changes
no field on either side, and layers of compatible kinds can be grouped either way; names, labels,
comments and the order of the fields come out the same. -/
theorem overlay_laws {a b c : Object} (ha : a.Layer) (hb : b.Layer) (hc : c.Layer) :
    a.overlay a = a ∧
    (a.overlay b).overlay b = a.overlay b ∧
    (∀ e : Object, e.fields = [] → e.label = none → e.directives = [] →
      a.overlay e = a ∧ e.overlay a = { e with label := a.label, fields := a.fields }) ∧
    (Object.Compatible a b c → (a.overlay b).overlay c = a.overlay (b.overlay c)) := by
  refine ⟨ha.overlay_self, ha.overlay_twice hb, ?_, ha.overlay_assoc hb hc⟩
  intro e hfields hlabel hbare
  constructor
  · rw [Object.overlay_of_empty hfields hbare, hlabel]
    cases a
    rfl
  · rw [Object.overlay_over_empty hfields ha, hlabel, Option.or_none]

/-- What is hidden below an option shows again if the option is hidden first. -/
example :
    let option (name : String) : Node := .option ⟨name, .array [], .none, .start⟩
    let document (node : Node) : Object := (Object.empty "" .start).insert node
    let service : Object := .empty "service" .start
    let a := document (.object (service.insert (option "host")))
    let b := document (option "service")
    let c := document (.object (service.insert (option "port")))
    let names (o : Object) : Option (List String) :=
      (o.inside? ["service"]).map fun inner => Keyed.keys inner.fields
    names ((a.overlay b).overlay c) = some ["port"] ∧
      names (a.overlay (b.overlay c)) = some ["host", "port"] := by
  decide +kernel

/-- A service that is given a port and a host, then a label and a user, and then another port. -/
theorem overlay_laws_of_services :
    let option (name base : String) : Node := .option ⟨name, .var .base base .start, .none, .start⟩
    let document (o : Object) : Object := (Object.empty "" .start).insert (.object o)
    let service : Object := .empty "service" .start
    let a := (service.insert (option "port" "low")).insert (option "host" "name")
    let b := { service with label := some "main" }.insert (option "user" "admin")
    let c := service.insert (option "port" "high")
    (document a).Layer ∧ (document b).Layer ∧ (document c).Layer ∧
      Object.Compatible (document a) (document b) (document c) ∧
      ((document a).overlay (document b)).overlay (document c) =
        (document a).overlay ((document b).overlay (document c)) ∧
      (document a).overlay (.empty "" .start) = document a := by
  intro option document service a b c
  have hlayer : ∀ o : Object, o.Tidy → o.weight = 0 → (document o).Layer := by
    intro o ho hweight
    refine ((Object.Tidy.empty "" .start).insert (.object ho)).layer ?_
    change o.weight + 0 + 0 = 0
    rw [hweight]
  have hservice : service.Tidy := .empty _ _
  have hlabelled : ({ service with label := some "main" } : Object).Tidy := by
    refine .mk' ?_ .nil nofun
    rintro label ⟨⟩
    decide
  have ha := hlayer a ((hservice.insert (.option _)).insert (.option _)) (by decide +kernel)
  have hb := hlayer b (hlabelled.insert (.option _)) (by decide +kernel)
  have hc := hlayer c (hservice.insert (.option _)) (by decide +kernel)
  -- the documents hold nothing but a service, and the services nothing but options
  have hblocks : Object.Compatible a b c := by
    have hoptions : ∀ o ∈ [a, b, c], ∀ field ∈ o.fields, field.2.isObject = false := by decide
    refine .of_uniform false hoptions fun name x _ _ hx _ _ => ?_
    cases hoptions a List.mem_cons_self _ (Keyed.mem_of_get? hx)
  have hinner : ∀ o x : Object, ∀ name, (document o).get? name = some (.object x) → x = o := by
    intro o x name hx
    obtain ⟨-, h⟩ := Prod.ext_iff.mp (List.mem_singleton.mp (Keyed.mem_of_get? hx))
    exact Node.object.inj h
  have hcompatible : Object.Compatible (document a) (document b) (document c) := by
    refine .of_uniform true (by decide) fun name x y z hx hy hz => ?_
    rwa [hinner a x name hx, hinner b y name hy, hinner c z name hz]
  obtain ⟨-, -, hempty, hgroup⟩ := overlay_laws ha hb hc
  exact ⟨ha, hb, hc, hcompatible, hgroup hcompatible, (hempty _ rfl rfl rfl).1⟩

end ConfigLang
