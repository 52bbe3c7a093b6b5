import Mathlib
import ConfigLang.Proofs.Expand.Overlay
import ConfigLang.Proofs.Parse.Tidy
import ConfigLang.Source.FileTree

/-!
# Directives that are moved by an overlay

The expander merges the fields that the lower object has too before any directive of
the upper one runs.  Under a name this makes a difference only if a directive above
the field of that name brings it too (`Overtaken`): what it brings then lies over the
field, where the text has it under the field.

## Strategy

The fields are compared one name at a time.  What arrives under a name is the same in
the same order unless the name is overtaken, and the names arrive in the same order in
any case.

* **Hoisting.**  `hoisted` has the known fields in front of all other arrivals.  Under a
  new name the same arrives (`hoisted_filter`), and under a known one the field comes
  first (`under_hoisted_field`).
* **Two objects.**  `Relocated` compares the fields that come out, name by name:
  `get?_hoisted_field` and `get?_arrivals_field` say what a known name holds in either,
  and `brought_of_settle_eq` that a directive is to blame if these differ.
* **Running both.**  The effects are the same in both, since no directive sees fields; so
  `expandObject_overlay` only has to compare the arrivals.
-/

namespace ConfigLang

open Running

/-- A directive above the field of a name brings a field of that name too. -/
def Overtaken (items : List Item) (es : List Effect) (name : String) : Prop :=
  ∃ above node below, items = above ++ .field node :: below ∧ node.name = name ∧
    ∃ e ∈ es.take (Item.directives above).length, e.Brings name

/-- What arrives in an object if the fields that it has are merged first. -/
def hoisted (a b : Object) (es : List Effect) : List Arrival :=
  (Fields.known a.fields b.fields).map (fun field => ⟨.merge, field.2⟩) ++
    Item.arrivals (b.items.filter (!Item.isKnown a.fields ·)) es

/-- No two fields of an object have one name. -/
theorem Item.not_mem_names_of_proper {o : Object} (h : Fields.Proper o.fields)
    {above below : List Item} {node : Node} (hitems : o.items = above ++ .field node :: below) :
    node.name ∉ names above ∧ node.name ∉ names below := by
  have hnames : names above ++ node.name :: names below = Keyed.keys o.fields := by
    rw [← Object.names_items h, hitems, names_append]
    rfl
  have hdistinct := h.distinct
  rw [← hnames, List.nodup_middle, List.nodup_cons, List.mem_append, not_or] at hdistinct
  exact hdistinct.1

section

variable {a b : Object} {es : List Effect} {name : String}

/-- Under new names the same arrives. -/
theorem hoisted_filter (hb : Fields.Proper b.fields) {q : Arrival → Bool}
    (hq : ∀ node : Node, node.name ∈ Keyed.keys a.fields → q ⟨.merge, node⟩ = false) :
    (hoisted a b es).filter q = (Item.arrivals b.items es).filter q := by
  have hknown : ((Fields.known a.fields b.fields).map
      (fun field => (⟨.merge, field.2⟩ : Arrival))).filter q = [] := by
    apply List.filter_eq_nil_iff.mpr
    intro arrival hmem
    obtain ⟨field, hfield, rfl⟩ := List.mem_map.mp hmem
    obtain ⟨hmem, hcontains⟩ := List.mem_filter.mp hfield
    rw [hq field.2 (by rw [hb.named field hmem]; exact Keyed.contains_iff.mp hcontains)]
    exact Bool.false_ne_true
  unfold hoisted
  rw [List.filter_append, hknown, List.nil_append]
  refine Item.arrivals_filter _ q (fun _ => rfl) (fun node hnode => hq node ?_) _ es
  exact Keyed.contains_iff.mp (by simpa [Item.isKnown] using hnode)

/-- Under a known name the field arrives first and what the directives bring comes then. -/
theorem under_hoisted_field (hb : Fields.Proper b.fields) {above below : List Item} {node : Node}
    (hitems : b.items = above ++ .field node :: below)
    (hknown : node.name ∈ Keyed.keys a.fields) :
    Arrival.under node.name (hoisted a b es) = ⟨.merge, node⟩ :: Effect.underName node.name es := by
  have hapart := Item.not_mem_names_of_proper hb hitems
  -- among the fields of the upper object the node is the only one of its name
  have honly : Arrival.under node.name (b.fields.map fun field => ⟨.merge, field.2⟩) =
      [⟨.merge, node⟩] := by
    have h := Item.under_arrivals_field _ hapart.1 hapart.2 []
    rw [← hitems, Object.items, Item.arrivals_interleave_nil, List.take_nil, List.drop_nil] at h
    exact h
  have hfirst : Arrival.under node.name
      ((Fields.known a.fields b.fields).map fun field => ⟨.merge, field.2⟩) = [⟨.merge, node⟩] := by
    rw [← honly]
    unfold Arrival.under Fields.known
    rw [List.filter_map, List.filter_map, List.filter_filter]
    refine congrArg _ (List.filter_congr fun field hmem => ?_)
    rw [Bool.and_eq_left_iff_imp, Function.comp_apply, decide_eq_true_eq]
    intro hname
    rw [Keyed.contains_iff, ← hb.named field hmem, hname]
    exact hknown
  have hrest : node.name ∉ Item.names (b.items.filter (!Item.isKnown a.fields ·)) := by
    intro hmem
    obtain ⟨other, hother, hname⟩ := Item.mem_names.mp hmem
    have hcontains := (List.mem_filter.mp hother).2
    rw [Item.isKnown, hname, Keyed.contains_iff.mpr hknown] at hcontains
    exact Bool.false_ne_true hcontains
  unfold hoisted
  rw [Arrival.under, List.filter_append]
  exact (congrArg₂ (· ++ ·) hfirst (Item.under_arrivals hrest)).trans rfl

theorem under_hoisted_of_not_mem (hb : Fields.Proper b.fields) (h : name ∉ Keyed.keys b.fields) :
    Arrival.under name (hoisted a b es) = Arrival.under name (Item.arrivals b.items es) := by
  have hnames : name ∉ Item.names b.items := by
    rw [Object.names_items hb]
    exact h
  have hrest : name ∉ Item.names (b.items.filter (!Item.isKnown a.fields ·)) := by
    intro hmem
    obtain ⟨node, hnode, hname⟩ := Item.mem_names.mp hmem
    exact hnames (Item.mem_names.mpr ⟨node, List.mem_of_mem_filter hnode, hname⟩)
  have hfirst : Arrival.under name
      ((Fields.known a.fields b.fields).map fun field => ⟨.merge, field.2⟩) = [] := by
    apply List.filter_eq_nil_iff.mpr
    intro arrival hmem
    obtain ⟨field, hfield, rfl⟩ := List.mem_map.mp hmem
    have hmem := (List.mem_filter.mp hfield).1
    rw [decide_eq_true_eq, hb.named field hmem]
    rintro rfl
    exact h (List.mem_map_of_mem hmem)
  rw [Item.under_arrivals hnames, hoisted, Arrival.under, List.filter_append]
  exact (congrArg₂ (· ++ ·) hfirst (Item.under_arrivals hrest)).trans (List.nil_append _)

end

/-! ## The two objects compared -/

/-- How the fields of an object that was laid over another come out, in `o`, against what its
items give in their order, in `o'`, where its directives bring `es`. -/
structure Relocated (a b : Object) (es : List Effect) (o o' : Object) : Prop where
  names : Keyed.keys o.fields = Keyed.keys o'.fields
  same : ∀ name, (name ∈ Keyed.keys a.fields → ¬ Overtaken b.items es name) →
    o.get? name = o'.get? name
  eq : (∀ name ∈ Keyed.keys a.fields, ¬ Overtaken b.items es name) → o = o'
  /-- A field of a known name arrives before what any directive brings. -/
  first : ∀ above node below, b.items = above ++ .field node :: below →
    node.name ∈ Keyed.keys a.fields →
      o.get? node.name =
        Arrival.settle (a.get? node.name) (⟨.merge, node⟩ :: Effect.underName node.name es)
  /-- In order it arrives behind what the directives above it bring. -/
  inOrder : ∀ above node below, b.items = above ++ .field node :: below →
    o'.get? node.name =
      Arrival.settle (a.get? node.name)
        (Effect.underName node.name (es.take (Item.directives above).length) ++
          ⟨.merge, node⟩ :: Effect.underName node.name (es.drop (Item.directives above).length))
  /-- An option that is overtaken is lost, unless a directive brings just that option. -/
  lost : ∀ above c below, b.items = above ++ .field (.option c) :: below →
    c.name ∈ Keyed.keys a.fields →
    (∀ e ∈ es.drop (Item.directives above).length, ¬ e.Brings c.name) →
    (∃ e ∈ es.take (Item.directives above).length, e.Brings c.name) →
      o'.get? c.name = some (.option c) ∧
        (o.get? c.name = some (.option c) → ∃ e ∈ es, ∃ field ∈ e.fields, field.2 = .option c)

section

variable {a b : Object} {es : List Effect}

theorem under_hoisted (hb : Fields.Proper b.fields) {name : String}
    (h : name ∈ Keyed.keys a.fields → ¬ Overtaken b.items es name) :
    Arrival.under name (hoisted a b es) = Arrival.under name (Item.arrivals b.items es) := by
  by_cases ha : name ∈ Keyed.keys a.fields
  · by_cases hname : name ∈ Keyed.keys b.fields
    · rw [← Object.names_items hb] at hname
      obtain ⟨node, hmem, rfl⟩ := Item.mem_names.mp hname
      obtain ⟨above, below, hitems⟩ := List.append_of_mem hmem
      have hapart := Item.not_mem_names_of_proper hb hitems
      have habove : Effect.underName node.name (es.take (Item.directives above).length) = [] :=
        Effect.underName_eq_nil fun e he hbrings =>
          h ha ⟨above, node, below, hitems, rfl, e, he, hbrings⟩
      have hsplit := Effect.underName_append node.name (es.take (Item.directives above).length)
        (es.drop (Item.directives above).length)
      rw [List.take_append_drop, habove, List.nil_append] at hsplit
      rw [under_hoisted_field hb hitems ha, hitems, Item.under_arrivals_field _ hapart.1 hapart.2,
        habove, List.nil_append, hsplit]
    · exact under_hoisted_of_not_mem hb hname
  · refine hoisted_filter hb fun node hmem => decide_eq_false fun hname => ha ?_
    rw [← hname]
    exact hmem

theorem keys_hoisted (hb : Fields.Proper b.fields) (es : List Effect) :
    Keyed.keys ((a.relabel b).combineEach (hoisted a b es)).fields =
      Keyed.keys ((a.relabel b).combineEach (Item.arrivals b.items es)).fields := by
  have hknown : ∀ name ∈ Keyed.keys a.fields, name ∈ Keyed.keys (a.relabel b).fields :=
    fun _ => id
  rw [Object.keys_combineEach (a.relabel b) rfl hknown,
    Object.keys_combineEach (a.relabel b) rfl hknown (Item.arrivals b.items es),
    hoisted_filter hb fun node hmem => decide_eq_false (not_not.mpr hmem)]

theorem get?_hoisted_field (hb : Fields.Proper b.fields) {above below : List Item} {node : Node}
    (hitems : b.items = above ++ .field node :: below)
    (hknown : node.name ∈ Keyed.keys a.fields) :
    ((a.relabel b).combineEach (hoisted a b es)).get? node.name =
      Arrival.settle (a.get? node.name) (⟨.merge, node⟩ :: Effect.underName node.name es) := by
  rw [Object.get?_combineEach, under_hoisted_field hb hitems hknown]
  rfl

theorem get?_arrivals_field (hb : Fields.Proper b.fields) {above below : List Item} {node : Node}
    (hitems : b.items = above ++ .field node :: below) :
    ((a.relabel b).combineEach (Item.arrivals b.items es)).get? node.name =
      Arrival.settle (a.get? node.name)
        (Effect.underName node.name (es.take (Item.directives above).length) ++
          ⟨.merge, node⟩ ::
            Effect.underName node.name (es.drop (Item.directives above).length)) := by
  have hapart := Item.not_mem_names_of_proper hb hitems
  rw [Object.get?_combineEach, hitems, Item.under_arrivals_field _ hapart.1 hapart.2]
  rfl

/-- What lies over an option is the option itself only if a directive brings it. -/
theorem brought_of_settle_eq {c : Binding} {held : Option Node}
    (hbrings : ∃ e ∈ es, e.Brings c.name)
    (h : Arrival.settle held (⟨.merge, .option c⟩ :: Effect.underName c.name es) =
      some (.option c)) : ∃ e ∈ es, ∃ field ∈ e.fields, field.2 = .option c := by
  rw [Arrival.settle_merge_cons (by rintro _ ⟨⟩)] at h
  rcases Arrival.settle_eq_option h with hempty | ⟨arrival, hmem, hnode⟩
  · -- something does arrive over the option
    obtain ⟨e, he, field, hfield, hname⟩ := hbrings
    have hmem : (⟨e.method, field.2⟩ : Arrival) ∈ Effect.underName c.name es :=
      Effect.mem_underName.mpr ⟨hname, e, he, rfl, field, hfield, rfl⟩
    rw [hempty] at hmem
    cases hmem
  · obtain ⟨-, e, he, -, field, hfield, heq⟩ := Effect.mem_underName.mp hmem
    exact ⟨e, he, field, hfield, heq.trans hnode⟩

theorem relocated (ha : Fields.Proper a.fields) (hb : Fields.Proper b.fields) (es : List Effect) :
    Relocated a b es ((a.relabel b).combineEach (hoisted a b es))
      ((a.relabel b).combineEach (Item.arrivals b.items es)) where
  names := keys_hoisted hb es
  same name h := by
    rw [Object.get?_combineEach, Object.get?_combineEach, under_hoisted hb h]
  eq h := by
    -- nothing but fields can differ, and these agree under every name
    have hdistinct := Object.nodup_keys_combineEach (o := a.relabel b) ha.distinct (hoisted a b es)
    have hfields := Keyed.ext_get? (keys_hoisted hb es) hdistinct fun name => by
      have hunder := under_hoisted hb (h name)
      change Object.get? _ name = Object.get? _ name
      rw [Object.get?_combineEach, Object.get?_combineEach, hunder]
    rw [Object.combineEach_eq, Object.combineEach_eq (a.relabel b) (Item.arrivals b.items es),
      hfields]
  first _ _ _ hitems hknown := get?_hoisted_field hb hitems hknown
  inOrder _ _ _ hitems := get?_arrivals_field hb hitems
  lost above c below hitems hknown hbelow habove := by
    have horder := @get?_arrivals_field a b es hb _ _ _ hitems
    have hfirst := @get?_hoisted_field a b es hb _ _ _ hitems hknown
    rw [show (Node.option c).name = c.name from rfl] at horder hfirst
    constructor
    · rw [horder, Effect.underName_eq_nil hbelow, Arrival.settle_append,
        Arrival.settle_merge_cons (by rintro _ ⟨⟩)]
      rfl
    · intro heq
      obtain ⟨e, he, hbrings⟩ := habove
      exact brought_of_settle_eq ⟨e, List.mem_of_mem_take he, hbrings⟩ (hfirst.symm.trans heq)

end

/-! ## Running both -/

namespace Expander

/-- **What an overlay does to directives.**  Expanding an object that was laid over another one
without directives runs the same directives as reading its items in order on top of that one, and
leaves the same names in the same order.  Under a name that no directive brings above its field
it leaves the same node; if there is no other name, the two are the same in every respect. -/
theorem expandObject_overlay {σ : Type} (x : Expander (StateM σ)) (weight : Nat) (scope : Scope)
    {a b : Object} (ha : a.weight = 0) (hafields : Fields.Proper a.fields)
    (hbfields : Fields.Proper b.fields) (before : σ) :
    (∀ e after, (x.effects (Object.descend (x.expandObject weight)) scope b.directives).run.run
        before = (.error e, after) →
      (x.expandObject (weight + 1) scope (a.overlay b)).run.run before = (.error e, after) ∧
        (x.readOver weight scope a b).run.run before = (.error e, after)) ∧
    (∀ es after, (x.effects (Object.descend (x.expandObject weight)) scope b.directives).run.run
        before = (.ok es, after) →
      ((∀ name ∈ Keyed.keys a.fields, ¬ Overtaken b.items es name) →
        (x.expandObject (weight + 1) scope (a.overlay b)).run.run before =
          (x.readOver weight scope a b).run.run before) ∧
      ∃ o o', Relocated a b es o o' ∧
        (x.expandObject (weight + 1) scope (a.overlay b)).run.run before =
          (o.descend (x.expandObject weight) (Effect.visible scope es)).run.run after ∧
        (x.readOver weight scope a b).run.run before =
          (o'.descend (x.expandObject weight) (Effect.visible scope es)).run.run after) := by
  have hexpand := expandObject_overlay_eq x weight scope ha hafields hbfields
  have hread := readOver_eq x weight scope ha b
  constructor
  · intro e after h
    constructor
    · rw [hexpand, Running.run_bind, h]
      rfl
    · rw [hread, Running.run_bind, h]
      rfl
  · intro es after h
    have hrelocated := relocated hafields hbfields es
    have hover : (x.expandObject (weight + 1) scope (a.overlay b)).run.run before =
        (((a.relabel b).combineEach (hoisted a b es)).descend (x.expandObject weight)
          (Effect.visible scope es)).run.run after := by
      rw [hexpand, Running.run_bind, h]
      rfl
    have horder : (x.readOver weight scope a b).run.run before =
        (((a.relabel b).combineEach (Item.arrivals b.items es)).descend (x.expandObject weight)
          (Effect.visible scope es)).run.run after := by
      rw [hread, Running.run_bind, h]
      rfl
    refine ⟨fun hnone => ?_, _, _, hrelocated, hover, horder⟩
    rw [hover, horder, hrelocated.eq hnone]

/-- The object `x = 1`, `.apply(extra)` over `host = 1`, `x = 0`, where `extra` is `x = 9`. -/
theorem expandObject_overlay_of_apply :
    ∃ (x : Expander (StateM Unit)) (a b extra : Object) (es : List Effect),
      parseDocument "host = 1\nx = 0\n" = .ok a ∧ parseDocument "x = 1\n.apply(extra)\n" = .ok b ∧
      parseDocument "x = 9\n" = .ok extra ∧ a.weight = 0 ∧ Fields.Proper a.fields ∧
      Fields.Proper b.fields ∧
      (x.effects (Object.descend (x.expandObject 0)) [("extra", .block extra)]
        b.directives).run.run () = (.ok es, ()) ∧
      ((∀ name ∈ Keyed.keys a.fields, ¬ Overtaken b.items es name) →
        (x.expandObject 1 [("extra", .block extra)] (a.overlay b)).run.run () =
          (x.readOver 0 [("extra", .block extra)] a b).run.run ()) ∧
      ∃ o o', Relocated a b es o o' ∧
        (x.expandObject 1 [("extra", .block extra)] (a.overlay b)).run.run () =
          (o.descend (x.expandObject 0) (Effect.visible [("extra", .block extra)] es)).run.run () ∧
        (x.readOver 0 [("extra", .block extra)] a b).run.run () =
          (o'.descend (x.expandObject 0)
            (Effect.visible [("extra", .block extra)] es)).run.run () := by
  let x : Expander (StateM Unit) :=
    ⟨⟨(FileTree.mk [] []).host, (FileTree.mk [] []).source, .ofBase .empty⟩, "", 0, none⟩
  have hfound : (match parseDocument "host = 1\nx = 0\n", parseDocument "x = 1\n.apply(extra)\n",
      parseDocument "x = 9\n" with
      | .ok a, .ok b, .ok extra =>
        a.weight == 0 && (match (x.effects (Object.descend (x.expandObject 0))
            [("extra", .block extra)] b.directives).run.run () with
          | (.ok _, _) => true
          | (.error _, _) => false)
      | _, _, _ => false) = true := by decide +kernel
  split at hfound
  · rename_i a b extra ha hb hextra
    obtain ⟨hweight, hfound⟩ := (Bool.and_eq_true_iff ..).mp hfound
    split at hfound
    · rename_i es _ hes
      have hweight : a.weight = 0 := beq_iff_eq.mp hweight
      have haproper := (tidy_parseDocument ha).fields.proper
      have hbproper := (tidy_parseDocument hb).fields.proper
      exact ⟨x, a, b, extra, es, ha, hb, hextra, hweight, haproper, hbproper, hes,
        (expandObject_overlay x 0 _ hweight haproper hbproper ()).2 es () hes⟩
    · cases hfound
  · cases hfound

/-- The object `.apply(extra)`, `k = 2` over `k = 1`, where `extra` is `k = 9`: the text ends in
`k = 2`, and the expansion in `k = 9`. -/
theorem expandObject_overlay_ne_readOver :
    ∃ (x : Expander (StateM Unit)) (a b extra o o' : Object),
      parseDocument "k = 1\n" = .ok a ∧ parseDocument ".apply(extra)\nk = 2\n" = .ok b ∧
      parseDocument "k = 9\n" = .ok extra ∧ a.weight = 0 ∧
      (x.expandObject 1 [("extra", .block extra)] (a.overlay b)).run.run () = (.ok o, ()) ∧
      (x.readOver 0 [("extra", .block extra)] a b).run.run () = (.ok o', ()) ∧
      o.HasInt "k" 9 ∧ o'.HasInt "k" 2 ∧ o.get? "k" ≠ o'.get? "k" := by
  let x : Expander (StateM Unit) :=
    ⟨⟨(FileTree.mk [] []).host, (FileTree.mk [] []).source, .ofBase .empty⟩, "", 0, none⟩
  have hfound : (parseDocument "k = 1\n").toOption.any (fun a =>
      (parseDocument ".apply(extra)\nk = 2\n").toOption.any fun b =>
      (parseDocument "k = 9\n").toOption.any fun extra =>
      ((x.expandObject 1 [("extra", .block extra)]
        (a.overlay b)).run.run ()).1.toOption.any fun o =>
      ((x.readOver 0 [("extra", .block extra)] a b).run.run ()).1.toOption.any fun o' =>
        decide (a.weight = 0 ∧ o.HasInt "k" 9 ∧ o'.HasInt "k" 2)) = true := by decide +kernel
  obtain ⟨a, ha, hfound⟩ := exists_of_any hfound
  obtain ⟨b, hb, hfound⟩ := exists_of_any hfound
  obtain ⟨extra, hextra, hfound⟩ := exists_of_any hfound
  obtain ⟨o, _, ho, hfound⟩ := exists_of_any_run hfound
  obtain ⟨o', _, ho', hfound⟩ := exists_of_any_run hfound
  obtain ⟨hweight, hnine, htwo⟩ := of_decide_eq_true hfound
  refine ⟨x, a, b, extra, o, o', ha, hb, hextra, hweight, ho, ho', hnine, htwo, fun heq => ?_⟩
  rw [Object.hasInt_iff, Object.int?, heq] at hnine
  rw [Object.hasInt_iff, Object.int?, hnine] at htwo
  cases htwo

end Expander

end ConfigLang
