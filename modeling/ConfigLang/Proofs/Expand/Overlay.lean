import Mathlib
import ConfigLang.Proofs.Expand.Reading
import ConfigLang.Proofs.Tree.Overlay

/-!
# Expanding an object that was laid over another

`Expander.readOver` is what the text suggests: the items of the upper object are read
one after the other on top of the lower one.  The expander comes close.  All
directives run in the same order and bring the same, but the fields that the lower
object has too are merged before any of them (`expandObject_overlay_eq`).

The proof follows the number that is kept for a directive.  Among the new fields of the
upper object it counts as many as stood above the directive there
(`Fields.due_newBefore`), so that these two stay in step (`Item.arrivals_relocated`).
-/

namespace ConfigLang

/-- Whether an item is a field of a name that some fields have. -/
def Item.isKnown (fields : Fields) : Item → Bool
  | .field node => Keyed.contains fields node.name
  | .directive _ => false

/-! ## Where directives are moved to -/

namespace Fields

variable {fields incoming : Fields}

theorem fresh_take_append_drop (fields incoming : Fields) (n : Nat) :
    fields.fresh (incoming.take n) ++ fields.fresh (incoming.drop n) = fields.fresh incoming := by
  unfold fresh
  rw [← List.filter_append, List.take_append_drop]

theorem take_fresh (n : Nat) :
    (fields.fresh incoming).take (fields.fresh (incoming.take n)).length =
      fields.fresh (incoming.take n) := by
  rw [← fresh_take_append_drop fields incoming n, List.take_left]

theorem drop_fresh (n : Nat) :
    (fields.fresh incoming).drop (fields.fresh (incoming.take n)).length =
      fields.fresh (incoming.drop n) := by
  rw [← fresh_take_append_drop fields incoming n, List.drop_left]

theorem newBefore_add (fields incoming : Fields) (p n : Nat) :
    fields.newBefore incoming (p + n) =
      fields.newBefore incoming p + (fields.fresh ((incoming.drop p).take n)).length := by
  unfold newBefore fresh
  rw [List.take_add, List.filter_append, List.length_append]

/-- How many new fields become due at a directive, if `p` fields stood above. -/
theorem due_newBefore (fields incoming : Fields) (n p offset : Nat) :
    n + fields.newBefore incoming offset - (n + fields.newBefore incoming p) =
      (fields.fresh ((incoming.drop p).take (offset - p))).length := by
  by_cases h : p ≤ offset
  · have hadd := newBefore_add fields incoming p (offset - p)
    rw [Nat.add_sub_cancel' h] at hadd
    omega
  · have hadd := newBefore_add fields incoming offset (p - offset)
    rw [Nat.add_sub_cancel' (by omega)] at hadd
    rw [show offset - p = 0 by omega, List.take_zero]
    have hnil : (fields.fresh []).length = 0 := rfl
    omega

end Fields

namespace Item

variable {fields : Fields}

theorem ofFields_append (entries others : Fields) :
    ofFields (entries ++ others) = ofFields entries ++ ofFields others :=
  List.map_append

theorem filter_ofFields {incoming : Fields} (hnamed : ∀ field ∈ incoming, field.2.name = field.1) :
    (ofFields incoming).filter (!isKnown fields ·) = ofFields (fields.fresh incoming) := by
  unfold ofFields Fields.fresh
  rw [List.filter_map]
  refine congrArg _ (List.filter_congr fun entry hmem => ?_)
  rw [Function.comp_apply, isKnown, hnamed entry hmem]

/-- Fields in front of all directives are read first. -/
theorem interleave_append {base incoming : Fields} {ds : List Directive}
    (h : ∀ d ∈ ds, base.length ≤ d.offset) :
    interleave 0 (base ++ incoming) ds = ofFields base ++ interleave base.length incoming ds := by
  cases ds with
  | nil => exact ofFields_append base incoming
  | cons d ds =>
      have hle := h d List.mem_cons_self
      have hplaced : 0 + d.offset = base.length + (d.offset - base.length) := by omega
      rw [interleave, interleave, Nat.sub_zero, hplaced, List.take_append, List.drop_append,
        List.take_of_length_le hle, List.drop_of_length_le hle, List.nil_append, ofFields_append,
        List.append_assoc]

theorem arrivals_directive_congr {items others : List Item} (d d' : Directive)
    (h : ∀ es, arrivals items es = arrivals others es) (es : List Effect) :
    arrivals (directive d :: items) es = arrivals (directive d' :: others) es := by
  cases es with
  | nil => exact h []
  | cons e es => exact congrArg (e.arrivals ++ ·) (h es)

/-- Behind the new fields that it followed a directive stands where it stood, as far as the new
fields are concerned. -/
theorem arrivals_relocated (fields : Fields) {incoming : Fields}
    (hnamed : ∀ field ∈ incoming, field.2.name = field.1) (n : Nat) (ds : List Directive)
    (p : Nat) (es : List Effect) :
    arrivals (interleave (n + fields.newBefore incoming p) (fields.fresh (incoming.drop p))
        (ds.map fun d => { d with offset := n + fields.newBefore incoming d.offset })) es =
      arrivals ((interleave p (incoming.drop p) ds).filter (!isKnown fields ·)) es := by
  induction ds generalizing p es with
  | nil =>
      rw [List.map_nil, interleave, interleave,
        filter_ofFields fun field hmem => hnamed field (List.mem_of_mem_drop hmem)]
  | cons d ds ih =>
      have hdue := Fields.due_newBefore fields incoming n p d.offset
      have htaken : ∀ field ∈ (incoming.drop p).take (d.offset - p), field.2.name = field.1 :=
        fun field hmem => hnamed field (List.mem_of_mem_drop (List.mem_of_mem_take hmem))
      have hplaced : n + fields.newBefore incoming p +
          (fields.fresh ((incoming.drop p).take (d.offset - p))).length =
            n + fields.newBefore incoming (p + (d.offset - p)) := by
        rw [Fields.newBefore_add]
        omega
      rw [List.map_cons, interleave, interleave]
      dsimp only
      rw [hdue, Fields.take_fresh, Fields.drop_fresh, hplaced, List.filter_append,
        filter_ofFields htaken, List.filter_cons_of_pos rfl, arrivals_ofFields_append,
        arrivals_ofFields_append, List.drop_drop]
      exact congrArg _ (arrivals_directive_congr _ _ (fun es => ih _ es) es)

end Item

/-! ## The items of the object -/

namespace Object

variable {a b : Object}

/-- An object with the label of the one that is laid over it, if that has one. -/
def relabel (a b : Object) : Object :=
  { a with label := b.label.or a.label }

/-- The directives of an object as they are kept when it is laid over another. -/
def moved (a b : Object) : List Directive :=
  b.directives.map fun d =>
    { d with offset := a.fields.length + Fields.newBefore a.fields b.fields d.offset }

theorem overlay_eq (a b : Object) :
    a.overlay b =
      { a.relabel b with
        fields := mergeFields a.fields b.fields
        directives := a.directives ++ a.moved b } := by
  cases b
  rw [overlay]
  rfl

/-- The fields of the lower object come first, the known ones of the upper merged already. -/
theorem items_overlay (ha : a.directives = []) (hb : Fields.Proper b.fields) :
    (a.overlay b).items =
      Item.ofFields (mergeFields a.fields (Fields.known a.fields b.fields)) ++
        Item.interleave a.fields.length (Fields.fresh a.fields b.fields) (a.moved b) := by
  have hbase : Keyed.keys (mergeFields a.fields (Fields.known a.fields b.fields)) =
      Keyed.keys a.fields := keys_mergeFields_known rfl hb.named
  have hlength : (mergeFields a.fields (Fields.known a.fields b.fields)).length =
      a.fields.length := by
    have h := congrArg List.length hbase
    rwa [Keyed.keys, Keyed.keys, List.length_map, List.length_map] at h
  rw [items, overlay_eq]
  dsimp only
  rw [ha, List.nil_append, mergeFields_eq_append hb, Item.interleave_append, hlength]
  -- no directive runs before the fields that were there
  intro d hd
  obtain ⟨d', -, rfl⟩ := List.mem_map.mp hd
  rw [hlength]
  exact Nat.le_add_right _ _

theorem arrivals_moved (hb : Fields.Proper b.fields) (es : List Effect) :
    Item.arrivals
        (Item.interleave a.fields.length (Fields.fresh a.fields b.fields) (a.moved b)) es =
      Item.arrivals (b.items.filter (!Item.isKnown a.fields ·)) es :=
  Item.arrivals_relocated a.fields hb.named a.fields.length b.directives 0 es

end Object

/-! ## Objects without directives -/

theorem Object.directives_of_weight : ∀ {o : Object}, o.weight = 0 → o.directives = []
  | ⟨_, _, _, [], _, _, _⟩, _ => rfl
  | ⟨_, _, _, ⟨_, _, _, _⟩ :: _, _, _, _⟩, h => by
    rw [Object.weight, weightDirectives] at h
    omega

section Descend

variable {m : Type → Type} [Monad m] [LawfulMonad m]
  {expand : Scope → Object → Expansion m Object} {scope : Scope}

mutual

/-- There is nothing to expand in an object without directives. -/
theorem Object.descend_of_weight : ∀ {o : Object}, o.weight = 0 → o.descend expand scope = pure o
  | ⟨_, _, fields, [], _, _, _⟩, h => by
    rw [Object.weight] at h
    rw [Object.descend, descendFields_of_weight (by omega), pure_bind]
  | ⟨_, _, _, ⟨_, _, _, _⟩ :: _, _, _, _⟩, h => by
    rw [Object.weight, weightDirectives] at h
    omega

theorem descendFields_of_weight : ∀ {fields : Fields}, weightFields fields = 0 →
    descendFields expand scope fields = pure fields
  | [], _ => by rw [descendFields]
  | (key, node) :: fields, h => by
    rw [weightFields] at h
    rw [descendFields, Node.descend_of_weight (by omega), pure_bind,
      descendFields_of_weight (by omega), pure_bind]

theorem Node.descend_of_weight : ∀ {node : Node}, node.weight = 0 →
    node.descend expand scope = pure node
  | .option binding, _ => by rw [Node.descend]
  | .object o, h => by
    rw [Node.weight] at h
    rw [Node.descend, Object.descend_of_weight h, pure_bind]
  | .list name items, h => by
    rw [Node.weight] at h
    rw [Node.descend, descendItems_of_weight h, pure_bind]

theorem descendItems_of_weight : ∀ {items : List Node}, weightItems items = 0 →
    descendItems expand scope items = pure items
  | [], _ => by rw [descendItems]
  | item :: items, h => by
    rw [weightItems] at h
    rw [descendItems, Node.descend_of_weight (by omega), pure_bind,
      descendItems_of_weight (by omega), pure_bind]

end

end Descend

/-! ## Expanding -/

namespace Expander

variable {m : Type → Type} [Monad m]

/-- Reads the items of an object on top of another, which is expanded before. The objects inside
come last, as they see every fragment around them. -/
def readOver (x : Expander m) (weight : Nat) (scope : Scope) (a b : Object) :
    Expansion m Object := do
  let start ← a.descend (x.expandObject weight) scope
  let stage ← x.read (Object.descend (x.expandObject weight)) ⟨start.relabel b, scope⟩ b.items
  stage.object.descend (x.expandObject weight) stage.scope

variable [LawfulMonad m] (x : Expander m) (weight : Nat) (scope : Scope) {a b : Object}

theorem readOver_eq (ha : a.weight = 0) (b : Object) :
    x.readOver weight scope a b = (do
      let es ← x.effects (Object.descend (x.expandObject weight)) scope b.directives
      ((a.relabel b).combineEach (Item.arrivals b.items es)).descend (x.expandObject weight)
        (Effect.visible scope es)) := by
  rw [readOver, Object.descend_of_weight ha, pure_bind, read_eq, b.directives_items]
  simp only [bind_assoc, pure_bind]

/-- The fields that the lower object has too are merged first. -/
theorem expandObject_overlay_eq (ha : a.weight = 0) (hafields : Fields.Proper a.fields)
    (hbfields : Fields.Proper b.fields) :
    x.expandObject (weight + 1) scope (a.overlay b) = (do
      let es ← x.effects (Object.descend (x.expandObject weight)) scope b.directives
      ((a.relabel b).combineEach
        ((Fields.known a.fields b.fields).map (fun field => ⟨.merge, field.2⟩) ++
          Item.arrivals (b.items.filter (!Item.isKnown a.fields ·)) es)).descend
            (x.expandObject weight) (Effect.visible scope es)) := by
  have hdirectives := Object.directives_of_weight ha
  have hbare : ({ a.overlay b with fields := [], directives := [] } : Object) =
      { a.relabel b with fields := [] } := by
    rw [Object.overlay_eq]
    dsimp only [Object.relabel]
    rw [hdirectives]
  -- reading the fields in front gives the lower object with the known fields merged
  have hstart : ({ a.relabel b with fields := [] } : Object).combineAll .merge
      (mergeFields a.fields (Fields.known a.fields b.fields)) =
        (a.relabel b).combineAll .merge (Fields.known a.fields b.fields) := by
    rw [combineAll_merge_empty _ (hafields.mergeFields _), Object.combineAll_eq,
      Object.combineEach_eq, ← Object.combineAll_eq, ← mergeFields_eq]
    rfl
  rw [expandObject_succ, Object.items_overlay hdirectives hbfields, read_ofFields_append, hbare]
  dsimp only
  rw [hstart, read_eq, Item.directives_interleave, Object.moved, effects_map_offset]
  simp only [bind_assoc, pure_bind]
  refine congrArg (_ >>= ·) (funext fun es => ?_)
  have harrivals := Object.arrivals_moved (a := a) hbfields es
  rw [Object.moved] at harrivals
  rw [Object.combineAll_eq, ← Object.combineEach_append, harrivals]

end Expander

end ConfigLang
