import Mathlib
import ConfigLang.Proofs.Expand.Reading
import ConfigLang.Proofs.Parse.Bodies
import ConfigLang.Proofs.Tree.Ordered

/-!
# Fields in step with directives

While the directives of an object run, its fields come back one by one: the expander counts up to
the offset of the next directive, and puts a field in place with each step.  It goes on counting
where no field is left, and does not go back where a directive stands too early in the list.

Neither happens if the directives stand in order (`Object.Ordered.inOrder`).  Each step takes a
field then, and each directive runs behind as many fields as its offset says: the directives above
it run with these fields as if there were no others, and those below it with the rest
(`Expander.runAll_split`).
-/

namespace ConfigLang

/-- What is counted up to each directive is there: with each step, one of the fields that are left
is taken. `placed` fields have been taken before. -/
inductive Counted : Nat → Fields → List Directive → Prop
  | done (placed : Nat) (literal : Fields) : Counted placed literal []
  | next {placed : Nat} {taken literal : Fields} {d : Directive} {ds : List Directive}
      (hcount : placed + taken.length = d.offset) (h : Counted d.offset literal ds) :
      Counted placed (taken ++ literal) (d :: ds)

/-- The directives of an object stand in order, and its fields come back in step with them. -/
structure Object.InOrder (o : Object) : Prop where
  sorted : o.directives.Pairwise fun d d' => d.offset ≤ d'.offset
  placed : ∀ d ∈ o.directives, d.offset ≤ o.fields.length
  /-- Each step that is counted takes a field. -/
  counted : Counted 0 o.fields o.directives
  /-- Each field is put in place once, in order. -/
  fields : Item.nodes o.items = o.fields.map Prod.snd
  /-- Each directive runs once, in order. -/
  directives : Item.directives o.items = o.directives
  /-- A directive runs behind the first `offset` fields. -/
  behind : ∀ above d below, o.items = above ++ .directive d :: below →
    Item.nodes above = (o.fields.take d.offset).map Prod.snd

variable {o : Object} {placed : Nat} {literal taken : Fields} {d : Directive} {ds : List Directive}

/-! ## Counting -/

theorem counted_of_sorted (hsorted : ds.Pairwise fun d d' => d.offset ≤ d'.offset)
    (hplaced : ∀ d ∈ ds, placed ≤ d.offset ∧ d.offset ≤ placed + literal.length) :
    Counted placed literal ds := by
  induction ds generalizing placed literal with
  | nil => exact .done placed literal
  | cons d ds ih =>
      obtain ⟨hfirst, hsorted⟩ := List.pairwise_cons.mp hsorted
      obtain ⟨hd, hplaced⟩ := List.forall_mem_cons.mp hplaced
      have hlength : (literal.take (d.offset - placed)).length = d.offset - placed :=
        List.length_take_of_le (by omega)
      rw [← List.take_append_drop (d.offset - placed) literal]
      refine .next (by omega) (ih hsorted fun d' hd' => ⟨hfirst d' hd', ?_⟩)
      have hle := (hplaced d' hd').2
      rw [List.length_drop]
      omega

namespace Item

theorem nodes_append (items others : List Item) :
    nodes (items ++ others) = nodes items ++ nodes others :=
  List.filterMap_append

theorem nodes_ofFields (fields : Fields) : nodes (ofFields fields) = fields.map Prod.snd := by
  unfold nodes ofFields
  rw [List.filterMap_map]
  exact congrFun List.filterMap_eq_map fields

theorem nodes_interleave (placed : Nat) (fields : Fields) (ds : List Directive) :
    nodes (interleave placed fields ds) = fields.map Prod.snd := by
  induction ds generalizing placed fields with
  | nil => exact nodes_ofFields fields
  | cons d ds ih =>
      have hrest : nodes (directive d :: interleave (placed + (d.offset - placed))
          (fields.drop (d.offset - placed)) ds) =
            (fields.drop (d.offset - placed)).map Prod.snd := ih _ _
      rw [interleave, nodes_append, nodes_ofFields, hrest, ← List.map_append,
        List.take_append_drop]

theorem directive_not_mem_ofFields (d : Directive) (fields : Fields) :
    directive d ∉ ofFields fields := by
  intro h
  obtain ⟨entry, -, hentry⟩ := List.mem_map.mp h
  cases hentry

/-- What a directive waits for stands right in front of it. -/
theorem interleave_next (hcount : placed + taken.length = d.offset) (literal : Fields)
    (ds : List Directive) :
    interleave placed (taken ++ literal) (d :: ds) =
      ofFields taken ++ directive d :: interleave d.offset literal ds := by
  have hdue : d.offset - placed = taken.length := by omega
  rw [interleave, hdue, List.take_left, List.drop_left, hcount]

end Item

/-- A directive stands behind as many fields as its offset says. -/
theorem Counted.offset_eq (h : Counted placed literal ds) {above below : List Item}
    (hitems : Item.interleave placed literal ds = above ++ .directive d :: below) :
    d.offset = placed + (Item.nodes above).length := by
  induction h generalizing above with
  | done placed literal =>
      refine absurd ?_ (Item.directive_not_mem_ofFields d literal)
      rw [← Item.interleave, hitems]
      exact List.mem_append_right _ List.mem_cons_self
  | @next placed taken literal first ds hcount _ ih =>
      rw [Item.interleave_next hcount] at hitems
      have hfirst : first.offset = placed + (Item.nodes (Item.ofFields taken)).length := by
        rw [Item.nodes_ofFields, List.length_map, hcount]
      obtain ⟨more, rfl, hmore⟩ | ⟨more, htaken, hmore⟩ := List.append_eq_append_iff.mp hitems
      · cases more with
        | nil =>
            cases hmore
            rw [List.append_nil]
            exact hfirst
        | cons item more =>
            obtain ⟨rfl, hrest⟩ := List.cons.inj hmore
            rw [ih hrest, hfirst, Item.nodes_append, List.length_append, Nat.add_assoc]
            rfl
      · cases more with
        | nil =>
            cases hmore
            rw [List.append_nil] at htaken
            rw [← htaken]
            exact hfirst
        | cons item more =>
            obtain ⟨rfl, -⟩ := List.cons.inj hmore
            refine absurd ?_ (Item.directive_not_mem_ofFields d taken)
            rw [htaken]
            exact List.mem_append_right _ List.mem_cons_self

/-! ## Objects in order -/

namespace Object

/-- **Fields come back in step with directives** that stand in order. -/
theorem Ordered.inOrder (h : o.Ordered) : o.InOrder := by
  have hcounted : Counted 0 o.fields o.directives :=
    counted_of_sorted h.sorted fun d hd =>
      ⟨Nat.zero_le _, (h.placed d hd).trans (Nat.zero_add _).ge⟩
  have hnodes : Item.nodes o.items = o.fields.map Prod.snd := Item.nodes_interleave 0 _ _
  refine ⟨h.sorted, h.placed, hcounted, hnodes, o.directives_items, fun above d below hitems => ?_⟩
  have hoffset := hcounted.offset_eq hitems
  rw [Nat.zero_add] at hoffset
  -- what stands above is a piece of all fields, and its length is known
  rw [hitems, Item.nodes_append] at hnodes
  rw [List.map_take, ← hnodes, hoffset, List.take_left]

theorem Ordered.of_isPart {inner : Object} (hpart : inner.IsPart o) (h : o.Ordered) :
    inner.Ordered := by
  obtain ⟨field, hfield, hinner⟩ | ⟨d, hd, arg, harg, hblock⟩ := hpart
  · exact ((h.nodes field hfield).flatten _ hinner).of_object
  · exact h.blocks d hd arg harg inner hblock

theorem Ordered.of_within {inner : Object} (hwithin : inner.Within o) (h : o.Ordered) :
    inner.Ordered := by
  induction hwithin with
  | refl => exact h
  | part hpart _ ih => exact ih (h.of_isPart hpart)

end Object

/-! ## Running -/

namespace Expander

variable {m : Type → Type} [Monad m] {x : Expander m}
  {expandBlock : Scope → Object → Expansion m Object}

/-- **A directive runs behind the fields that are counted for it.** The directives above it run as
if there were no other fields, and those below it take the rest. -/
theorem runAll_split [LawfulMonad m] {above below : List Directive}
    (hsorted : (above ++ d :: below).Pairwise fun d d' => d.offset ≤ d'.offset)
    (hplaced : ∀ e ∈ above ++ d :: below, placed ≤ e.offset) (literal : Fields) (stage : Stage) :
    x.runAll expandBlock placed literal stage (above ++ d :: below) = (do
      let stage ← x.runAll expandBlock placed (literal.take (d.offset - placed)) stage above
      let stage ← x.run expandBlock d stage
      x.runAll expandBlock d.offset (literal.drop (d.offset - placed)) stage below) := by
  induction above generalizing placed literal stage with
  | nil =>
      have hd : placed + (d.offset - placed) = d.offset :=
        Nat.add_sub_cancel' (hplaced d List.mem_cons_self)
      rw [List.nil_append, runAll, runAll, pure_bind, hd]
  | cons e above ih =>
      obtain ⟨hfirst, hsorted⟩ := List.pairwise_cons.mp hsorted
      have he : placed + (e.offset - placed) = e.offset :=
        Nat.add_sub_cancel' (hplaced e List.mem_cons_self)
      have hle : e.offset ≤ d.offset := hfirst d (List.mem_append_right _ List.mem_cons_self)
      have htake : min (e.offset - placed) (d.offset - placed) = e.offset - placed := by omega
      have hrest : d.offset - placed - (e.offset - placed) = d.offset - e.offset := by omega
      have hdrop : e.offset - placed + (d.offset - e.offset) = d.offset - placed := by omega
      rw [List.cons_append, runAll, runAll, bind_assoc, he, List.take_take, htake, List.drop_take,
        hrest]
      refine congrArg (_ >>= ·) (funext fun stage => ?_)
      rw [ih hsorted hfirst, List.drop_drop, hdrop]

end Expander

end ConfigLang
