import Mathlib
import ConfigLang.Document.Reference
import ConfigLang.Proofs.Keyed

/-!
# The graph of references

In a chain of objects, listed from the outermost in, a field with a value is known
by the level of its object and its name.  `references` lists the fields that a node
refers to where it stands, in the order of the text, and `Refers` is the graph that
this makes of the fields.

`owner?_eq_some_iff` says which field a name stands for: that of the nearest object
from the level out which declares the name, where the node itself does not count.
`Acyclic` are the fields from which references lead into no cycle.  There are
finitely many fields, so references from an acyclic one come to an end
(`wellFounded_refersDown`), and a recursion may follow them.
-/

namespace ConfigLang

open Relation

/-- A field with a value, by the level of its object and its name. -/
abbrev Site := Nat × String

section Graph

variable (objects : List Object)

/-- The node of a field with a value. -/
def nodeAt? (site : Site) : Option Node :=
  objects[site.1]?.bind fun o => o.valueNode? site.2

/-- The fields that some names refer to in the node `own` at a level. -/
def targets (level : Nat) (own : String) (names : List String) : List Site :=
  names.filterMap fun name => (owner? objects level own name).map (·, name)

/-- The fields that a node at a level refers to, in the order of the text. -/
def references (level : Nat) (node : Node) : List Site :=
  targets objects level node.name node.locals

/-- Whether a field refers to another. -/
def Refers (site target : Site) : Prop :=
  ∃ node, nodeAt? objects site = some node ∧ target ∈ references objects site.1 node

/-- References from a field lead into no cycle. -/
def Acyclic (site : Site) : Prop :=
  ∀ target, ReflTransGen (Refers objects) site target → ¬ TransGen (Refers objects) target target

/-- The fields with values. -/
def sites : List Site :=
  objects.zipIdx.flatMap fun (o, level) =>
    (o.fields.filter fun field => field.2.isValue).map fun field => (level, field.1)

end Graph

variable {objects : List Object}

/-! ## Which field a name stands for -/

private theorem find?_reverse_range_eq_some {p : Nat → Bool} {n i : Nat} :
    (List.range n).reverse.find? p = some i ↔
      i < n ∧ p i = true ∧ ∀ j, i < j → j < n → p j = false := by
  induction n with
  | zero => simp
  | succ n ih =>
      -- the search starts from the last place
      rw [List.range_succ, List.reverse_append, List.reverse_singleton, List.singleton_append,
        List.find?_cons]
      split
      · rename_i hn
        constructor
        · intro h
          obtain rfl := Option.some.inj h
          exact ⟨n.lt_succ_self, hn, fun j hj hjn => by omega⟩
        · rintro ⟨hi, hpi, hlast⟩
          rcases Nat.lt_succ_iff_lt_or_eq.mp hi with hlt | rfl
          · rw [hlast n hlt n.lt_succ_self] at hn
            simp at hn
          · rfl
      · rename_i hn
        rw [ih]
        constructor
        · rintro ⟨hi, hpi, hlast⟩
          refine ⟨by omega, hpi, ?_⟩
          intro j hj hjn
          rcases Nat.lt_succ_iff_lt_or_eq.mp hjn with hlt | rfl
          · exact hlast j hj hlt
          · exact hn
        · rintro ⟨hi, hpi, hlast⟩
          rcases Nat.lt_succ_iff_lt_or_eq.mp hi with hlt | rfl
          · exact ⟨hlt, hpi, fun j hj hjn => hlast j hj (by omega)⟩
          · rw [hpi] at hn
            simp at hn

/-- Whether the field of a name at a level is one that the node `own` at `level` may refer to. -/
def Visible (objects : List Object) (level : Nat) (own : String) (site : Site) : Prop :=
  site.1 ≤ level ∧ site ≠ (level, own) ∧ (nodeAt? objects site).isSome = true

theorem declares_iff {level : Nat} {name : String} :
    (objects[level]?.map (·.declares name)).getD false =
      (nodeAt? objects (level, name)).isSome := by
  unfold nodeAt? Object.declares
  cases objects[level]? <;> rfl

/-- A name stands for the field of the nearest object that declares it, from the level out, where
the node itself does not count. -/
theorem owner?_eq_some_iff {level i : Nat} {own name : String} :
    owner? objects level own name = some i ↔
      Visible objects level own (i, name) ∧
        ∀ j, i < j → ¬ Visible objects level own (j, name) := by
  unfold owner? Visible
  rw [find?_reverse_range_eq_some]
  simp only [declares_iff, Bool.and_eq_true, Bool.and_eq_false_iff, Bool.or_eq_true,
    decide_eq_true_eq, ne_eq, Prod.mk.injEq, not_and_or]
  constructor
  · rintro ⟨hi, ⟨hne, hsome⟩, hlast⟩
    refine ⟨⟨by omega, hne, hsome⟩, ?_⟩
    intro j hj
    by_cases hjl : j < level + 1
    · rcases hlast j hj hjl with h | h
      · simp only [Bool.or_eq_false_iff, decide_eq_false_iff_not, not_not] at h
        exact .inr (.inl (by simp [h]))
      · exact .inr (.inr (by simp [h]))
    · exact .inl (by omega)
  · rintro ⟨⟨hi, hne, hsome⟩, hlast⟩
    refine ⟨by omega, ⟨hne, hsome⟩, ?_⟩
    intro j hj hjl
    rcases hlast j hj with h | h | h
    · omega
    · refine .inl ?_
      simpa using h
    · exact .inr (by simpa using h)

/-- A name stands for no field where no object from the level out declares it, the node itself
aside. -/
theorem owner?_eq_none_iff {level : Nat} {own name : String} :
    owner? objects level own name = none ↔ ∀ i, ¬ Visible objects level own (i, name) := by
  constructor
  · intro h i hvisible
    obtain ⟨hi, hne, hsome⟩ := hvisible
    rw [owner?, List.find?_eq_none] at h
    have hother : i ≠ level ∨ name ≠ own := not_and_or.mp fun h => hne (Prod.ext h.1 h.2)
    refine h i (by simpa using Nat.lt_succ_of_le hi) ?_
    rw [declares_iff, hsome, Bool.and_true]
    simpa only [Bool.or_eq_true, decide_eq_true_eq] using hother
  · intro h
    cases howner : owner? objects level own name with
    | none => rfl
    | some i => exact absurd (owner?_eq_some_iff.mp howner).1 (h i)

theorem targets_cons_none {level : Nat} {own name : String} (names : List String)
    (h : owner? objects level own name = none) :
    targets objects level own (name :: names) = targets objects level own names :=
  List.filterMap_cons_none (by rw [h]; rfl)

theorem targets_cons_some {level i : Nat} {own name : String} (names : List String)
    (h : owner? objects level own name = some i) :
    targets objects level own (name :: names) = (i, name) :: targets objects level own names :=
  List.filterMap_cons_some (by rw [h]; rfl)

theorem mem_references {level : Nat} {node : Node} {site : Site} :
    site ∈ references objects level node ↔
      site.2 ∈ node.locals ∧ owner? objects level node.name site.2 = some site.1 := by
  obtain ⟨i, name⟩ := site
  simp only [references, targets, List.mem_filterMap, Option.map_eq_some_iff, Prod.mk.injEq]
  constructor
  · rintro ⟨_, hmem, _, howner, rfl, rfl⟩
    exact ⟨hmem, howner⟩
  · rintro ⟨hmem, howner⟩
    exact ⟨name, hmem, i, howner, rfl, rfl⟩

theorem visible_of_mem_references {level : Nat} {node : Node} {site : Site}
    (h : site ∈ references objects level node) : Visible objects level node.name site :=
  (owner?_eq_some_iff.mp (mem_references.mp h).2).1

/-! ## Finitely many fields -/

theorem mem_sites {site : Site} (h : (nodeAt? objects site).isSome = true) :
    site ∈ sites objects := by
  obtain ⟨node, hnode⟩ := Option.isSome_iff_exists.mp h
  obtain ⟨o, ho, hvalue⟩ := Option.bind_eq_some_iff.mp hnode
  obtain ⟨hget, hisValue⟩ := Option.filter_eq_some_iff.mp hvalue
  refine List.mem_flatMap.mpr ⟨(o, site.1), List.mk_mem_zipIdx_iff_getElem?.mpr ho, ?_⟩
  exact List.mem_map.mpr ⟨(site.2, node),
    List.mem_filter.mpr ⟨Keyed.mem_of_get? hget, hisValue⟩, rfl⟩

theorem Refers.mem_sites {site target : Site} (h : Refers objects site target) :
    target ∈ sites objects := by
  obtain ⟨node, -, hmem⟩ := h
  exact ConfigLang.mem_sites (visible_of_mem_references hmem).2.2

theorem Acyclic.of_refers {site target : Site} (h : Acyclic objects site)
    (hrefers : Refers objects site target) : Acyclic objects target :=
  fun other hreach => h other (hreach.head hrefers)

/-- Following references from acyclic fields. -/
def RefersDown (objects : List Object) (target site : Site) : Prop :=
  Refers objects site target ∧ Acyclic objects site

/-- References from an acyclic field come to an end. -/
theorem wellFounded_refersDown : WellFounded (RefersDown objects) := by
  -- the fields are finitely many, and on the acyclic ones reachability is a strict order
  let Below := fun a b : {site : Site // site ∈ sites objects ∧ Acyclic objects site} =>
    TransGen (Refers objects) b.1 a.1
  have hfinite : Finite {site : Site // site ∈ sites objects ∧ Acyclic objects site} :=
    Set.Finite.subset (sites objects).finite_toSet fun site h => h.1
  have htrans : IsTrans _ Below := ⟨fun a b c hab hbc => hbc.trans hab⟩
  have hirrefl : Std.Irrefl Below := ⟨fun a h => a.2.2 a.1 .refl h⟩
  have hwf : WellFounded Below := Finite.wellFounded_of_trans_of_irrefl Below
  have hacc : ∀ a : {site : Site // site ∈ sites objects ∧ Acyclic objects site},
      Acc (RefersDown objects) a.1 := by
    intro a
    induction a using hwf.induction with
    | _ a ih =>
        refine ⟨_, ?_⟩
        intro target h
        exact ih ⟨target, h.1.mem_sites, h.2.of_refers h.1⟩ (.single h.1)
  constructor
  intro site
  refine ⟨site, ?_⟩
  intro target h
  exact hacc ⟨target, h.1.mem_sites, h.2.of_refers h.1⟩

end ConfigLang
