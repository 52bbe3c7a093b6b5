import Mathlib
import ConfigLang.Proofs.Document.PartProjection
import ConfigLang.Proofs.Document.Scheduled

/-!
# Where the objects of a document are

An object occurs in a document at a path, inside the objects on the way, and these
are inside the objects around the document (`Document.Occurs`).  Its fields and the
items of its lists are the nodes that a path can lead to (`Document.Has`), each at a
spot of its own.

## Strategy

* **Chains.**  The objects on the way are a chain, each with the seat that tells it from
  the others.  `Occurs.spec` is the one induction over occurrences: the seats are
  distinct, the objects are tidy, and the path leads where it should, as each step keeps
  (`Occurs.Spec.enter`).
* **Nodes.**  What is known of a node that a document has comes from there: its spot in
  the last object (`Has.stands`, `Has.name_eq`), the field that it is or is an item of,
  and what that field refers to (`Has.spot_field`, `Has.refers_of_mem`).
* **Further in.**  A node may be an object or a list, and then the document has what is in
  it (`Has.below`, `Has.list`).
* **Jobs.**  A node with a value is what the evaluation of its field evaluates
  (`Has.evaluates`, `Occurs.evaluates`).
-/

namespace ConfigLang

open Relation

/-! ## Occurrences -/

/-- The node of an object under a name, or an item of it. -/
def Object.nodeIn? (o : Object) (name : String) : Option Nat → Option Node
  | none => o.get? name
  | some i =>
    match o.get? name with
    | some (.list _ items) => items[i]?
    | _ => none

namespace Document

/-- The objects around the root. -/
def outside (d : Document) : Chain :=
  d.ancestors.zipIdx.map fun (o, i) => (.around i, o)

/-- An object occurs in a document at a path. It is the last of a chain of objects. -/
inductive Occurs (d : Document) : List String → Object → Chain → Prop
  | root : Occurs d [] d.root (d.outside ++ [(.within [], d.root)])
  | field {path : List String} {o inner : Object} {chain : Chain} {key : String}
      (h : Occurs d path o chain) (hget : o.get? key = some (.object inner)) :
      Occurs d (path ++ [key]) inner (chain ++ [(.within (path ++ [key]), inner)])
  | item {path : List String} {o inner : Object} {chain : Chain} {key name : String}
      {items : List Node} {i : Nat}
      (h : Occurs d path o chain) (hget : o.get? key = some (.list name items))
      (hitem : items[i]? = some (.object inner)) :
      Occurs d (path ++ [key] ++ [toString i]) inner
        (chain ++ [(.within (path ++ [key] ++ [toString i]), inner)])

/-- A path leads to a node at a spot, in the last object of a chain. -/
inductive Has (d : Document) : List String → Chain → Spot → Node → Prop
  | field {path : List String} {o : Object} {chain : Chain} {key : String} {node : Node}
      (h : Occurs d path o chain) (hget : o.get? key = some node) :
      Has d (path ++ [key]) chain ⟨.within path, key, none⟩ node
  | item {path : List String} {o : Object} {chain : Chain} {key name : String}
      {items : List Node} {i : Nat} {node : Node}
      (h : Occurs d path o chain) (hget : o.get? key = some (.list name items))
      (hitem : items[i]? = some node) :
      Has d (path ++ [key] ++ [toString i]) chain ⟨.within path, key, some i⟩ node

/-- A document whose objects are tidy, those around it as well. -/
structure TidyAll (d : Document) : Prop where
  root : d.root.Tidy
  ancestors : ∀ o ∈ d.ancestors, o.Tidy

theorem tidy_bindingsOnly {o : Object} (h : o.Tidy) : o.bindingsOnly.Tidy :=
  .mk' nofun (h.fields.of_sublist List.filter_sublist) nofun

theorem Obtained.tidyAll {d : Document} (h : d.Obtained) : d.TidyAll := by
  induction h with
  | built h => exact ⟨h.tidy.root, fun o hmem => by rw [h.tidy.whole] at hmem; cases hmem⟩
  | @part d s p hd hpart ih =>
      obtain ⟨chain, hpart⟩ := exists_part hpart
      refine ⟨(hpart.tidy ih.root).2, fun o hmem => ?_⟩
      rw [hpart.ancestors] at hmem
      rcases List.mem_append.mp hmem with hmem | hmem
      · exact ih.ancestors o hmem
      · obtain ⟨o', hmem', rfl⟩ := List.mem_map.mp hmem
        exact tidy_bindingsOnly ((hpart.tidy ih.root).1 o' hmem')

variable {d : Document} {path : List String} {o : Object} {chain : Chain}

theorem Has.enter {spot : Spot} {inner : Object} (h : d.Has path chain spot (.object inner)) :
    d.Occurs path inner (chain ++ [(.within path, inner)]) := by
  cases h with
  | field h hget => exact h.field hget
  | item h hget hitem => exact h.item hget hitem

/-- What is known of an object that occurs. -/
structure Occurs.Spec (d : Document) (path : List String) (o : Object) (chain : Chain) : Prop where
  last : chain.getLast? = some (.within path, o)
  seats : chain.seats.Nodup
  below : ∀ q, .within q ∈ chain.seats → q <+: path
  leads : ∃ objects, chain.objects = d.ancestors ++ objects ∧ d.Leads path objects o

/-- One object further in. -/
theorem Occurs.Spec.enter {walked : List String} {inner : Object} (h : Occurs.Spec d path o chain)
    (hwalked : walked ≠ [])
    (hfinds : ∀ objects, d.Leads path objects o →
      d.Finds (path ++ walked) objects (.object inner)) :
    Occurs.Spec d (path ++ walked) inner (chain ++ [(.within (path ++ walked), inner)]) := by
  obtain ⟨objects, hobjects, hleads⟩ := h.leads
  have hseats : Chain.seats (chain ++ [(.within (path ++ walked), inner)]) =
      chain.seats ++ [.within (path ++ walked)] := List.map_append
  constructor
  case last => exact List.getLast?_concat
  case seats =>
    rw [hseats]
    refine List.nodup_append.mpr ⟨h.seats, List.nodup_singleton _, ?_⟩
    rintro seat hmem _ hlast rfl
    rw [List.mem_singleton.mp hlast] at hmem
    have hlength := (h.below _ hmem).length_le
    rw [List.length_append] at hlength
    have hpos := List.length_pos_iff.mpr hwalked
    omega
  case below =>
    intro q hmem
    rw [hseats] at hmem
    rcases List.mem_append.mp hmem with hmem | hmem
    · exact (h.below q hmem).trans (List.prefix_append _ _)
    · cases List.mem_singleton.mp hmem
      exact List.prefix_rfl
  case leads =>
    refine ⟨objects ++ [inner], ?_, (hfinds objects hleads).object inner rfl⟩
    rw [← List.append_assoc, ← hobjects]
    exact List.map_append

theorem objects_outside (d : Document) : d.outside.objects = d.ancestors := by
  unfold outside Chain.objects
  rw [List.map_map]
  exact List.zipIdx_map_fst 0 d.ancestors

theorem seats_outside (d : Document) :
    d.outside.seats = (List.range d.ancestors.length).map Seat.around := by
  unfold outside Chain.seats
  rw [List.map_map, List.range_eq_range', ← List.zipIdx_map_snd, List.map_map]
  rfl

theorem Occurs.spec (hd : d.TidyAll) (h : d.Occurs path o chain) : Occurs.Spec d path o chain := by
  induction h with
  | root =>
      have hseats : Chain.seats (d.outside ++ [(.within [], d.root)]) =
          (List.range d.ancestors.length).map Seat.around ++ [.within []] := by
        rw [← seats_outside]
        exact List.map_append
      constructor
      case last => exact List.getLast?_concat
      case seats =>
        rw [hseats]
        refine List.nodup_append.mpr ⟨List.nodup_range.map ?_, List.nodup_singleton _, ?_⟩
        · rintro i j ⟨⟩
          rfl
        · rintro seat hmem _ hlast rfl
          obtain ⟨i, -, hi⟩ := List.mem_map.mp hmem
          rw [List.mem_singleton.mp hlast] at hi
          cases hi
      case below =>
        intro q hmem
        rw [hseats] at hmem
        rcases List.mem_append.mp hmem with hmem | hmem
        · obtain ⟨i, -, hi⟩ := List.mem_map.mp hmem
          cases hi
        · cases List.mem_singleton.mp hmem
          exact List.prefix_rfl
      case leads =>
        refine ⟨[d.root], ?_, List.forall_mem_singleton.mpr hd.root, rfl, fun _ _ => rfl⟩
        rw [← d.objects_outside]
        exact List.map_append
  | field h hget ih =>
      exact ih.enter (List.cons_ne_nil _ _) fun objects hleads => hleads.finds hget
  | item h hget hitem ih =>
      rw [List.append_assoc]
      refine ih.enter (by simp) fun objects hleads => ?_
      rw [← List.append_assoc]
      exact hleads.finds_item hget hitem

/-! ## Nodes and their spots -/

/-- A job evaluates a node of the document, with what its names refer to where it stands. -/
def Evaluates (d : Document) (job : Job) : Prop :=
  ∃ path o chain level owner, d.Occurs path o chain ∧
    chain[level]? = some (job.spot.seat, owner) ∧
      owner.nodeIn? job.spot.name job.spot.item = some job.node ∧
        job.node.isValue = true ∧ job.reads = chain.reads level job.node

namespace Occurs

variable (hd : d.TidyAll) (h : d.Occurs path o chain)
include hd h

theorem tidy : ∀ o' ∈ chain.objects, o'.Tidy := by
  obtain ⟨objects, hobjects, hleads⟩ := (h.spec hd).leads
  intro o' hmem
  rw [hobjects] at hmem
  exact (List.mem_append.mp hmem).elim (hd.ancestors o') (hleads.tidy o')

theorem named : Named chain.objects :=
  named_of_tidy (h.tidy hd)

theorem last_succ : chain.length - 1 + 1 = chain.length := by
  have hne : chain ≠ [] := by
    rintro rfl
    cases (h.spec hd).last
  have hpos := List.length_pos_iff.mpr hne
  omega

theorem last_lt : chain.length - 1 < chain.length := by
  have := h.last_succ hd
  omega

theorem getElem?_last : chain[chain.length - 1]? = some (.within path, o) := by
  rw [← List.getLast?_eq_getElem?]
  exact (h.spec hd).last

theorem spot_last (key : String) :
    chain.spot (chain.length - 1, key) = ⟨.within path, key, none⟩ :=
  Chain.spot_eq (h.getElem?_last hd) key

theorem nodeAt?_last (key : String) :
    nodeAt? chain.objects (chain.length - 1, key) = o.valueNode? key := by
  rw [nodeAt?, Chain.objects, List.getElem?_map, h.getElem?_last hd]
  rfl

end Occurs

namespace Has

variable {spot : Spot} {node : Node}

theorem exists_occurs (h : d.Has path chain spot node) : ∃ q o, d.Occurs q o chain ∧
    spot.seat = .within q ∧ o.nodeIn? spot.name spot.item = some node := by
  cases h with
  | field h hget => exact ⟨_, _, h, rfl, hget⟩
  | item h hget hitem =>
      refine ⟨_, _, h, rfl, ?_⟩
      rw [Object.nodeIn?, hget]
      exact hitem

theorem finds (hd : d.TidyAll) (h : d.Has path chain spot node) :
    ∃ objects, chain.objects = d.ancestors ++ objects ∧ d.Finds path objects node := by
  cases h with
  | field h hget =>
      obtain ⟨objects, hobjects, hleads⟩ := (h.spec hd).leads
      exact ⟨objects, hobjects, hleads.finds hget⟩
  | item h hget hitem =>
      obtain ⟨objects, hobjects, hleads⟩ := (h.spec hd).leads
      exact ⟨objects, hobjects, hleads.finds_item hget hitem⟩

theorem stands (hd : d.TidyAll) (h : d.Has path chain spot node) :
    Stands chain.objects node := by
  have hlast : ∀ {q o}, d.Occurs q o chain → chain.objects.getLast? = some o := by
    intro q o h
    rw [Chain.objects, List.getLast?_map, (h.spec hd).last]
    rfl
  cases h with
  | field h hget => exact ⟨h.tidy hd, _, _, _, hlast h, hget, .inl rfl⟩
  | item h hget hitem =>
      exact ⟨h.tidy hd, _, _, _, hlast h, hget, .inr (List.mem_of_getElem? hitem)⟩

/-- A node carries the name of its spot. -/
theorem name_eq (hd : d.TidyAll) (h : d.Has path chain spot node) : node.name = spot.name := by
  cases h with
  | field h hget =>
      obtain ⟨objects, -, hleads⟩ := (h.spec hd).leads
      exact (hleads.tidy_last.fields.of_get? hget).2
  | item h hget hitem =>
      obtain ⟨objects, -, hleads⟩ := (h.spec hd).leads
      obtain ⟨htidy, hname⟩ := hleads.tidy_last.fields.of_get? hget
      exact (htidy.items _ (List.mem_of_getElem? hitem)).named.trans hname

/-- The field that a node is, or is an item of. -/
theorem spot_field (hd : d.TidyAll) (h : d.Has path chain spot node) :
    chain.spot (chain.length - 1, node.name) = { spot with item := none } := by
  obtain ⟨q, o, hoccurs, hseat, -⟩ := h.exists_occurs
  rw [hoccurs.spot_last hd, h.name_eq hd, hseat]

/-- That field refers to whatever the node refers to. -/
theorem refers_of_mem (hd : d.TidyAll) (h : d.Has path chain spot node) {target : Site}
    (hmem : target ∈ references chain.objects (chain.length - 1) node)
    (hsome : (nodeAt? chain.objects (chain.length - 1, node.name)).isSome = true) :
    Refers chain.objects (chain.length - 1, node.name) target := by
  obtain ⟨field, hfield⟩ := Option.isSome_iff_exists.mp hsome
  refine ⟨field, hfield, ?_⟩
  rw [← chain.length_objects] at hmem hfield ⊢
  exact (h.stands hd).references_subset hfield target hmem

theorem below (hd : d.TidyAll) (h : d.Has path chain spot node) :
    ∀ q, .within q ∈ chain.seats → q <+: path := by
  cases h with
  | field h _ => exact fun q hmem => ((h.spec hd).below q hmem).trans (List.prefix_append _ _)
  | item h _ _ =>
      rw [List.append_assoc]
      exact fun q hmem => ((h.spec hd).below q hmem).trans (List.prefix_append _ _)

/-- A field with a value is what its name stands for. -/
theorem isValue_eq_false (hd : d.TidyAll) (h : d.Has path chain spot node)
    (hitem : spot.item = none)
    (hnode : nodeAt? chain.objects (chain.length - 1, node.name) = none) :
    node.isValue = false := by
  have hname := h.name_eq hd
  cases h with
  | field h hget =>
      rw [hname, h.nodeAt?_last hd, Object.valueNode?, hget] at hnode
      cases hvalue : node.isValue with
      | false => rfl
      | true =>
          rw [Option.filter_some_pos hvalue] at hnode
          cases hnode
  | item h hget hlist => cases hitem

section

variable {name : String} {items : List Node}

/-- A list is no item of another one. -/
theorem item_of_list (hd : d.TidyAll) (h : d.Has path chain spot (.list name items)) :
    spot.item = none := by
  cases h with
  | field h hget => rfl
  | item h hget hlist =>
      obtain ⟨objects, -, hleads⟩ := (h.spec hd).leads
      have hitems := (hleads.tidy_last.fields.of_get? hget).1.items
      cases (hitems _ (List.mem_of_getElem? hlist)).single

/-- The items of a list have their places. -/
theorem list {i : Nat} {item : Node} (hd : d.TidyAll)
    (h : d.Has path chain spot (.list name items)) (hitem : items[i]? = some item) :
    d.Has (path ++ [toString i]) chain { spot with item := some i } item := by
  have hfield := h.item_of_list hd
  cases h with
  | field h hget => exact .item h hget hitem
  | item h hget hlist => cases hfield

end

theorem evaluates (hd : d.TidyAll) (h : d.Has path chain spot node) (hvalue : node.isValue = true)
    (shown : List String) :
    d.Evaluates ⟨spot, node, chain.reads (chain.length - 1) node, shown⟩ := by
  obtain ⟨q, o, hoccurs, hseat, hnode⟩ := h.exists_occurs
  refine ⟨q, o, chain, chain.length - 1, o, hoccurs, ?_, hnode, hvalue, rfl⟩
  change _ = some (spot.seat, o)
  rw [hseat]
  exact hoccurs.getElem?_last hd

end Has

/-- The evaluation of a field in a chain. -/
theorem Occurs.evaluates {site : Site} {node : Node} (h : d.Occurs path o chain)
    (hnode : nodeAt? chain.objects site = some node) (shown : List String) :
    d.Evaluates (chain.job shown site node) := by
  obtain ⟨owner, howner, hfield⟩ := Option.bind_eq_some_iff.mp hnode
  obtain ⟨hget, hvalue⟩ := Option.filter_eq_some_iff.mp hfield
  have hentry := List.getElem?_eq_getElem (Chain.lt_length hnode)
  have hobject : chain[site.1]?.map Prod.snd = some owner := by
    rw [← howner, Chain.objects, List.getElem?_map]
  rw [hentry] at hobject
  refine ⟨path, o, chain, site.1, owner, h, ?_, ?_, hvalue, rfl⟩
  · change _ = some ((chain.spot site).seat, owner)
    rw [Chain.spot_eq hentry, hentry, ← Option.some.inj hobject]
  · exact hget

/-- What a path leads to has a spot. -/
theorem exists_has_of_locateFrom {objects places : List Object} {walked q : List String}
    {node : Node} (h : d.Occurs path o chain) (hobjects : chain.objects = d.ancestors ++ objects)
    (hlocate : locateFrom objects walked o q = .ok ⟨places, node⟩) :
    ∃ path' chain' spot, d.Has path' chain' spot node ∧
      chain'.objects = d.ancestors ++ places := by
  have henter : ∀ {chain : Chain} {objects : List Object} (seat : Seat) (inner : Object),
      chain.objects = d.ancestors ++ objects →
        Chain.objects (chain ++ [(seat, inner)]) = d.ancestors ++ (objects ++ [inner]) := by
    intro chain objects seat inner hobjects
    rw [← List.append_assoc, ← hobjects]
    exact List.map_append
  fun_induction locateFrom objects walked o q generalizing path chain with
  | case1 => cases hlocate
  | case2 => cases hlocate
  | case3 objects walked o key field hget =>
      cases hlocate
      exact ⟨_, chain, _, .field h hget, hobjects⟩
  | case4 => cases hlocate
  | case5 =>
      rename_i inner hget ih
      exact ih (h.field hget) (henter _ inner hobjects) hlocate
  | case6 => cases hlocate
  | case7 => cases hlocate
  | case8 objects walked o key next name items hget item hselect =>
      cases hlocate
      obtain ⟨i, hitem⟩ := List.getElem?_of_mem (mem_of_selectItem? hselect)
      exact ⟨_, chain, _, .item h hget hitem, hobjects⟩
  | case9 =>
      rename_i hget _ inner _ _ hselect ih
      obtain ⟨i, hitem⟩ := List.getElem?_of_mem (mem_of_selectItem? hselect)
      exact ih (h.item hget hitem) (henter _ inner hobjects) hlocate
  | case10 => cases hlocate

theorem exists_has {q : List String} {places : List Object} {node : Node}
    (h : d.locate q = .ok ⟨places, node⟩) :
    ∃ path chain spot, d.Has path chain spot node ∧ chain.objects = d.ancestors ++ places := by
  refine exists_has_of_locateFrom .root ?_ h
  rw [← d.objects_outside]
  exact List.map_append

end Document

end ConfigLang
