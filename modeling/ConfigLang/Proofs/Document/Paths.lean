import Mathlib
import ConfigLang.Proofs.Document.Built
import ConfigLang.Proofs.Document.Leaves

/-!
# Paths into a document

A path is followed step by step: to a field of an object, to an item of a list by its
place, and on into an object (`Leads`).  Labels do not get in the way of places, since
no name starts with a digit.

The paths of the leaves lead to them, and whatever other path leads to a leaf, by a
label or by another spelling of a place, one of these leads there as well
(`exists_leaf`).

## Strategy

* **Steps.**  `Leads` says that a path leads to an object and goes on from there whatever
  comes next, and `Finds` that it leads to a node.  A path is made longer at its end:
  `Leads.finds` adds the name of a field, `Leads.finds_item` the place of an item, and
  `Leads.enter` goes into the object that has been found.
* **Leaves.**  Which nodes are leaves depends on the list that they are in, so `InLeaf`
  and `LeafPath` carry that along.  `Leads.leafPath` follows the recursion by which the
  leaves are listed, and says that each of their paths leads to one.
* **Other paths.**  `exists_leaf` follows the path that is given.  Where a label has chosen
  an item, its place does as well (`selectItem?_toString`).
-/

namespace ConfigLang

namespace Document

/-! ## Going on from an object -/

/-- A path leads to an object, the last of a chain, and goes on from there. -/
structure Leads (d : Document) (path : List String) (chain : List Object) (o : Object) : Prop where
  tidy : ∀ o' ∈ chain, o'.Tidy
  last : chain.getLast? = some o
  locate : ∀ rest, rest ≠ [] → d.locate (path ++ rest) = locateFrom chain path o rest

/-- A path leads to a node in the last object of a chain, and goes on from there if the node is an
object. -/
structure Finds (d : Document) (path : List String) (chain : List Object) (node : Node) : Prop where
  locate : d.locate path = .ok ⟨chain, node⟩
  object : ∀ o, node = .object o → d.Leads path (chain ++ [o]) o

theorem Tidy.leads {d : Document} (h : d.Tidy) : d.Leads [] [d.root] d.root :=
  ⟨List.forall_mem_singleton.mpr h.root, rfl, fun _ _ => rfl⟩

private theorem isNameStart_of_isDigit {c : Char} (h : c.isDigit = true) :
    Lexeme.isNameStart c = false := by
  have hne : c ≠ '_' := by
    rintro rfl
    exact absurd h (by decide)
  simp only [Char.isDigit, Bool.and_eq_true, decide_eq_true_eq, ge_iff_le,
    UInt32.le_iff_toNat_le] at h
  have h57 : '9'.val.toNat = 57 := rfl
  have h65 : 'A'.val.toNat = 65 := rfl
  have h97 : 'a'.val.toNat = 97 := rfl
  simp only [Lexeme.isNameStart, Char.isAlpha, Char.isUpper, Char.isLower, Bool.or_eq_false_iff,
    Bool.and_eq_false_iff, decide_eq_false_iff_not, ge_iff_le, UInt32.le_iff_toNat_le,
    beq_eq_false_iff_ne]
  exact ⟨⟨by omega, .inl (by omega)⟩, hne⟩

/-- The text of a place is no label. -/
theorem find?_hasLabel {items : List Node} (htidy : ∀ item ∈ items, item.Tidy) (i : Nat) :
    items.find? (Node.hasLabel (toString i)) = none := by
  refine List.find?_eq_none.mpr fun item hmem hlabel => ?_
  cases item with
  | option binding => cases hlabel
  | list name items => cases hlabel
  | object o =>
      have hname : Lexeme.startsName (toString i).toList = true :=
        (htidy _ hmem).of_object.label _ (eq_of_beq hlabel)
      have htext : (toString i).toList = Nat.toDigits 10 i := Nat.toList_repr
      rw [htext] at hname
      cases hdigits : Nat.toDigits 10 i with
      | nil => exact Nat.toDigits_ne_nil hdigits
      | cons c cs =>
          have hc : c ∈ Nat.toDigits 10 i := hdigits ▸ List.mem_cons_self
          have hdigit := Nat.isDigit_of_mem_toDigits (by decide) (by decide) hc
          rw [hdigits] at hname
          change Lexeme.isNameStart c = true at hname
          rw [isNameStart_of_isDigit hdigit] at hname
          cases hname

theorem selectItem?_toString {items : List Node} (htidy : ∀ item ∈ items, item.Tidy) (i : Nat) :
    selectItem? items (toString i) = items[i]? := by
  rw [selectItem?, find?_hasLabel htidy, Option.none_or, placeOfText?_toString]
  rfl

section

variable {chain : List Object} {walked rest : List String} {o inner : Object} {key next : String}
  {node item : Node} {name : String} {items : List Node}

theorem locateFrom_field (hget : o.get? key = some node) :
    locateFrom chain walked o [key] = .ok ⟨chain, node⟩ := by
  rw [locateFrom, hget]

theorem locateFrom_object (hget : o.get? key = some (.object inner)) (hrest : rest ≠ []) :
    locateFrom chain walked o (key :: rest) =
      locateFrom (chain ++ [inner]) (walked ++ [key]) inner rest := by
  obtain ⟨next, rest, rfl⟩ := List.exists_cons_of_ne_nil hrest
  rw [locateFrom, hget]

theorem locateFrom_item (hget : o.get? key = some (.list name items))
    (hselect : selectItem? items next = some item) :
    locateFrom chain walked o [key, next] = .ok ⟨chain, item⟩ := by
  rw [locateFrom, hget]
  simp only [hselect]

theorem locateFrom_item_object (hget : o.get? key = some (.list name items))
    (hselect : selectItem? items next = some (.object inner)) (hrest : rest ≠ []) :
    locateFrom chain walked o (key :: next :: rest) =
      locateFrom (chain ++ [inner]) (walked ++ [key] ++ [next]) inner rest := by
  obtain ⟨after, rest, rfl⟩ := List.exists_cons_of_ne_nil hrest
  rw [locateFrom, hget]
  simp only [hselect]

end

namespace Leads

variable {d : Document} {path : List String} {chain : List Object} {o : Object} {key : String}
  {node : Node}

theorem tidy_last (h : d.Leads path chain o) : o.Tidy :=
  h.tidy o (List.mem_of_getLast? h.last)

theorem enter {inner : Object} (h : d.Leads path chain o) (hinner : inner.Tidy)
    {walked : List String}
    (hlocate : ∀ rest, rest ≠ [] →
      locateFrom chain path o (walked ++ rest) =
        locateFrom (chain ++ [inner]) (path ++ walked) inner rest) :
    d.Leads (path ++ walked) (chain ++ [inner]) inner := by
  refine ⟨?_, List.getLast?_concat, fun rest hrest => ?_⟩
  · intro o' hmem
    rcases List.mem_append.mp hmem with hmem | hmem
    · exact h.tidy o' hmem
    · rwa [List.mem_singleton.mp hmem]
  · rw [List.append_assoc, h.locate _ (by simp [hrest]), hlocate rest hrest]

/-- The path to a field. -/
theorem finds (h : d.Leads path chain o) (hget : o.get? key = some node) :
    d.Finds (path ++ [key]) chain node := by
  constructor
  · rw [h.locate [key] (List.cons_ne_nil _ _)]
    exact locateFrom_field hget
  · rintro inner rfl
    have hinner := (h.tidy_last.fields.of_get? hget).1.of_object
    apply h.enter hinner
    intro rest hrest
    exact locateFrom_object hget hrest

/-- The path to an item of a list. -/
theorem finds_item {name : String} {items : List Node} {i : Nat} {item : Node}
    (h : d.Leads path chain o) (hget : o.get? key = some (.list name items))
    (hitem : items[i]? = some item) : d.Finds (path ++ [key] ++ [toString i]) chain item := by
  have hitems := (h.tidy_last.fields.of_get? hget).1.items
  have hselect : selectItem? items (toString i) = some item :=
    (selectItem?_toString (fun item hmem => (hitems item hmem).tidy) i).trans hitem
  rw [List.append_assoc, List.singleton_append]
  constructor
  · rw [h.locate _ (List.cons_ne_nil _ _)]
    exact locateFrom_item hget hselect
  · rintro inner rfl
    have hinner := (hitems _ (List.mem_of_getElem? hitem)).tidy.of_object
    apply h.enter hinner
    intro rest hrest
    rw [List.cons_append, List.singleton_append, locateFrom_item_object hget hselect hrest,
      List.append_assoc]
    rfl

end Leads

/-! ## Paths to leaves -/

/-- A node is an item of a list of nothing but options; it is part of a leaf. -/
def InLeaf (chain : List Object) (node : Node) : Prop :=
  ∃ o key name items, chain.getLast? = some o ∧ o.get? key = some (.list name items) ∧
    items.all Node.isOption = true ∧ node ∈ items

/-- A path leads to an option, to a list of nothing but options, or to an option that is an item
of another list. -/
def LeafPath (d : Document) (q : List String) : Prop :=
  ∃ chain node, d.locate q = .ok ⟨chain, node⟩ ∧ node.isValue = true ∧ ¬ InLeaf chain node

theorem mem_leavesOfFields {fields : Fields} {q : List String} :
    q ∈ leavesOfFields fields ↔
      ∃ key node rest, (key, node) ∈ fields ∧ rest ∈ node.leaves ∧ q = key :: rest := by
  induction fields with
  | nil => simp [leavesOfFields]
  | cons field fields ih =>
      obtain ⟨key, node⟩ := field
      rw [leavesOfFields, List.mem_append, List.mem_map, ih]
      constructor
      · rintro (⟨rest, hrest, rfl⟩ | ⟨key', node', rest, hmem, hrest, heq⟩)
        · exact ⟨key, node, rest, List.mem_cons_self, hrest, rfl⟩
        · exact ⟨key', node', rest, List.mem_cons_of_mem _ hmem, hrest, heq⟩
      · rintro ⟨key', node', rest, hmem, hrest, rfl⟩
        rcases List.mem_cons.mp hmem with heq | hmem
        · cases heq
          exact .inl ⟨rest, hrest, rfl⟩
        · exact .inr ⟨key', node', rest, hmem, hrest, rfl⟩

theorem mem_leavesOfItems {items : List Node} {place : Nat} {q : List String} :
    q ∈ leavesOfItems place items ↔ ∃ (i : Nat) (item : Node) (rest : List String),
      items[i]? = some item ∧ rest ∈ item.leaves ∧ q = toString (place + i) :: rest := by
  induction items generalizing place with
  | nil => simp [leavesOfItems]
  | cons other items ih =>
      rw [leavesOfItems, List.mem_append, List.mem_map, ih]
      constructor
      · rintro (⟨rest, hrest, rfl⟩ | ⟨i, item, rest, hitem, hrest, rfl⟩)
        · exact ⟨0, other, rest, rfl, hrest, rfl⟩
        · exact ⟨i + 1, item, rest, hitem, hrest, by rw [Nat.add_comm i 1, ← Nat.add_assoc]⟩
      · rintro ⟨i, item, rest, hitem, hrest, rfl⟩
        cases i with
        | zero =>
            cases hitem
            exact .inl ⟨rest, hrest, rfl⟩
        | succ i =>
            exact .inr ⟨i, item, rest, hitem, hrest, by rw [Nat.add_comm i 1, ← Nat.add_assoc]⟩

theorem leaves_eq (o : Object) : o.leaves = leavesOfFields o.fields := by
  cases o
  rw [Object.leaves]

theorem mem_leaves {o : Object} (ho : o.Tidy) {q : List String} :
    q ∈ o.leaves ↔
      ∃ key node rest, o.get? key = some node ∧ rest ∈ node.leaves ∧ q = key :: rest := by
  rw [leaves_eq, mem_leavesOfFields]
  constructor
  · rintro ⟨key, node, rest, hmem, hrest⟩
    exact ⟨key, node, rest, Keyed.get?_of_mem ho.fields.distinct hmem, hrest⟩
  · rintro ⟨key, node, rest, hget, hrest⟩
    exact ⟨key, node, rest, Keyed.mem_of_get? hget, hrest⟩

/-- The items of a list of other things than options have leaves of their own. -/
theorem mem_leavesOfList {name : String} {items : List Node} {q : List String}
    (hall : items.all Node.isOption ≠ true) :
    q ∈ (Node.list name items).leaves ↔ ∃ (i : Nat) (item : Node) (rest : List String),
      items[i]? = some item ∧ rest ∈ item.leaves ∧ q = toString i :: rest := by
  rw [Node.leaves, if_neg hall, mem_leavesOfItems]
  simp only [Nat.zero_add]

theorem nil_mem_leaves {node : Node} (h : node.isValue = true) : [] ∈ node.leaves := by
  cases node with
  | option binding => simp [Node.leaves]
  | object o => cases h
  | list name items =>
      have hall : items.all Node.isOption = true := h
      simp [Node.leaves, hall]

/-- A node with a value has no leaf but itself. -/
theorem eq_nil_of_mem_leaves {node : Node} {q : List String} (hvalue : node.isValue = true)
    (hq : q ∈ node.leaves) : q = [] := by
  cases node with
  | option binding => simpa [Node.leaves] using hq
  | object inner => cases hvalue
  | list name items =>
      have hall : items.all Node.isOption = true := hvalue
      simpa [Node.leaves, hall] using hq

theorem ne_nil_of_mem_leaves {o : Object} {q : List String} (hq : q ∈ o.leaves) : q ≠ [] := by
  rw [leaves_eq, mem_leavesOfFields] at hq
  obtain ⟨key, node, rest, -, -, rfl⟩ := hq
  exact List.cons_ne_nil _ _

section

variable {o inner : Object} {key name : String} {items : List Node} {leaf : List String}

theorem mem_leaves_object (ho : o.Tidy) (hget : o.get? key = some (.object inner))
    (hleaf : leaf ∈ inner.leaves) : key :: leaf ∈ o.leaves := by
  have hmem : leaf ∈ (Node.object inner).leaves := by rwa [Node.leaves]
  exact (mem_leaves ho).mpr ⟨key, _, leaf, hget, hmem, rfl⟩

theorem mem_leaves_item {i : Nat} {item : Node} (ho : o.Tidy)
    (hget : o.get? key = some (.list name items)) (hall : items.all Node.isOption ≠ true)
    (hitem : items[i]? = some item) (hleaf : leaf ∈ item.leaves) :
    key :: toString i :: leaf ∈ o.leaves := by
  have hmem := (@mem_leavesOfList name _ _ hall).mpr ⟨i, item, leaf, hitem, hleaf, rfl⟩
  exact (mem_leaves ho).mpr ⟨key, _, _, hget, hmem, rfl⟩

end

/-- Where a path leads to a leaf, the path of a leaf leads there. -/
theorem exists_leaf {objects chain : List Object} {walked q : List String} {o : Object}
    {node : Node} (ho : o.Tidy) (hlast : objects.getLast? = some o)
    (h : locateFrom objects walked o q = .ok ⟨chain, node⟩) (hvalue : node.isValue = true) :
    InLeaf chain node ∨
      ∃ leaf ∈ o.leaves, ∀ walked, locateFrom objects walked o leaf = .ok ⟨chain, node⟩ := by
  -- the path leads on from the field that its first key names; the other cases are errors
  fun_induction locateFrom objects walked o q with
  | case1 => cases h
  | case2 => cases h
  | case3 objects walked o key field hget =>
      cases h
      right
      refine ⟨[key], (mem_leaves ho).mpr ⟨key, _, [], hget, nil_mem_leaves hvalue, rfl⟩, ?_⟩
      intro walked
      exact locateFrom_field hget
  | case4 => cases h
  | case5 objects walked o key next rest here inner hget ih =>
      have hinner := (ho.fields.of_get? hget).1.of_object
      rcases ih hinner List.getLast?_concat h with hin | ⟨leaf, hleaf, hlocate⟩
      · exact .inl hin
      · right
        refine ⟨key :: leaf, mem_leaves_object ho hget hleaf, ?_⟩
        intro walked
        rw [locateFrom_object hget (ne_nil_of_mem_leaves hleaf)]
        exact hlocate _
  | case6 => cases h
  | case7 => cases h
  | case8 objects walked o key next name items hget item hselect =>
      cases h
      have hitems := (ho.fields.of_get? hget).1.items
      have hmem := mem_of_selectItem? hselect
      by_cases hall : items.all Node.isOption = true
      · exact .inl ⟨o, key, name, items, hlast, hget, hall, hmem⟩
      · -- the item may have been chosen by its label, but it has a place as well
        obtain ⟨i, hitem⟩ := List.getElem?_of_mem hmem
        have hplace := selectItem?_toString (fun item hmem => (hitems item hmem).tidy) i
        right
        refine ⟨[key, toString i],
          mem_leaves_item ho hget hall hitem (nil_mem_leaves hvalue), ?_⟩
        intro walked
        exact locateFrom_item hget (hplace.trans hitem)
  | case9 objects walked o key next here name items hget here' inner rest _ hselect ih =>
      have hitems := (ho.fields.of_get? hget).1.items
      have hmem := mem_of_selectItem? hselect
      have hall : items.all Node.isOption ≠ true := by
        intro hall
        exact absurd (List.all_eq_true.mp hall _ hmem) Bool.false_ne_true
      obtain ⟨i, hitem⟩ := List.getElem?_of_mem hmem
      have hplace := selectItem?_toString (fun item hmem => (hitems item hmem).tidy) i
      rcases ih (hitems _ hmem).tidy.of_object List.getLast?_concat h with
        hin | ⟨leaf, hleaf, hlocate⟩
      · exact .inl hin
      · have hleaf' : leaf ∈ (Node.object inner).leaves := by rwa [Node.leaves]
        right
        refine ⟨key :: toString i :: leaf, mem_leaves_item ho hget hall hitem hleaf', ?_⟩
        intro walked
        rw [locateFrom_item_object hget (hplace.trans hitem) (ne_nil_of_mem_leaves hleaf)]
        exact hlocate _
  | case10 => cases h

section

variable {d : Document} {path : List String} {chain : List Object} {o : Object} {key : String}
  {node field : Node}

/-- A node under a name can be part of a leaf only as an item of the field of that name. -/
theorem Leads.not_inLeaf (h : d.Leads path chain o) (hget : o.get? key = some field)
    (hname : node.name = key)
    (hitem : ∀ name items, field = .list name items → items.all Node.isOption = true →
      node ∉ items) : ¬ InLeaf chain node := by
  rintro ⟨o', key', name, items, hlast, hget', hall, hmem⟩
  obtain rfl : o = o' := Option.some.inj (h.last.symm.trans hlast)
  obtain ⟨htidy, hlist⟩ := h.tidy_last.fields.of_get? hget'
  have hkey : key = key' := hname.symm.trans ((htidy.items node hmem).named.trans hlist)
  rw [← hkey, hget] at hget'
  exact hitem name items (Option.some.inj hget') hall hmem

/-- A field with a value is a leaf. -/
theorem Leads.leafPath_field (h : d.Leads path chain o) (hget : o.get? key = some node)
    (hvalue : node.isValue = true) : d.LeafPath (path ++ [key]) := by
  obtain ⟨htidy, hname⟩ := h.tidy_last.fields.of_get? hget
  refine ⟨chain, node, (h.finds hget).locate, hvalue, h.not_inLeaf hget hname ?_⟩
  rintro name items rfl - hmem
  cases (htidy.items _ hmem).single

/-- An option that is an item of a list of other things is a leaf. -/
theorem Leads.leafPath_item {name : String} {items : List Node} {i : Nat} {binding : Binding}
    (h : d.Leads path chain o) (hget : o.get? key = some (.list name items))
    (hall : items.all Node.isOption ≠ true) (hitem : items[i]? = some (.option binding)) :
    d.LeafPath (path ++ [key] ++ [toString i]) := by
  obtain ⟨htidy, hname⟩ := h.tidy_last.fields.of_get? hget
  have hisItem := htidy.items _ (List.mem_of_getElem? hitem)
  refine ⟨chain, _, (h.finds_item hget hitem).locate, rfl,
    h.not_inLeaf hget (hisItem.named.trans hname) ?_⟩
  rintro name' items' ⟨⟩ hall'
  exact absurd hall' hall

/-- The leaves of an object are leaves. -/
theorem Leads.leafPath {q : List String} (h : d.Leads path chain o) (hq : q ∈ o.leaves) :
    d.LeafPath (path ++ q) := by
  -- a leaf of an inner object is reached by a shorter path
  induction hlength : q.length using Nat.strong_induction_on generalizing path chain o q with
  | _ n ih =>
      obtain ⟨key, node, rest, hget, hrest, rfl⟩ := (mem_leaves h.tidy_last).mp hq
      by_cases hvalue : node.isValue = true
      · rw [eq_nil_of_mem_leaves hvalue hrest]
        exact h.leafPath_field hget hvalue
      rw [List.append_cons]
      cases node with
      | option binding => exact absurd rfl hvalue
      | object inner =>
          rw [Node.leaves] at hrest
          exact ih rest.length (by rw [← hlength]; simp) ((h.finds hget).object inner rfl) hrest rfl
      | list name items =>
          obtain ⟨i, item, more, hitem, hmore, rfl⟩ := (mem_leavesOfList hvalue).mp hrest
          rw [List.append_cons]
          cases item with
          | option binding =>
              rw [eq_nil_of_mem_leaves rfl hmore, List.append_nil]
              exact h.leafPath_item hget hvalue hitem
          | object inner =>
              rw [Node.leaves] at hmore
              exact ih more.length (by rw [← hlength]; simp)
                ((h.finds_item hget hitem).object inner rfl) hmore rfl
          | list _ _ =>
              have htidy := (h.tidy_last.fields.of_get? hget).1
              cases (htidy.items _ (List.mem_of_getElem? hitem)).single

end

end Document

end ConfigLang
