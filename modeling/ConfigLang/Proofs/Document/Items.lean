import Mathlib
import ConfigLang.Proofs.Document.PartProjection

/-!
# Lists of options

A list of options is evaluated as one: first everything that any of its items refers to, then the
items one after the other, in one environment.  An item that is asked for alone is evaluated after
its own references, in an environment of its own.

Both come to the same (`list_by_items`).  The items carry the name of the list, so that a name
stands for the same field in the list and in each item (`mem_references_list`), and what other items
bind besides does not matter to an item (`valueFrom_item`).  A cycle through the list is no
exception: it is met by the item that leads to it.
-/

namespace ConfigLang

open Resolution Running

section

variable {host : Host Id} {env : Environment} {items : List Node} {name : String}

/-! ## The items in one environment -/

theorem evaluateItems_eq_ok_iff {vs : List Value} :
    (evaluateItems host env items).run.run = .ok vs ↔
      List.Forall₂ (fun item v => (evaluateNode host env item).run.run = .ok v) items vs := by
  induction items generalizing vs with
  | nil =>
      rw [evaluateItems, List.forall₂_nil_left_iff]
      exact ⟨fun h => (Except.ok.inj h).symm, fun h => h ▸ rfl⟩
  | cons item items ih =>
      rw [evaluateItems, run_bind_id, List.forall₂_cons_left_iff]
      constructor
      · intro h
        obtain ⟨v, hv, h⟩ := bind_eq_ok h
        rw [run_bind_id] at h
        obtain ⟨ws, hws, h⟩ := bind_eq_ok h
        exact ⟨v, ws, hv, ih.mp hws, (Except.ok.inj h).symm⟩
      · rintro ⟨v, ws, hv, hws, rfl⟩
        rw [hv, ok_bind, run_bind_id, ih.mpr hws]
        rfl

theorem evaluateNode_list_eq_ok_iff {v : Value} :
    (evaluateNode host env (.list name items)).run.run = .ok v ↔
      ∃ vs, v = .slice vs ∧
        List.Forall₂ (fun item v => (evaluateNode host env item).run.run = .ok v) items vs := by
  rw [evaluateNode, run_bind_id]
  constructor
  · intro h
    obtain ⟨vs, hvs, h⟩ := bind_eq_ok h
    exact ⟨vs, (Except.ok.inj h).symm, evaluateItems_eq_ok_iff.mp hvs⟩
  · rintro ⟨vs, rfl, hvs⟩
    rw [evaluateItems_eq_ok_iff.mpr hvs]
    rfl

end

/-! ## What a list refers to -/

theorem readsItems_iff {scope : VarScope} {name : String} {items : List Node} :
    Node.ReadsItems scope name items ↔ ∃ item ∈ items, item.Reads scope name := by
  induction items with
  | nil => simp [Node.ReadsItems]
  | cons item items ih => simp [Node.ReadsItems, ih]

section

variable {host : Host Id} {base : Frame} {chain : List Object} {level : Nat} {name : String}
  {items : List Node} {worth : Site → Except EvalError Value}

/-- A list refers to whatever one of its items refers to. -/
theorem mem_references_list (hnamed : ∀ item ∈ items, item.name = name) {site : Site} :
    site ∈ references chain level (.list name items) ↔
      ∃ item ∈ items, site ∈ references chain level item := by
  have howner (item : Node) (hitem : item ∈ items) :
      site ∈ references chain level item ↔
        item.Reads .enclosing site.2 ∧ owner? chain level name site.2 = some site.1 := by
    rw [mem_references, Node.mem_locals, hnamed item hitem]
  rw [mem_references, Node.mem_locals, Node.Reads, readsItems_iff]
  constructor
  · rintro ⟨⟨item, hitem, hreads⟩, hsite⟩
    exact ⟨item, hitem, (howner item hitem).mpr ⟨hreads, hsite⟩⟩
  · rintro ⟨item, hitem, hmem⟩
    obtain ⟨hreads, hsite⟩ := (howner item hitem).mp hmem
    exact ⟨⟨item, hitem, hreads⟩, hsite⟩

theorem exists_gather_ok {sites : List Site} (h : ∀ site ∈ sites, ∃ v, worth site = .ok v) :
    ∃ bindings, gather worth sites = .ok bindings := by
  induction sites with
  | nil => exact ⟨[], rfl⟩
  | cons site sites ih =>
      obtain ⟨hsite, hsites⟩ := List.forall_mem_cons.mp h
      obtain ⟨v, hv⟩ := hsite
      obtain ⟨bindings, hbindings⟩ := ih hsites
      exact ⟨(site.2, v) :: bindings, by rw [gather_cons_ok hv, hbindings]; rfl⟩

/-- An item has the same value among the others as it has alone. -/
theorem valueFrom_item (hnamed : ∀ item ∈ items, item.name = name)
    {bindings : List (String × Value)}
    (h : gather worth (references chain level (.list name items)) = .ok bindings)
    {item : Node} (hitem : item ∈ items) :
    valueFrom host base chain worth level item =
      (evaluateNode host ⟨base, [⟨bindings⟩]⟩ item).run.run := by
  have hsubset : ∀ site ∈ references chain level item, ∃ v, worth site = .ok v := by
    intro site hsite
    exact worth_ok_of_gather_ok h site ((mem_references_list hnamed).mpr ⟨item, hitem, hsite⟩)
  obtain ⟨own, hown⟩ := exists_gather_ok hsubset
  rw [valueFrom, hown]
  -- the item sees its own names alike in both environments
  have hsame : evaluateNode host ⟨base, [⟨own⟩]⟩ item =
      evaluateNode host ⟨base, [⟨bindings⟩]⟩ item := by
    refine evaluateNode_congr host rfl fun local' hlocal => ?_
    have hlist : local' ∈ (Node.list name items).locals := by
      rw [Node.mem_locals, Node.Reads, readsItems_iff]
      exact ⟨item, hitem, Node.mem_locals.mp hlocal⟩
    rw [resolveLocal_bindings hown hlocal, resolveLocal_bindings h hlist, hnamed item hitem]
    rfl
  exact congrArg (fun x : ExceptT EvalError Id Value => x.run.run) hsame

/-- A list of options has a value if each of its items has, and it is the slice of these. -/
theorem valueFrom_list_eq_ok_iff (hnamed : ∀ item ∈ items, item.name = name) {v : Value} :
    valueFrom host base chain worth level (.list name items) = .ok v ↔
      ∃ vs, v = .slice vs ∧
        List.Forall₂ (fun item v => valueFrom host base chain worth level item = .ok v)
          items vs := by
  have hforall {bindings : List (String × Value)} {vs : List Value}
      (h : gather worth (references chain level (.list name items)) = .ok bindings) :
      List.Forall₂
          (fun item v => (evaluateNode host ⟨base, [⟨bindings⟩]⟩ item).run.run = .ok v) items vs ↔
        List.Forall₂ (fun item v => valueFrom host base chain worth level item = .ok v)
          items vs := by
    simp only [List.forall₂_iff_get]
    refine and_congr_right fun _ => forall_congr' fun i => forall_congr' fun hi => ?_
    rw [valueFrom_item hnamed h (List.get_mem items ⟨i, hi⟩)]
  constructor
  · intro hv
    cases hgather : gather worth (references chain level (.list name items)) with
    | error e =>
        rw [valueFrom, hgather] at hv
        cases hv
    | ok bindings =>
        rw [valueFrom, hgather] at hv
        obtain ⟨vs, rfl, hvs⟩ := evaluateNode_list_eq_ok_iff.mp hv
        exact ⟨vs, rfl, (hforall hgather).mp hvs⟩
  · rintro ⟨vs, rfl, hvs⟩
    -- whatever the list refers to has a value, since an item with a value refers to it
    have hworth : ∀ site ∈ references chain level (.list name items),
        ∃ v, worth site = .ok v := by
      intro site hsite
      obtain ⟨item, hitem, hsite⟩ := (mem_references_list hnamed).mp hsite
      obtain ⟨i, hi, rfl⟩ := List.getElem_of_mem hitem
      have hi' : i < vs.length := hvs.length_eq ▸ hi
      exact worth_ok_of_valueFrom_ok (hvs.get hi hi') site hsite
    obtain ⟨bindings, hgather⟩ := exists_gather_ok hworth
    rw [valueFrom, hgather]
    exact evaluateNode_list_eq_ok_iff.mpr ⟨vs, rfl, (hforall hgather).mpr hvs⟩

end

/-! ## The items of a list in a document -/

theorem mapError_eq_ok_iff {ε ε' α : Type} {f : ε → ε'} {x : Except ε α} {a : α} :
    x.mapError f = .ok a ↔ x = .ok a := by
  cases x <;> simp [Except.mapError]

namespace Document

section

variable {chain : List Object} {path : List String} {name : String} {items : List Node}

/-- Where a list is found, its items are found behind it, by their places. -/
theorem locateFrom_place {objects : List Object} {walked : List String} {o : Object}
    (ho : o.Tidy) (h : locateFrom objects walked o path = .ok ⟨chain, .list name items⟩) {i : Nat}
    {item : Node} (hitem : items[i]? = some item) :
    (Node.list name items).Tidy ∧
      locateFrom objects walked o (path ++ [toString i]) = .ok ⟨chain, item⟩ := by
  fun_induction locateFrom objects walked o path with
  | case1 => cases h
  | case2 => cases h
  | case3 objects walked o key node hget =>
      cases h
      have htidy := (ho.fields.of_get? hget).1
      have hselect := selectItem?_toString (fun item hmem => (htidy.items item hmem).tidy) i
      exact ⟨htidy, locateFrom_item hget (hselect.trans hitem)⟩
  | case4 => cases h
  | case5 objects walked o key next rest here inner hget ih =>
      rw [List.cons_append, locateFrom_object hget (by simp)]
      exact ih (ho.fields.of_get? hget).1.of_object h
  | case6 => cases h
  | case7 => cases h
  | case8 objects walked o key next name items hget item hselect =>
      -- no item is a list
      cases h
      have hmem := mem_of_selectItem? hselect
      exact absurd ((ho.fields.of_get? hget).1.items _ hmem).single (by simp [Node.isList])
  | case9 objects walked o key next here name items hget here' inner rest hrest hselect ih =>
      have hinner := ((ho.fields.of_get? hget).1.items _ (mem_of_selectItem? hselect)).tidy
      rw [List.cons_append, List.cons_append,
        locateFrom_item_object hget hselect (List.append_ne_nil_of_left_ne_nil hrest _)]
      exact ih hinner.of_object h
  | case10 => cases h

variable {d : Document} {host : Host Id} {v : Value}

theorem isValue_of_all_isOption (hoptions : items.all Node.isOption = true) {i : Nat} {item : Node}
    (hitem : items[i]? = some item) : item.isValue = true := by
  have hoption : item.isOption = true :=
    List.all_eq_true.mp hoptions item (List.mem_of_getElem? hitem)
  cases item with
  | option binding => rfl
  | object o => cases hoption
  | list name items => cases hoption

/-- A document that is whole evaluates a list of options item by item. -/
theorem Tidy.value_list_eq_ok_iff (hd : d.Tidy)
    (hlocate : d.locate path = .ok ⟨chain, .list name items⟩)
    (hoptions : items.all Node.isOption = true) :
    Id.run (d.value host path).run = .ok v ↔
      ∃ vs, v = .slice vs ∧ vs.length = items.length ∧
        ∀ (i : Nat) (w : Value), vs[i]? = some w →
          Id.run (d.value host (path ++ [toString i])).run = .ok w := by
  have hnamed : ∀ item ∈ items, item.name = name := by
    intro item hmem
    obtain ⟨i, hitem⟩ := List.getElem?_of_mem hmem
    exact ((locateFrom_place hd.root hlocate hitem).1.items item hmem).named
  -- an item is searched for from the site of the list
  have hitem {i : Nat} {item : Node} (hitem : items[i]? = some item) (w : Value) :
      Id.run (d.value host (path ++ [toString i])).run = .ok w ↔
        valueFrom host d.base chain (search host d.base chain [(chain.length - 1, name)])
          (chain.length - 1) item = .ok w := by
    rw [value_eq_search host hd (locateFrom_place hd.root hlocate hitem).2
      (isValue_of_all_isOption hoptions hitem), mapError_eq_ok_iff,
      hnamed item (List.mem_of_getElem? hitem)]
  rw [value_eq_search host hd hlocate hoptions, mapError_eq_ok_iff,
    valueFrom_list_eq_ok_iff hnamed]
  refine exists_congr fun vs => and_congr_right fun _ => ?_
  rw [List.forall₂_iff_get]
  constructor
  · rintro ⟨hlength, h⟩
    refine ⟨hlength.symm, fun i w hw => ?_⟩
    obtain ⟨hi, rfl⟩ := List.getElem?_eq_some_iff.mp hw
    have hi' : i < items.length := hlength ▸ hi
    exact (hitem (List.getElem?_eq_getElem hi') _).mpr (h i hi' hi)
  · rintro ⟨hlength, h⟩
    refine ⟨hlength.symm, fun i hi' hi => ?_⟩
    exact (hitem (List.getElem?_eq_getElem hi') _).mp (h i _ (List.getElem?_eq_getElem hi))

theorem Obtained.value_list_eq_ok_iff (hd : d.Obtained)
    (hlocate : d.locate path = .ok ⟨chain, .list name items⟩)
    (hoptions : items.all Node.isOption = true) :
    Id.run (d.value host path).run = .ok v ↔
      ∃ vs, v = .slice vs ∧ vs.length = items.length ∧
        ∀ (i : Nat) (w : Value), vs[i]? = some w →
          Id.run (d.value host (path ++ [toString i])).run = .ok w := by
  obtain ⟨D, hD, rfl | ⟨p, outer, hpart⟩⟩ := hd.exists_whole
  · exact hD.value_list_eq_ok_iff hlocate hoptions
  · -- the whole document has the same values behind the path of the part
    have hne : path ≠ [] := by
      rintro rfl
      cases hlocate
    have hvalue {q : List String} (hq : q ≠ []) (w : Value) :
        Id.run (d.value host q).run = .ok w ↔ Id.run (D.value host (p ++ q)).run = .ok w := by
      rw [hpart.value_eq hD.root hq]
      exact mapError_eq_ok_iff.symm
    have hwhole : D.locate (p ++ path) = .ok ⟨outer ++ chain, .list name items⟩ := by
      rw [hpart.locate_append hne, hlocate]
      rfl
    rw [hvalue hne, hD.value_list_eq_ok_iff hwhole hoptions]
    simp only [hvalue (List.append_ne_nil_of_left_ne_nil hne _), List.append_assoc]

theorem Obtained.value_list_eq_slice_iff (hd : d.Obtained)
    (hlocate : d.locate path = .ok ⟨chain, .list name items⟩)
    (hoptions : items.all Node.isOption = true) (vs : List Value) :
    Id.run (d.value host path).run = .ok (.slice vs) ↔
      vs.length = items.length ∧ ∀ (i : Nat) (v : Value), vs[i]? = some v →
        Id.run (d.value host (path ++ [toString i])).run = .ok v := by
  rw [hd.value_list_eq_ok_iff hlocate hoptions]
  simp only [Value.slice.injEq, exists_eq_left']

theorem Obtained.value_list_eq_error_iff (hd : d.Obtained)
    (hlocate : d.locate path = .ok ⟨chain, .list name items⟩)
    (hoptions : items.all Node.isOption = true) :
    (∃ e, Id.run (d.value host path).run = .error e) ↔
      ∃ i < items.length, ∃ e, Id.run (d.value host (path ++ [toString i])).run = .error e := by
  constructor
  · -- if every item had a value, the list would have the slice of them
    rintro ⟨e, he⟩
    by_contra hnone
    push Not at hnone
    have hsome : ∀ i : Fin items.length, ∃ v,
        Id.run (d.value host (path ++ [toString i.val])).run = .ok v := by
      intro i
      cases hi : Id.run (d.value host (path ++ [toString i.val])).run with
      | error e => exact absurd hi (hnone i i.isLt e)
      | ok v => exact ⟨v, rfl⟩
    choose v hv using hsome
    have hvs : Id.run (d.value host path).run = .ok (.slice (List.ofFn v)) := by
      refine (hd.value_list_eq_slice_iff hlocate hoptions _).mpr
        ⟨List.length_ofFn, fun i w hw => ?_⟩
      obtain ⟨hi, rfl⟩ := List.getElem?_eq_some_iff.mp hw
      rw [List.getElem_ofFn]
      exact hv ⟨i, _⟩
    rw [hvs] at he
    cases he
  · rintro ⟨i, hi, e, he⟩
    cases hrun : Id.run (d.value host path).run with
    | error e => exact ⟨e, rfl⟩
    | ok v =>
        obtain ⟨vs, rfl, hlength, h⟩ := (hd.value_list_eq_ok_iff hlocate hoptions).mp hrun
        have hitem := h i _ (List.getElem?_eq_getElem (hlength ▸ hi))
        rw [he] at hitem
        cases hitem

/-- **A list of options evaluates item by item.**  Its value is the slice of the values that its
items have on their own, and it fails if one of them fails on its own. -/
theorem list_by_items (host : Host Id) (hd : d.Obtained)
    (hnode : d.node path = .ok (.list name items)) (hoptions : items.all Node.isOption = true) :
    (∀ v, Id.run (d.value host path).run = .ok v → ∃ vs, v = .slice vs) ∧
    (∀ vs, Id.run (d.value host path).run = .ok (.slice vs) ↔
      vs.length = items.length ∧ ∀ (i : Nat) (v : Value), vs[i]? = some v →
        Id.run (d.value host (path ++ [toString i])).run = .ok v) ∧
    ((∃ e, Id.run (d.value host path).run = .error e) ↔
      ∃ i < items.length, ∃ e, Id.run (d.value host (path ++ [toString i])).run = .error e) := by
  obtain ⟨⟨chain, node⟩, hlocate, rfl⟩ := map_eq_ok hnode
  refine ⟨?_, hd.value_list_eq_slice_iff hlocate hoptions,
    hd.value_list_eq_error_iff hlocate hoptions⟩
  intro v hv
  obtain ⟨vs, rfl, -⟩ := (hd.value_list_eq_ok_iff hlocate hoptions).mp hv
  exact ⟨vs, rfl⟩

end

/-- A list with an item that refers to an option of the same name further out. -/
theorem list_by_items_of_outer_name :
    let host : Host Id := ⟨fun _ => .error .notFound, fun _ => false, fun _ => false, fun _ => 0⟩
    ∃ (d : Document) (node : Node) (vs : List Value), d.Obtained ∧
      d.node ["in", "a"] = .ok node ∧ node.isList = true ∧ node.isValue = true ∧
      Id.run (d.value host ["in", "a"]).run = .ok (.slice vs) ∧
      (Value.slice vs).toText = "[5, 2]" ∧
      ∀ (i : Nat) (v : Value), vs[i]? = some v →
        Id.run (d.value host (["in", "a"] ++ [toString i])).run = .ok v := by
  intro host
  let setting : Setting (StateM Unit) :=
    ⟨(FileTree.mk [] []).host, (FileTree.mk [] []).source, .empty, none⟩
  have hfound : ((ofText setting "a = 5\nin \x7b a = $a\na = 2 \x7d\n").run.run ()).1.toOption.any
      (fun d => (d.node ["in", "a"]).toOption.any (fun node => node.isList && node.isValue) &&
        (Id.run (d.value host ["in", "a"]).run).toOption.any (·.toText = "[5, 2]")) = true := by
    decide +kernel
  obtain ⟨d, _, hbuilt, hfound⟩ := exists_of_any_run hfound
  have hd : d.Obtained := .built (.ofText setting _ hbuilt)
  obtain ⟨hlist, hvalue⟩ := Bool.and_eq_true_iff.mp hfound
  obtain ⟨node, hnode, hlist⟩ := exists_of_any hlist
  obtain ⟨hlist, hoptions⟩ := Bool.and_eq_true_iff.mp hlist
  obtain ⟨v, hv, htext⟩ := exists_of_any hvalue
  cases node with
  | option binding => cases hlist
  | object o => cases hlist
  | list name items =>
      obtain ⟨hslice, hitems, -⟩ := list_by_items host hd hnode hoptions
      obtain ⟨vs, rfl⟩ := hslice v hv
      obtain ⟨-, hitem⟩ := (hitems vs).mp hv
      exact ⟨d, _, vs, hd, hnode, hlist, hoptions, hv, of_decide_eq_true htext, hitem⟩

end Document

end ConfigLang
