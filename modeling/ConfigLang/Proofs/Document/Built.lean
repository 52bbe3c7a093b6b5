import Mathlib
import ConfigLang.Document.Query
import ConfigLang.Proofs.Document.Memo
import ConfigLang.Proofs.Expand.Tidy

/-!
# Documents that are built

`Document.Built` are the documents that come out of the builder, in any world: what
it asks of the host and of its sources may depend on a state, and change it.  Their
trees are tidy (`Built.tidy`), and so are all objects on the way to a node
(`Stands`), whose fields therefore carry their names.
-/

namespace ConfigLang

open Running

namespace Document

/-- A document that is built of a text or of a file. -/
inductive Built : Document → Prop
  | ofText {σ : Type} (s : Setting (StateM σ)) (text : String) {before after : σ} {d : Document}
      (h : (Document.ofText s text).run.run before = (.ok d, after)) : Built d
  | ofFile {σ : Type} (s : Setting (StateM σ)) (path : String) {before after : σ} {d : Document}
      (h : (Document.ofFile s path).run.run before = (.ok d, after)) : Built d

/-- A whole document with a tidy root. -/
structure Tidy (d : Document) : Prop where
  root : d.root.Tidy
  whole : d.ancestors = []

theorem tidy_ofText {m : Type → Type} [Monad m] [LawfulMonad m] (s : Setting m) (text : String) :
    Ensures (ofText s text) Tidy := by
  have hparse : Ensures (ExceptT.mk (pure ((parseDocument text).mapError .parse)) :
      ExceptT BuildError m Object) Object.Tidy := .of_except fun tree h => by
    cases htree : parseDocument text with
    | error e =>
        rw [htree] at h
        cases h
    | ok root =>
        rw [htree] at h
        cases h
        exact tidy_parseDocument htree
  unfold ofText
  refine hparse.bind fun tree htree => ?_
  exact ((Scene.tidy_expand _ _ htree).adapt _).bind fun root hroot => .pure ⟨hroot, rfl⟩

theorem tidy_ofFile {m : Type → Type} [Monad m] [LawfulMonad m] (s : Setting m) (path : String) :
    Ensures (ofFile s path) Tidy := by
  unfold ofFile
  refine .bind_of fun text => ?_
  split
  · exact .throw _
  · exact tidy_ofText _ _

theorem Built.tidy {d : Document} (h : d.Built) : d.Tidy := by
  cases h with
  | ofText s text h => exact (tidy_ofText s text).of_run h
  | ofFile s path h => exact (tidy_ofFile s path).of_run h

end Document

/-! ## Where a node stands -/

/-- A node stands in the last object of a chain: as a field, or as an item of a field. -/
structure Stands (chain : List Object) (node : Node) : Prop where
  tidy : ∀ o ∈ chain, o.Tidy
  field : ∃ o key field, chain.getLast? = some o ∧ o.get? key = some field ∧
    (node = field ∨ node ∈ field.flatten)

namespace Document

theorem mem_of_selectItem? {items : List Node} {key : String} {node : Node}
    (h : selectItem? items key = some node) : node ∈ items := by
  rcases Option.or_eq_some_iff.mp h with h | ⟨-, h⟩
  · exact List.mem_of_find?_eq_some h
  · obtain ⟨place, -, h⟩ := Option.bind_eq_some_iff.mp h
    exact List.mem_of_getElem? h

private theorem tidy_of_get? {o : Object} {key : String} {node : Node} (h : o.Tidy)
    (hget : o.get? key = some node) : node.Tidy :=
  (h.fields.of_get? hget).1

private theorem tidy_append {objects : List Object} {inner : Object}
    (htidy : ∀ o ∈ objects, o.Tidy) (hinner : inner.Tidy) : ∀ o ∈ objects ++ [inner], o.Tidy := by
  intro o hmem
  rcases List.mem_append.mp hmem with hmem | hmem
  · exact htidy o hmem
  · rwa [List.mem_singleton.mp hmem]

/-- A path leads to a node that stands in the last of the objects on the way. -/
theorem stands_locateFrom {path walked : List String} {o : Object} {objects chain : List Object}
    {node : Node} (htidy : ∀ o' ∈ objects, o'.Tidy) (hlast : objects.getLast? = some o)
    (h : locateFrom objects walked o path = .ok ⟨chain, node⟩) : Stands chain node := by
  have ho : ∀ {o : Object} {objects : List Object}, (∀ o' ∈ objects, o'.Tidy) →
      objects.getLast? = some o → o.Tidy :=
    fun htidy hlast => htidy _ (List.mem_of_getLast? hlast)
  fun_induction locateFrom objects walked o path with
  | case1 => cases h
  | case2 => cases h
  | case3 objects walked o key field hget =>
      cases h
      exact ⟨htidy, o, key, _, hlast, hget, .inl rfl⟩
  | case4 => cases h
  | case5 objects walked o key next rest here inner hget ih =>
      have hinner := (tidy_of_get? (ho htidy hlast) hget).of_object
      exact ih (tidy_append htidy hinner) List.getLast?_concat h
  | case6 => cases h
  | case7 => cases h
  | case8 objects walked o key next name items hget item hselect =>
      cases h
      exact ⟨htidy, o, key, _, hlast, hget, .inr (mem_of_selectItem? hselect)⟩
  | case9 objects walked o key next here name items hget here' inner rest _ hselect ih =>
      have hitem := (tidy_of_get? (ho htidy hlast) hget).items _ (mem_of_selectItem? hselect)
      exact ih (tidy_append htidy hitem.tidy.of_object) List.getLast?_concat h
  | case10 => cases h

theorem Tidy.stands {d : Document} {path : List String} {chain : List Object} {node : Node}
    (h : d.Tidy) (hlocate : d.locate path = .ok ⟨chain, node⟩) : Stands chain node :=
  stands_locateFrom (List.forall_mem_singleton.mpr h.root) rfl hlocate

end Document

/-! ## What a tidy chain is like -/

theorem named_of_tidy {objects : List Object} (h : ∀ o ∈ objects, o.Tidy) : Named objects := by
  intro site node hnode
  obtain ⟨o, ho, hvalue⟩ := Option.bind_eq_some_iff.mp hnode
  obtain ⟨hget, -⟩ := Option.filter_eq_some_iff.mp hvalue
  exact ((h o (List.mem_of_getElem? ho)).fields.of_get? hget).2

theorem Node.readsItems_of_mem {scope : VarScope} {name : String} {item : Node} {items : List Node}
    (hmem : item ∈ items) (h : item.Reads scope name) : ReadsItems scope name items := by
  induction items with
  | nil => cases hmem
  | cons other items ih =>
      rcases List.mem_cons.mp hmem with rfl | hmem
      · exact .inl h
      · exact .inr (ih hmem)

namespace Stands

variable {chain : List Object} {node : Node}

theorem ne_nil (h : Stands chain node) : chain ≠ [] := by
  obtain ⟨o, -, -, hlast, -⟩ := h.field
  rintro rfl
  cases hlast

theorem named (h : Stands chain node) : Named chain :=
  named_of_tidy h.tidy

/-- The field that a node stands in refers to whatever the node refers to. -/
theorem references_subset (h : Stands chain node) {field : Node}
    (hfield : nodeAt? chain (chain.length - 1, node.name) = some field) :
    ∀ site ∈ references chain (chain.length - 1) node,
      site ∈ references chain (chain.length - 1) field := by
  obtain ⟨o, key, field', hlast, hget, hnode⟩ := h.field
  obtain ⟨htidy, hname⟩ := (h.tidy o (List.mem_of_getLast? hlast)).fields.of_get? hget
  have hown : node.name = key := by
    rcases hnode with rfl | hmem
    · exact hname
    · exact (htidy.flatten node hmem).named.trans hname
  obtain rfl : field' = field := by
    rw [nodeAt?, ← List.getLast?_eq_getElem?, hlast, hown] at hfield
    obtain ⟨hget', -⟩ := Option.filter_eq_some_iff.mp hfield
    rw [hget] at hget'
    exact Option.some.inj hget'
  intro site hsite
  obtain ⟨hlocal, howner⟩ := mem_references.mp hsite
  refine mem_references.mpr ⟨?_, by rwa [hname, ← hown]⟩
  -- the node is the field itself, or an item that the field reads as well
  rcases hnode with rfl | hmem
  · exact hlocal
  · rw [Node.mem_locals] at hlocal ⊢
    cases field' with
    | list name items => exact Node.readsItems_of_mem hmem hlocal
    | option binding =>
        rw [← List.mem_singleton.mp hmem]
        exact hlocal
    | object o =>
        rw [← List.mem_singleton.mp hmem]
        exact hlocal

end Stands

end ConfigLang
