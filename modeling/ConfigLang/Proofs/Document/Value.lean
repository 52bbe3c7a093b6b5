import Mathlib
import ConfigLang.Proofs.Document.Built
import ConfigLang.Source.FileTree

/-!
# The value of a query

A query evaluates a node with nothing kept from before.  What it finds is the
value that is defined by recursion on the references, as long as these lead into no
cycle; if they do, it fails.

A node that is a field of its own may be referred to from elsewhere.  This does not
show, as the node is under evaluation only for those fields that lead back to it,
and then there is a cycle: the field in which the node stands refers to whatever
the node refers to (`Stands.references_subset`).
-/

namespace ConfigLang

open Relation

/-- What the references from a node at a level lead to. -/
def Reaches (objects : List Object) (level : Nat) (node : Node) (target : Site) : Prop :=
  ∃ first ∈ references objects level node, ReflTransGen (Refers objects) first target

/-- The references from a node at a level lead into a cycle. -/
def ReachesCycle (objects : List Object) (level : Nat) (node : Node) : Prop :=
  ∃ target, Reaches objects level node target ∧ TransGen (Refers objects) target target

section

variable {host : Host Id} {base : Frame} {chain : List Object} {node : Node} {level : Nat}

theorem acyclic_of_not_reachesCycle (h : ¬ ReachesCycle chain level node) :
    ∀ target ∈ references chain level node, Acyclic chain target :=
  fun target hmem other hreach hcycle => h ⟨other, ⟨target, hmem, hreach⟩, hcycle⟩

/-- References from the innermost object that lead into no cycle do not lead back to the node. -/
theorem Stands.ne_of_reaches (h : Stands chain node)
    (hacyclic : ¬ ReachesCycle chain (chain.length - 1) node) {target : Site}
    (hreaches : Reaches chain (chain.length - 1) node target) :
    target ≠ (chain.length - 1, node.name) := by
  rintro rfl
  refine hacyclic ⟨_, hreaches, ?_⟩
  obtain ⟨first, hfirst, hreach⟩ := hreaches
  -- the field of the node has a value, since something refers to it
  have hsome : (nodeAt? chain (chain.length - 1, node.name)).isSome = true := by
    rcases ReflTransGen.cases_tail hreach with heq | ⟨before, -, other, -, hmem⟩
    · rw [heq]
      exact (visible_of_mem_references hfirst).2.2
    · exact (visible_of_mem_references hmem).2.2
  obtain ⟨field, hfield⟩ := Option.isSome_iff_exists.mp hsome
  exact TransGen.head' ⟨field, hfield, h.references_subset hfield first hfirst⟩ hreach

theorem Stands.valueFrom_search (h : Stands chain node)
    (hacyclic : ¬ ReachesCycle chain (chain.length - 1) node) :
    valueFrom host base chain (search host base chain [(chain.length - 1, node.name)])
        (chain.length - 1) node =
      valueFrom host base chain (denote host base chain) (chain.length - 1) node := by
  apply valueFrom_congr
  intro target hmem
  apply search_eq_denote (acyclic_of_not_reachesCycle hacyclic target hmem)
  intro other hreach
  rw [List.mem_singleton]
  exact h.ne_of_reaches hacyclic ⟨target, hmem, hreach⟩

theorem valueFrom_search_error {active : List Site} (h : ReachesCycle chain level node) :
    ∃ e, valueFrom host base chain (search host base chain active) level node = .error e := by
  cases hvalue : valueFrom host base chain (search host base chain active) level node with
  | error e => exact ⟨e, rfl⟩
  | ok v =>
      obtain ⟨target, ⟨first, hfirst, hreach⟩, hcycle⟩ := h
      obtain ⟨w, hw⟩ := worth_ok_of_valueFrom_ok hvalue first hfirst
      exact absurd hcycle (acyclic_of_search_ok hw target hreach)

end

namespace Resolution

theorem recorded?_ofObject (objects : List Object) (site : Site) :
    recorded? (objects.map Level.ofObject) site = none := by
  rw [recorded?, List.getElem?_map]
  cases objects[site.1]? <;> rfl

theorem sound_ofObject (host : Host Id) (base : Frame) (objects : List Object) :
    Sound host base objects (objects.map Level.ofObject) [] where
  objects_eq := by simp [Function.comp_def, Level.ofObject]
  value site r h := by
    rw [recorded?_ofObject] at h
    cases h
  closed site target h := by
    rw [recorded?_ofObject] at h
    cases h
  fresh := nofun

end Resolution

namespace Document

/-- A query gives what the search finds from the node that the path leads to. -/
theorem value_eq_search (host : Host Id) {d : Document} (hd : d.Tidy) {path : List String}
    {chain : List Object} {node : Node} (hlocate : d.locate path = .ok ⟨chain, node⟩)
    (hvalue : node.isValue = true) :
    Id.run (d.value host path).run =
      (valueFrom host d.base chain
        (search host d.base chain [(chain.length - 1, node.name)])
        (chain.length - 1) node).mapError (.eval path) := by
  have hstands := hd.stands hlocate
  have hlength : chain.length - 1 + 1 = (chain.map Level.ofObject).length := by
    have hpos := List.length_pos_iff.mpr hstands.ne_nil
    rw [List.length_map]
    omega
  -- nothing is kept when the query starts
  have hlevels : d.levels chain = chain.map Level.ofObject := by
    rw [levels, hd.whole, List.nil_append]
  obtain ⟨after, hrun, -⟩ := Resolution.evaluate_run hstands.named
    (Resolution.sound_ofObject host d.base chain) hlength
    (Resolution.recorded?_ofObject chain (chain.length - 1, node.name))
  unfold value
  rw [hlocate]
  simp only [hvalue, if_true, hlevels, hrun, pure_bind]
  rfl

/-- **A query gives what its node denotes**, if the references from there lead into no cycle, and
fails otherwise. -/
theorem value_eq_denote (host : Host Id) {d : Document} (hd : d.Built) (base : Frame)
    {path : List String} {chain : List Object} {node : Node}
    (hlocate : d.locate path = .ok ⟨chain, node⟩) (hvalue : node.isValue = true) :
    (¬ ReachesCycle chain (chain.length - 1) node →
      Id.run ({ d with base }.value host path).run =
        (valueFrom host base chain (denote host base chain) (chain.length - 1) node).mapError
          (.eval path)) ∧
    (ReachesCycle chain (chain.length - 1) node →
      ∃ e, Id.run ({ d with base }.value host path).run = .error (.eval path e)) := by
  have htidy : ({ d with base } : Document).Tidy := ⟨hd.tidy.root, hd.tidy.whole⟩
  have hstands := hd.tidy.stands hlocate
  have heq := value_eq_search host htidy hlocate hvalue
  constructor
  · intro hacyclic
    rw [heq, hstands.valueFrom_search hacyclic]
  · intro hcycle
    obtain ⟨e, he⟩ := valueFrom_search_error hcycle
    exact ⟨e, by rw [heq, he]; rfl⟩

/-- The option `a` of the document `a = $b`, `b = 1`. -/
theorem value_eq_denote_of_reference :
    ∃ (d : Document) (chain : List Object) (node : Node), d.Built ∧
      d.locate ["a"] = .ok ⟨chain, node⟩ ∧ node.isValue = true ∧
        (¬ ReachesCycle chain (chain.length - 1) node →
          Id.run (d.value (FileTree.mk [] []).host ["a"]).run =
            (valueFrom (FileTree.mk [] []).host d.base chain
              (denote (FileTree.mk [] []).host d.base chain) (chain.length - 1) node).mapError
                (.eval ["a"])) ∧
        (ReachesCycle chain (chain.length - 1) node →
          ∃ e, Id.run (d.value (FileTree.mk [] []).host ["a"]).run = .error (.eval ["a"] e)) := by
  let s : Setting (StateM Unit) :=
    ⟨(FileTree.mk [] []).host, (FileTree.mk [] []).source, .empty, none⟩
  have hfound : (match (ofText s "a = $b\nb = 1\n").run.run () with
      | (.ok d, _) =>
        match d.locate ["a"] with
        | .ok ⟨_, node⟩ => node.isValue
        | .error _ => false
      | (.error _, _) => false) = true := by decide +kernel
  split at hfound
  · rename_i d _ hbuilt
    split at hfound
    · rename_i chain node hlocate
      exact ⟨d, chain, node, .ofText s _ hbuilt, hlocate, hfound,
        value_eq_denote _ (.ofText s _ hbuilt) d.base hlocate hfound⟩
    · cases hfound
  · cases hfound

end Document

end ConfigLang
