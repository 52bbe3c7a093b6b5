import Mathlib
import ConfigLang.Proofs.Tree.Combine
import ConfigLang.Proofs.Tree.Tidy

/-!
# Declarations grouped by name

Nodes that are put into an empty object one after the other are all there in the end, each
once: `Object.groups_insertAll` says that the names stand in the order in which they first
came, and that each holds what came under it, in that order.

What a name holds is `Node.collect` of the nodes that came under it.  One more node makes a
list of it, or joins the list that it is (`Node.combine_collect`), and that is all that the
induction over the nodes needs.
-/

namespace ConfigLang

namespace Node

/-- The nodes of a name. -/
def named (name : String) (nodes : List Node) : List Node :=
  nodes.filter (·.name = name)

/-- What a name holds that some nodes came under: the node if there is one, or else the list of all
that was declared in them. -/
def collect (name : String) : List Node → Node
  | [node] => node
  | nodes => .list name (nodes.flatMap flatten)

variable {name : String} {nodes : List Node} {node : Node}

theorem mem_named : node ∈ named name nodes ↔ node ∈ nodes ∧ node.name = name := by
  rw [named, List.mem_filter, decide_eq_true_iff]

theorem named_concat (name : String) (nodes : List Node) (node : Node) :
    named name (nodes ++ [node]) =
      if node.name = name then named name nodes ++ [node] else named name nodes := by
  rw [named, List.filter_append, List.filter_singleton, ← named]
  by_cases hname : node.name = name
  · rw [if_pos hname, decide_eq_true hname]
    rfl
  · rw [if_neg hname, decide_eq_false hname]
    exact List.append_nil _

theorem flatten_collect (name : String) (nodes : List Node) :
    (collect name nodes).flatten = nodes.flatMap flatten := by
  unfold collect
  split
  · exact (List.append_nil _).symm
  · rfl

theorem name_collect (h : ∀ node ∈ nodes, node.name = name) : (collect name nodes).name = name := by
  unfold collect
  split
  · exact h _ List.mem_cons_self
  · rfl

/-- One more node joins those that there are. -/
theorem combine_collect (hne : nodes ≠ []) (hnodes : ∀ other ∈ nodes, other.name = name)
    (hnode : node.name = name) :
    Method.append.combine (some (collect name nodes)) node = collect name (nodes ++ [node]) := by
  have hheld := name_collect hnodes
  have hflatten := flatten_collect name nodes
  have hjoined : Method.append.combine (some (collect name nodes)) node =
      .list name ((collect name nodes).flatten ++ node.flatten) := by
    cases hcollect : collect name nodes with
    | list held items =>
        rw [hcollect] at hheld
        exact congrArg (Node.list · (items ++ node.flatten)) hheld
    | option b => exact congrArg (Node.list · _) hnode
    | object o => exact congrArg (Node.list · _) hnode
  rw [hjoined, hflatten]
  obtain ⟨first, rest, rfl⟩ := List.exists_cons_of_ne_nil hne
  have hall : (first :: rest).flatMap flatten ++ node.flatten =
      (first :: rest ++ [node]).flatMap flatten := by
    rw [List.flatMap_append, List.flatMap_singleton]
  rw [hall]
  cases rest <;> rfl

/-- A name holds a list if and only if it holds more than one thing, as long as no list came that
holds less. -/
theorem isList_collect (hne : nodes ≠ [])
    (hseveral : ∀ node ∈ nodes, node.isList = true → 1 < node.flatten.length) :
    (collect name nodes).isList = true ↔ 1 < (collect name nodes).flatten.length := by
  have hpos : ∀ node ∈ nodes, 0 < node.flatten.length := by
    intro node hmem
    cases node with
    | option b => exact Nat.one_pos
    | object o => exact Nat.one_pos
    | list held items => exact Nat.zero_lt_of_lt (hseveral _ hmem rfl)
  match nodes with
  | [] => exact absurd rfl hne
  | [node] =>
      constructor
      · exact hseveral node List.mem_cons_self
      · intro hlength
        cases node with
        | list held items => rfl
        | option b => exact absurd hlength (lt_irrefl 1)
        | object o => exact absurd hlength (lt_irrefl 1)
  | first :: second :: rest =>
      -- two nodes hold two things at least
      refine iff_of_true rfl ?_
      have hfirst := hpos first List.mem_cons_self
      have hsecond := hpos second (List.mem_cons_of_mem _ List.mem_cons_self)
      rw [flatten_collect, List.flatMap_cons, List.flatMap_cons, List.length_append,
        List.length_append]
      omega

end Node

/-- Fields that are some nodes grouped by name. -/
structure Fields.Groups (fields : Fields) (nodes : List Node) : Prop where
  /-- Each name stands where it first came. -/
  keys : Keyed.keys fields = (nodes.map Node.name).eraseDups
  /-- A name holds all that was declared under it, in the order of the declarations. -/
  held : ∀ name ∈ nodes.map Node.name, ∃ node, Keyed.get? fields name = some node ∧
    node.flatten = (Node.named name nodes).flatMap Node.flatten
  /-- It holds a list if that is more than one thing. -/
  isList : (∀ node ∈ nodes, node.isList = true → 1 < node.flatten.length) →
    ∀ name node, Keyed.get? fields name = some node →
      (node.isList = true ↔ 1 < node.flatten.length)

/-- A list that a text can have holds more than one thing. -/
theorem Node.Tidy.one_lt_length {node : Node} (h : node.Tidy) (hlist : node.isList = true) :
    1 < node.flatten.length := by
  cases node with
  | list name items => exact h.several
  | option binding => cases hlist
  | object o => cases hlist

namespace Object

/-- An object into which some nodes are put one after the other. -/
def insertAll (o : Object) (nodes : List Node) : Object :=
  nodes.foldl insert o

variable {o : Object}

theorem insertAll_append (o : Object) (nodes others : List Node) :
    o.insertAll (nodes ++ others) = (o.insertAll nodes).insertAll others :=
  List.foldl_append

theorem keys_insertAll (h : o.fields = []) (nodes : List Node) :
    Keyed.keys (o.insertAll nodes).fields = (nodes.map Node.name).eraseDups := by
  induction nodes using List.reverseRecOn with
  | nil =>
      rw [insertAll, List.foldl_nil, h]
      rfl
  | append_singleton nodes node ih =>
      have hstep : Keyed.keys ((o.insertAll nodes).insert node).fields = _ :=
        keys_combine _ .append node
      rw [insertAll_append, insertAll, List.foldl_cons, List.foldl_nil, hstep, ih,
        List.map_append, List.map_singleton, List.eraseDups_append, List.removeAll,
        List.filter_singleton]
      by_cases hmem : node.name ∈ nodes.map Node.name
      · rw [if_pos (List.mem_eraseDups.mpr hmem), List.elem_eq_true_of_mem hmem]
        exact (List.append_nil _).symm
      · have helem := Bool.eq_false_iff.mpr (mt List.elem_iff.mp hmem)
        rw [if_neg (mt List.mem_eraseDups.mp hmem), helem]
        rfl

theorem get?_insertAll (h : o.fields = []) (nodes : List Node) (name : String) :
    (o.insertAll nodes).get? name =
      if Node.named name nodes = [] then none
      else some (Node.collect name (Node.named name nodes)) := by
  induction nodes using List.reverseRecOn with
  | nil =>
      rw [insertAll, List.foldl_nil, get?, h]
      rfl
  | append_singleton nodes node ih =>
      have hstep : ((o.insertAll nodes).insert node).get? name = _ :=
        get?_combine _ .append node name
      rw [insertAll_append, insertAll, List.foldl_cons, List.foldl_nil, hstep, ih,
        Node.named_concat]
      by_cases hname : node.name = name
      · rw [if_pos hname.symm, if_pos hname, if_neg (List.concat_ne_nil node _)]
        split
        · rename_i hnone
          rw [hnone, Method.combine_none]
          rfl
        · rename_i hne
          rw [Node.combine_collect hne (fun other hmem => (Node.mem_named.mp hmem).2) hname]
      · rw [if_neg (Ne.symm hname), if_neg hname]

/-- **Declarations are never lost, reordered or duplicated.** -/
theorem groups_insertAll (h : o.fields = []) (nodes : List Node) :
    Fields.Groups (o.insertAll nodes).fields nodes := by
  have hheld (name : String) (hne : Node.named name nodes ≠ []) :
      Keyed.get? (o.insertAll nodes).fields name =
        some (Node.collect name (Node.named name nodes)) := by
    have hget := get?_insertAll h nodes name
    rwa [if_neg hne] at hget
  refine ⟨keys_insertAll h nodes, ?_, ?_⟩
  · intro name hname
    obtain ⟨node, hnode, hnamed⟩ := List.mem_map.mp hname
    have hmem : node ∈ Node.named name nodes := Node.mem_named.mpr ⟨hnode, hnamed⟩
    exact ⟨_, hheld name (List.ne_nil_of_mem hmem), Node.flatten_collect _ _⟩
  · intro hseveral name node hget
    have hne : Node.named name nodes ≠ [] := by
      intro hnone
      have hmissing : Keyed.get? (o.insertAll nodes).fields name = _ := get?_insertAll h nodes name
      rw [if_pos hnone, hget] at hmissing
      cases hmissing
    obtain rfl := Option.some.inj (hget.symm.trans (hheld name hne))
    exact Node.isList_collect hne fun other hmem => hseveral other (Node.mem_named.mp hmem).1

end Object

end ConfigLang
