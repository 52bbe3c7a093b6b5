import Mathlib
import ConfigLang.Proofs.Keyed
import ConfigLang.Tree.Merge

/-!
# Fields one name at a time

Nodes of other names do not matter for what a name holds in the end: only those that
arrive under the name do, in their order (`get?_combineEach`).  Where a field stands
depends on the names alone, on when each of them first arrived (`keys_combineEach`).
Together the two decide the fields of an object, so two sequences of arrivals that
look the same under every name leave the same object.

## Strategy

* **One arrival.**  `Method.combine` is what a name holds after a node arrives, whatever
  the object; `combine_eq` says that a node concerns the field of its name only, and
  `get?_combine` and `keys_combine` what becomes of the fields.
* **Many arrivals.**  `Arrival.settle` folds what arrives under one name, and the theorems
  on all arrivals are inductions over them.  A node that is no object and is merged takes
  the place over (`settle_merge_cons`), an option that stands alone in the end has
  arrived unless nothing did (`settle_eq_option`), and while all are appended nothing is
  lost (`mem_settle_of_append`).
-/

namespace ConfigLang

/-! ## One arrival -/

namespace Method

/-- What a name holds after a node arrives. -/
def combine (method : Method) (held : Option Node) (node : Node) : Node :=
  match method with
  | .replace => node
  | .append =>
    match held with
    | none => node
    | some (.list name items) => .list name (items ++ node.flatten)
    | some other => .list node.name (other.flatten ++ node.flatten)
  | .merge =>
    match held, node with
    | some (.object existing), .object incoming => .object (existing.overlay incoming)
    | _, node => node

/-- Objects are merged; everything else is overwritten. -/
theorem combine_merge {held : Option Node} {node : Node} (h : ∀ o, node ≠ .object o) :
    merge.combine held node = node := by
  unfold combine
  dsimp only
  split
  · rename_i incoming
    exact absurd rfl (h incoming)
  · rfl

theorem combine_none (method : Method) (node : Node) : method.combine none node = node := by
  cases method <;> rfl

/-- Only appending keeps the options that were there. -/
theorem option_mem_combine {method : Method} {held : Option Node} {node : Node} {b : Binding}
    (h : .option b ∈ (method.combine held node).flatten) :
    .option b ∈ node.flatten ∨ method = .append ∧ ∃ other ∈ held, .option b ∈ other.flatten := by
  cases method with
  | replace => exact .inl h
  | merge =>
      unfold combine at h
      dsimp only at h
      split at h
      · rw [Node.flatten, List.mem_singleton] at h
        · cases h
        · rintro _ _ ⟨⟩
      · exact .inl h
  | append =>
      unfold combine at h
      dsimp only at h
      split at h
      · exact .inl h
      · rcases List.mem_append.mp h with h | h
        · exact .inr ⟨rfl, _, rfl, h⟩
        · exact .inl h
      · rcases List.mem_append.mp h with h | h
        · exact .inr ⟨rfl, _, rfl, h⟩
        · exact .inl h

/-- What is combined with something and is an option has just arrived. -/
theorem eq_of_combine_eq_option {method : Method} {held node : Node} {b : Binding}
    (h : method.combine (some held) node = .option b) : node = .option b := by
  cases method with
  | replace => exact h
  | append => cases held <;> cases h
  | merge =>
      unfold combine at h
      dsimp only at h
      split at h
      · cases h
      · exact h

theorem mem_combine_append {held item : Node} (node : Node) (h : item ∈ held.flatten) :
    item ∈ (append.combine (some held) node).flatten := by
  cases held <;> exact List.mem_append_left _ h

end Method

theorem mergeNode_eq (fields : Fields) (node : Node) :
    mergeNode fields node =
      Keyed.put node.name (Method.merge.combine (Keyed.get? fields node.name) node) fields := by
  cases node with
  | option binding =>
      rw [mergeNode, Method.combine_merge (by rintro _ ⟨⟩)]
      rfl
  | list name items =>
      rw [mergeNode, Method.combine_merge (by rintro _ ⟨⟩)]
      rfl
  | object incoming =>
      rw [mergeNode]
      split
      · rename_i existing hget
        have hheld : Keyed.get? fields (Node.object incoming).name = some (.object existing) := hget
        rw [hheld]
        rfl
      · rename_i hget
        have hover : Method.merge.combine (Keyed.get? fields incoming.name) (.object incoming) =
            .object incoming := by
          unfold Method.combine
          dsimp only
          split
          · rename_i existing incoming' hheld _
            exact absurd hheld (hget existing)
          · rfl
        exact congrArg (Keyed.put incoming.name · fields) hover.symm

theorem Fields.insert_eq (fields : Fields) (node : Node) :
    Fields.insert fields node =
      Keyed.put node.name (Method.append.combine (Keyed.get? fields node.name) node) fields := by
  unfold Fields.insert Method.combine
  cases Keyed.get? fields node.name with
  | none => rfl
  | some held => cases held <;> rfl

namespace Object

/-- A node that arrives concerns the field of its name only. -/
theorem combine_eq (o : Object) (method : Method) (node : Node) :
    o.combine method node =
      { o with
        fields := Keyed.put node.name (method.combine (o.get? node.name) node) o.fields } := by
  cases method with
  | merge =>
      unfold combine
      dsimp only
      rw [mergeNode_eq]
      rfl
  | append =>
      unfold combine insert
      dsimp only
      rw [Fields.insert_eq]
      rfl
  | replace => rfl

theorem get?_combine (o : Object) (method : Method) (node : Node) (name : String) :
    (o.combine method node).get? name =
      if name = node.name then some (method.combine (o.get? name) node) else o.get? name := by
  rw [combine_eq]
  unfold get?
  dsimp only
  rw [Keyed.get?_put]
  split
  · rename_i hname
    rw [hname]
  · rfl

theorem keys_combine (o : Object) (method : Method) (node : Node) :
    Keyed.keys (o.combine method node).fields =
      if node.name ∈ Keyed.keys o.fields then Keyed.keys o.fields
      else Keyed.keys o.fields ++ [node.name] := by
  rw [combine_eq]
  exact Keyed.keys_put _ _ _

end Object

/-- An option is bound to an integer. -/
def Binding.IsInt (b : Binding) (n : Int64) : Prop :=
  ∃ t u, b.value = .literal t (.int n) u

/-- The field of a name is an option that is bound to an integer. -/
def Object.HasInt (o : Object) (name : String) (n : Int64) : Prop :=
  ∃ b, o.get? name = some (.option b) ∧ b.IsInt n

/-- The integer that an option is bound to. -/
def Binding.int? (b : Binding) : Option Int64 :=
  match b.value with
  | .literal _ (.int n) _ => some n
  | _ => none

/-- The integer in the field of a name. -/
def Object.int? (o : Object) (name : String) : Option Int64 :=
  match o.get? name with
  | some (.option b) => b.int?
  | _ => none

theorem Binding.isInt_iff {b : Binding} {n : Int64} : b.IsInt n ↔ b.int? = some n := by
  constructor
  · rintro ⟨t, u, hvalue⟩
    rw [int?, hvalue]
  · intro h
    unfold int? at h
    split at h
    · rename_i t k u hvalue
      obtain rfl := Option.some.inj h
      exact ⟨t, u, hvalue⟩
    · cases h

theorem Object.hasInt_iff {o : Object} {name : String} {n : Int64} :
    o.HasInt name n ↔ o.int? name = some n := by
  constructor
  · rintro ⟨b, hget, hb⟩
    rw [int?, hget]
    exact Binding.isInt_iff.mp hb
  · intro h
    unfold int? at h
    split at h
    · rename_i b hget
      exact ⟨b, hget, Binding.isInt_iff.mpr h⟩
    · cases h

instance (b : Binding) (n : Int64) : Decidable (b.IsInt n) :=
  decidable_of_iff _ Binding.isInt_iff.symm

instance (o : Object) (name : String) (n : Int64) : Decidable (o.HasInt name n) :=
  decidable_of_iff _ Object.hasInt_iff.symm

/-- The options of a list of two. -/
def Node.options? : Node → Option (Binding × Binding)
  | .list _ [.option first, .option second] => some (first, second)
  | _ => none

theorem Node.eq_of_options? {node : Node} {first second : Binding}
    (h : node.options? = some (first, second)) :
    node = .list node.name [.option first, .option second] := by
  unfold options? at h
  split at h
  · cases h
    rfl
  · cases h

/-! ## Many arrivals -/

/-- A node that arrives in an object, and how it is combined with what is there. -/
structure Arrival where
  method : Method
  node : Node

/-- What a name holds after some arrivals under it. -/
def Arrival.settle (held : Option Node) (arrivals : List Arrival) : Option Node :=
  arrivals.foldl (fun held a => some (a.method.combine held a.node)) held

namespace Arrival

/-- The arrivals under a name. -/
def under (name : String) (arrivals : List Arrival) : List Arrival :=
  arrivals.filter fun a => a.node.name = name

variable {held : Option Node} {arrivals : List Arrival} {b : Binding}

theorem settle_append (held : Option Node) (arrivals others : List Arrival) :
    settle held (arrivals ++ others) = settle (settle held arrivals) others :=
  List.foldl_append

/-- Whatever came before, a node that is no object takes the place over when it is merged. -/
theorem settle_merge_cons {node : Node} (h : ∀ o, node ≠ .object o) (held : Option Node)
    (arrivals : List Arrival) :
    settle held (⟨.merge, node⟩ :: arrivals) = settle (some node) arrivals := by
  rw [settle, List.foldl_cons, Method.combine_merge h]
  rfl

theorem exists_settle_some (node : Node) (arrivals : List Arrival) :
    ∃ final, settle (some node) arrivals = some final := by
  induction arrivals generalizing node with
  | nil => exact ⟨node, rfl⟩
  | cons a arrivals ih => exact ih _

/-- An option that stands alone in the end arrived last, or nothing arrived at all. -/
theorem settle_eq_option {node : Node} (h : settle (some node) arrivals = some (.option b)) :
    arrivals = [] ∨ ∃ a ∈ arrivals, a.node = .option b := by
  rcases List.eq_nil_or_concat arrivals with hnil | ⟨init, last, rfl⟩
  · exact .inl hnil
  · obtain ⟨held, hheld⟩ := exists_settle_some node init
    rw [List.concat_eq_append, settle_append, hheld] at h
    refine .inr ⟨last, by simp, Method.eq_of_combine_eq_option (Option.some.inj h)⟩

/-- What stands in a name stays there as long as all that arrives is appended. -/
theorem mem_settle_of_append {node item : Node} (hmem : item ∈ node.flatten)
    (h : ∀ a ∈ arrivals, a.method = .append) :
    ∃ final, settle (some node) arrivals = some final ∧ item ∈ final.flatten := by
  induction arrivals generalizing node with
  | nil => exact ⟨node, rfl, hmem⟩
  | cons a arrivals ih =>
      have hmethod : a.method = .append := h a List.mem_cons_self
      have hnext := Method.mem_combine_append a.node hmem
      obtain ⟨final, hfinal, hitem⟩ := ih hnext fun other hother =>
        h other (List.mem_cons_of_mem _ hother)
      refine ⟨final, ?_, hitem⟩
      rw [← hfinal, ← hmethod]
      rfl

/-- An option that a name holds in the end was there before or has arrived. -/
theorem option_mem_settle {final : Node} (h : settle held arrivals = some final)
    (hmem : .option b ∈ final.flatten) :
    (∃ a ∈ arrivals, .option b ∈ a.node.flatten) ∨
      (∀ a ∈ arrivals, a.method = .append) ∧ ∃ other ∈ held, .option b ∈ other.flatten := by
  induction arrivals generalizing held with
  | nil =>
      have hheld : held = some final := h
      exact .inr ⟨List.forall_mem_nil _, final, hheld, hmem⟩
  | cons a arrivals ih =>
      rcases ih h with ⟨other, hother, hin⟩ | ⟨happend, other, hother, hin⟩
      · exact .inl ⟨other, List.mem_cons_of_mem _ hother, hin⟩
      · obtain rfl : a.method.combine held a.node = other := Option.some.inj hother
        rcases Method.option_mem_combine hin with hin | ⟨hmethod, hheld⟩
        · exact .inl ⟨a, List.mem_cons_self, hin⟩
        · exact .inr ⟨List.forall_mem_cons.mpr ⟨hmethod, happend⟩, hheld⟩

end Arrival

namespace Object

/-- The object after some arrivals. -/
def combineEach (o : Object) (arrivals : List Arrival) : Object :=
  arrivals.foldl (fun o a => o.combine a.method a.node) o

theorem combineAll_eq (o : Object) (method : Method) (fields : Fields) :
    o.combineAll method fields = o.combineEach (fields.map fun field => ⟨method, field.2⟩) := by
  unfold combineAll combineEach
  rw [List.foldl_map]

theorem combineEach_append (o : Object) (arrivals others : List Arrival) :
    o.combineEach (arrivals ++ others) = (o.combineEach arrivals).combineEach others :=
  List.foldl_append

/-- Arrivals change nothing but fields. -/
theorem combineEach_eq (o : Object) (arrivals : List Arrival) :
    o.combineEach arrivals = { o with fields := (o.combineEach arrivals).fields } := by
  induction arrivals generalizing o with
  | nil => cases o; rfl
  | cons a arrivals ih =>
      have hstep : o.combineEach (a :: arrivals) =
          (o.combine a.method a.node).combineEach arrivals := rfl
      rw [hstep, ih, combine_eq]

/-- **What a name holds is decided by what arrives under it.** -/
theorem get?_combineEach (o : Object) (arrivals : List Arrival) (name : String) :
    (o.combineEach arrivals).get? name =
      Arrival.settle (o.get? name) (Arrival.under name arrivals) := by
  induction arrivals generalizing o with
  | nil => rfl
  | cons a arrivals ih =>
      have hstep : o.combineEach (a :: arrivals) =
          (o.combine a.method a.node).combineEach arrivals := rfl
      rw [hstep, ih, get?_combine, Arrival.under, Arrival.under, List.filter_cons]
      by_cases hname : a.node.name = name
      · rw [if_pos hname.symm, if_pos (by simpa using hname)]
        rfl
      · rw [if_neg (Ne.symm hname), if_neg (by simpa using hname)]

theorem nodup_keys_combineEach {o : Object} (h : (Keyed.keys o.fields).Nodup)
    (arrivals : List Arrival) : (Keyed.keys (o.combineEach arrivals).fields).Nodup := by
  induction arrivals generalizing o with
  | nil => exact h
  | cons a arrivals ih =>
      have hstep : (Keyed.keys (o.combine a.method a.node).fields).Nodup := by
        rw [combine_eq]
        exact Keyed.nodup_keys_put h
      exact ih hstep

/-- **Which names there are, and in which order, is decided by the names that are new.** -/
theorem keys_combineEach {o : Object} (o' : Object) {known : List String}
    (hkeys : Keyed.keys o.fields = Keyed.keys o'.fields)
    (hknown : ∀ name ∈ known, name ∈ Keyed.keys o.fields) (arrivals : List Arrival) :
    Keyed.keys (o.combineEach arrivals).fields =
      Keyed.keys (o'.combineEach (arrivals.filter fun a => a.node.name ∉ known)).fields := by
  induction arrivals generalizing o o' with
  | nil => exact hkeys
  | cons a arrivals ih =>
      have hstep : o.combineEach (a :: arrivals) =
          (o.combine a.method a.node).combineEach arrivals := rfl
      have hmono : ∀ name ∈ known, name ∈ Keyed.keys (o.combine a.method a.node).fields := by
        intro name hname
        rw [keys_combine]
        split
        · exact hknown name hname
        · exact List.mem_append_left _ (hknown name hname)
      rw [hstep, List.filter_cons]
      by_cases hname : a.node.name ∈ known
      · -- a name that there is keeps its place
        rw [if_neg (by simpa using hname)]
        refine ih o' ?_ hmono
        rw [keys_combine, if_pos (hknown _ hname)]
        exact hkeys
      · rw [if_pos (by simpa using hname)]
        refine ih (o'.combine a.method a.node) ?_ hmono
        rw [keys_combine, keys_combine, hkeys]

end Object

end ConfigLang
