import Mathlib
import ConfigLang.Proofs.Tree.Combine
import ConfigLang.Proofs.Tree.Tidy

/-!
# The fields of an object laid over another

Fields of known names keep the places that they have in the object below, and fields
of new names follow behind all of these (`mergeFields_eq_append`).  This is why a
directive above a field of a known name ends up behind it.
-/

namespace ConfigLang

namespace Fields

/-- Fields are stored under their names, each once. -/
structure Proper (fields : Fields) : Prop where
  distinct : (Keyed.keys fields).Nodup
  named : ∀ field ∈ fields, field.2.name = field.1

theorem Tidy.proper {fields : Fields} (h : Fields.Tidy fields) : Fields.Proper fields :=
  ⟨h.distinct, h.named⟩

/-- The fields of which another object has the names. -/
def known (fields incoming : Fields) : Fields :=
  incoming.filter fun field => Keyed.contains fields field.1

/-- The fields of which another object does not have the names. -/
def fresh (fields incoming : Fields) : Fields :=
  incoming.filter fun field => !Keyed.contains fields field.1

variable {fields incoming : Fields} {name : String}

theorem contains_congr {others : Fields} (h : Keyed.keys fields = Keyed.keys others)
    (name : String) : Keyed.contains fields name = Keyed.contains others name := by
  rw [Bool.eq_iff_iff, Keyed.contains_iff, Keyed.contains_iff, h]

namespace Proper

theorem nil : Proper [] :=
  ⟨List.nodup_nil, List.forall_mem_nil _⟩

theorem tail {field : String × Node} (h : Proper (field :: fields)) : Proper fields :=
  ⟨(List.nodup_cons.mp h.distinct).2, fun other hmem => h.named other (List.mem_cons_of_mem _ hmem)⟩

/-- The names of proper fields are their keys. -/
theorem names_eq (h : Proper fields) : fields.map (fun field => field.2.name) = Keyed.keys fields :=
  List.map_congr_left h.named

theorem name_combine (h : Proper fields) (node : Node) :
    (Method.merge.combine (Keyed.get? fields node.name) node).name = node.name := by
  unfold Method.combine
  dsimp only
  split
  · rename_i existing incoming hheld
    rw [Node.name, Object.name_overlay]
    exact h.named _ (Keyed.mem_of_get? hheld)
  · rfl

theorem mergeNode (h : Proper fields) (node : Node) :
    Proper (ConfigLang.mergeNode fields node) := by
  rw [mergeNode_eq]
  refine ⟨Keyed.nodup_keys_put h.distinct, ?_⟩
  intro field hmem
  rcases Keyed.mem_put hmem with rfl | hmem
  · exact h.name_combine node
  · exact h.named field hmem

theorem mergeFields (h : Proper fields) (incoming : Fields) :
    Proper (ConfigLang.mergeFields fields incoming) := by
  induction incoming generalizing fields with
  | nil =>
      rw [ConfigLang.mergeFields]
      exact h
  | cons field incoming ih =>
      rw [ConfigLang.mergeFields]
      exact ih (h.mergeNode field.2)

end Proper

end Fields

/-! ## Where the fields stand -/

theorem mergeFields_eq (o : Object) (incoming : Fields) :
    mergeFields o.fields incoming = (o.combineAll .merge incoming).fields := by
  induction incoming generalizing o with
  | nil => rw [mergeFields]; rfl
  | cons field incoming ih =>
      rw [mergeFields]
      exact ih (o.combine .merge field.2)

theorem keys_mergeNode_of_mem {fields : Fields} {node : Node}
    (h : node.name ∈ Keyed.keys fields) :
    Keyed.keys (mergeNode fields node) = Keyed.keys fields := by
  rw [mergeNode_eq, Keyed.keys_put, if_pos h]

theorem keys_mergeFields_known {fields base incoming : Fields}
    (hkeys : Keyed.keys base = Keyed.keys fields)
    (hnamed : ∀ field ∈ incoming, field.2.name = field.1) :
    Keyed.keys (mergeFields base (fields.known incoming)) = Keyed.keys fields := by
  induction incoming generalizing base with
  | nil =>
      rw [Fields.known, List.filter_nil, mergeFields]
      exact hkeys
  | cons field incoming ih =>
      have hrest : ∀ other ∈ incoming, other.2.name = other.1 :=
        fun other hmem => hnamed other (List.mem_cons_of_mem _ hmem)
      rw [Fields.known, List.filter_cons]
      split
      · rename_i hcontains
        have hmem : field.2.name ∈ Keyed.keys base := by
          rw [hnamed field List.mem_cons_self, hkeys]
          exact Keyed.contains_iff.mp hcontains
        rw [mergeFields]
        exact ih ((keys_mergeNode_of_mem hmem).trans hkeys) hrest
      · exact ih hkeys hrest

/-- A field of a known name is merged where it stands. -/
theorem mergeNode_append_of_mem {base news : Fields} {node : Node}
    (h : node.name ∈ Keyed.keys base) :
    mergeNode (base ++ news) node = mergeNode base node ++ news := by
  obtain ⟨held, hheld⟩ := Option.ne_none_iff_exists'.mp (mt Keyed.get?_eq_none.mp (not_not.mpr h))
  rw [mergeNode_eq, mergeNode_eq, Keyed.get?_append, hheld, Option.some_or,
    Keyed.put_append_of_mem h]

/-- A field of a new name goes to the end. -/
theorem mergeNode_of_not_mem {fields : Fields} {node : Node}
    (h : node.name ∉ Keyed.keys fields) :
    mergeNode fields node = fields ++ [(node.name, node)] := by
  rw [mergeNode_eq, Keyed.get?_eq_none.mpr h, Method.combine_none, Keyed.put_of_not_mem h]

theorem mergeFields_append (fields base news : Fields) {incoming : Fields}
    (hkeys : Keyed.keys base = Keyed.keys fields) (hincoming : incoming.Proper)
    (hnews : ∀ field ∈ incoming, field.1 ∉ Keyed.keys news) :
    mergeFields (base ++ news) incoming =
      mergeFields base (fields.known incoming) ++ (news ++ fields.fresh incoming) := by
  induction incoming generalizing base news with
  | nil =>
      rw [Fields.known, Fields.fresh, List.filter_nil, List.filter_nil, List.append_nil,
        mergeFields, mergeFields]
  | cons field incoming ih =>
      obtain ⟨key, node⟩ := field
      have hname : node.name = key := hincoming.named _ List.mem_cons_self
      have hcontains : Keyed.contains fields key = Keyed.contains base key :=
        (Fields.contains_congr hkeys key).symm
      have hrest : ∀ other ∈ incoming, other.1 ∉ Keyed.keys news :=
        fun other hmem => hnews other (List.mem_cons_of_mem _ hmem)
      rw [mergeFields, Fields.known, Fields.fresh, List.filter_cons, List.filter_cons]
      dsimp only
      by_cases hmem : key ∈ Keyed.keys base
      · rw [hcontains, Keyed.contains_iff.mpr hmem, if_pos rfl, Bool.not_true,
          if_neg Bool.false_ne_true, mergeFields, mergeNode_append_of_mem (hname ▸ hmem)]
        exact ih _ _ ((keys_mergeNode_of_mem (hname ▸ hmem)).trans hkeys) hincoming.tail hrest
      · have hfalse : Keyed.contains base key = false :=
          Bool.eq_false_iff.mpr (mt Keyed.contains_iff.mp hmem)
        have hfresh : node.name ∉ Keyed.keys (base ++ news) := by
          rw [Keyed.keys, List.map_append, List.mem_append, not_or, hname]
          exact ⟨hmem, hnews _ List.mem_cons_self⟩
        -- the field joins the new ones, which the rest of the fields have to stay apart from
        have hapart : ∀ other ∈ incoming, other.1 ∉ Keyed.keys (news ++ [(key, node)]) := by
          intro other hother
          rw [Keyed.keys, List.map_append, List.mem_append, not_or]
          refine ⟨hrest other hother, ?_⟩
          intro hin
          have hkey : other.1 = key := List.mem_singleton.mp hin
          exact (List.nodup_cons.mp hincoming.distinct).1 (List.mem_map.mpr ⟨other, hother, hkey⟩)
        rw [hcontains, hfalse, if_neg Bool.false_ne_true, Bool.not_false, if_pos rfl,
          mergeNode_of_not_mem hfresh, hname, List.append_assoc, ih _ _ hkeys hincoming.tail
            hapart]
        simp only [Fields.known, Fields.fresh, List.append_assoc, List.singleton_append]

/-- **Known names keep their places and new ones follow.** -/
theorem mergeFields_eq_append {fields incoming : Fields} (hincoming : incoming.Proper) :
    mergeFields fields incoming =
      mergeFields fields (fields.known incoming) ++ fields.fresh incoming := by
  have h := mergeFields_append fields fields [] rfl hincoming fun _ _ => List.not_mem_nil
  rwa [List.append_nil, List.nil_append] at h

/-- Proper fields come back as they were when they are merged into an empty object. -/
theorem combineAll_merge_empty (o : Object) {fields : Fields} (h : fields.Proper) :
    ({ o with fields := [] } : Object).combineAll .merge fields = { o with fields } := by
  have hfields := mergeFields_append [] [] [] rfl h fun _ _ => List.not_mem_nil
  have hfresh : Fields.fresh [] fields = fields := List.filter_eq_self.mpr fun _ _ => rfl
  have hknown : Fields.known [] fields = [] := List.filter_eq_nil_iff.mpr fun _ _ => nofun
  rw [hfresh, hknown, mergeFields] at hfields
  rw [Object.combineAll_eq, Object.combineEach_eq, ← Object.combineAll_eq, ← mergeFields_eq]
  dsimp only
  rw [List.append_nil, List.nil_append, List.nil_append] at hfields
  rw [hfields]

end ConfigLang
