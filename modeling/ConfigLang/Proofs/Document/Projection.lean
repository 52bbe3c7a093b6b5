import Mathlib
import ConfigLang.Proofs.Document.Inner
import ConfigLang.Proofs.Document.Paths
import ConfigLang.Proofs.Document.Value

/-!
# Projection and queries

The projection of a document is one run over the whole tree, in which results are
kept.  It gives what is assembled from the queries at the leaves, each of which
starts anew (`toJson_eq_assemble`): the invariant of the run is that what is kept is
sound, for the chain of objects that the run is in.

## Strategy

* **The run.**  `Gives` says what a run gives that starts from sound results, and that
  they are sound in the end unless it fails.  It is kept by sequences (`Gives.bind`).
* **Leaves.**  A field with a value and an item that is an option are evaluated to what
  the query there gives (`gives_field`, `gives_item`).
* **Objects.**  The chain grows on the way into an object and loses what is kept of it on
  the way out (`gives_inside`); the inductions follow the recursion of the projection.
* **Whole documents.**  What is assembled is known from its leaves, so a document is
  projected exactly if all its leaves have a value (`Tidy.agrees`).
-/

namespace ConfigLang

open Resolution Running

/-! ## The run -/

namespace Projection

variable {host : Host Id} {d : Document} {path : List String} {chain : List Object} {o : Object}
  {levels : List Level}

/-- A run that starts from kept results gives a result, and where it is none but an error, kept
results again. -/
def Gives {α : Type} (host : Host Id) (base : Frame) (chain : List Object) (x : Projection Id α)
    (levels : List Level) (result : Except QueryError α) : Prop :=
  ∃ levels', x.run.run levels = pure (result, levels') ∧
    ∀ a, result = .ok a → Sound host base chain levels' []

namespace Gives

variable {base : Frame} {α β : Type} {x : Projection Id α} {r : Except QueryError α}

theorem pure (a : α) (h : Sound host base chain levels []) :
    Gives host base chain (Pure.pure a) levels (.ok a) :=
  ⟨levels, rfl, fun _ _ => h⟩

theorem bind {f : α → Projection Id β} {s : α → Except QueryError β}
    (hx : Gives host base chain x levels r)
    (hf : ∀ a levels', r = .ok a → Sound host base chain levels' [] →
      Gives host base chain (f a) levels' (s a)) :
    Gives host base chain (x >>= f) levels (r >>= s) := by
  obtain ⟨levels', hrun, hsound⟩ := hx
  unfold Gives
  rw [run_bind, hrun, pure_bind]
  cases r with
  | error e => exact ⟨levels', rfl, nofun⟩
  | ok a => exact hf a levels' rfl (hsound a rfl)

/-- What is done with a result does not touch what is kept. -/
theorem map {f : α → β} (hx : Gives host base chain x levels r) :
    Gives host base chain (x >>= fun a => Pure.pure (f a)) levels (r.map f) := by
  have hbind := hx.bind (f := fun a => Pure.pure (f a)) (s := fun a => .ok (f a))
    fun a levels' _ hsound => .pure (f a) hsound
  cases r <;> exact hbind

end Gives

/-- What the query at a path gives. -/
def queried (host : Host Id) (d : Document) (path : List String) : Except QueryError Value :=
  Id.run (d.value host path).run

/-- What a leaf is evaluated to becomes what the query there gives. -/
theorem gives_ofResolution {x : Resolution Id Value} {r : Except EvalError Value}
    {levels' : List Level} (hrun : x.run.run levels = pure (r, levels'))
    (hsound : ∀ v, r = .ok v → Sound host d.base chain levels' [])
    (hqueried : queried host d path = r.mapError (.eval path)) :
    Gives host d.base chain (ofResolution path x) levels
      ((queried host d path).map Value.toJson) := by
  have hadapt : Gives host d.base chain (x.adapt (.eval path)) levels (queried host d path) := by
    refine ⟨levels', ?_, fun v hv => ?_⟩
    · rw [run_adapt, hrun, pure_bind, hqueried]
    · rw [hqueried] at hv
      cases r with
      | error e => cases hv
      | ok w => exact hsound w rfl
  exact hadapt.map

theorem nodeAt?_of_last {key : String} (hlast : chain.getLast? = some o) :
    nodeAt? chain (chain.length - 1, key) = o.valueNode? key := by
  rw [nodeAt?, ← List.getLast?_eq_getElem?, hlast]
  rfl

theorem length_sub_one {levels : List Level} {base : Frame} (hne : chain ≠ [])
    (h : Sound host base chain levels []) : chain.length - 1 + 1 = levels.length := by
  have hpos := List.length_pos_iff.mpr hne
  rw [h.length_eq]
  omega

/-- A field with a value. -/
theorem gives_field {key : String} {node : Node} (hd : d.Tidy) (hleads : d.Leads path chain o)
    (hget : o.get? key = some node) (hvalue : node.isValue = true)
    (h : Sound host d.base chain levels []) :
    Gives host d.base chain (ofResolution (path ++ [key]) (Resolution.field host d.base key)) levels
      (node.assemble (queried host d) (path ++ [key])) := by
  have hname : node.name = key := (hleads.tidy_last.fields.of_get? hget).2
  have hnode : nodeAt? chain (chain.length - 1, key) = some node := by
    rw [nodeAt?_of_last hleads.last, Object.valueNode?, hget, Option.filter_some_pos hvalue]
  have hne : chain ≠ [] := by
    rintro rfl
    cases hleads.last
  have hqueried := Document.value_eq_search host hd (hleads.finds hget).locate hvalue
  rw [hname] at hqueried
  obtain ⟨levels', hrun, hsound⟩ :=
    Resolution.field_run (named_of_tidy hleads.tidy) h hnode (length_sub_one hne h)
  rw [search_of_some List.not_mem_nil hnode] at hrun hsound
  have hassemble : node.assemble (queried host d) (path ++ [key]) =
      (queried host d (path ++ [key])).map Value.toJson := by
    cases node with
    | option binding => rw [Node.assemble]
    | object inner => cases hvalue
    | list name items =>
        have hall : items.all Node.isOption = true := hvalue
        rw [Node.assemble, if_pos hall]
  rw [hassemble]
  exact gives_ofResolution hrun (fun v hv => (hsound v hv).1) hqueried

/-- An option that is no field, but an item of one. -/
theorem gives_item {binding : Binding} (hd : d.Tidy) (hfinds : d.Finds path chain (.option binding))
    (hitem : nodeAt? chain (chain.length - 1, binding.name) = none)
    (h : Sound host d.base chain levels []) :
    Gives host d.base chain (ofResolution path (Resolution.evaluate host d.base (.option binding)))
      levels ((queried host d path).map Value.toJson) := by
  have hstands := hd.stands hfinds.locate
  have hqueried := Document.value_eq_search host hd hfinds.locate rfl
  have hkept : recorded? levels (chain.length - 1, (Node.option binding).name) = none := by
    cases hr : recorded? levels (chain.length - 1, (Node.option binding).name) with
    | none => rfl
    | some r =>
        have hsome := h.isSome_nodeAt? hr
        rw [show (Node.option binding).name = binding.name from rfl, hitem] at hsome
        cases hsome
  obtain ⟨levels', hrun, hsound⟩ :=
    Resolution.evaluate_run hstands.named h (length_sub_one hstands.ne_nil h) hkept
  exact gives_ofResolution hrun (fun v hv => (hsound v hv).1) hqueried

theorem gives_inside {inner : Object} {x : Projection Id Json} {r : Except QueryError Json}
    {base : Frame} (h : Sound host base chain levels [])
    (hx : ∀ levels', Sound host base (chain ++ [inner]) levels' [] →
      Gives host base (chain ++ [inner]) x levels' r) :
    Gives host base chain (inside inner x) levels r := by
  obtain ⟨levels', hrun, hsound⟩ := hx _ (h.enter_object inner)
  unfold Gives
  rw [inside, run_bind, run_modify, pure_bind]
  dsimp only
  rw [run_bind, hrun, pure_bind]
  cases r with
  | error e => exact ⟨levels', rfl, nofun⟩
  | ok json =>
      refine ⟨levels'.dropLast, ?_, fun _ _ => (hsound json rfl).leave_object⟩
      dsimp only
      rw [run_bind, run_modify, pure_bind]
      rfl

mutual

theorem gives_ofObject (hd : d.Tidy) : ∀ {o : Object} {path : List String} {chain : List Object}
    {levels : List Level}, d.Leads path chain o → Sound host d.base chain levels [] →
      Gives host d.base chain (ofObject host d.base path o) levels
        (o.assemble (queried host d) path)
  | ⟨_, _, fields, _, _, _, _⟩, path, chain, levels, hleads, h => by
    rw [ofObject, Object.assemble]
    refine (gives_ofFields hd hleads (fun field hmem => ?_) h).map
    exact Keyed.get?_of_mem hleads.tidy_last.fields.distinct hmem

theorem gives_ofFields (hd : d.Tidy) {o : Object} {path : List String} {chain : List Object}
    (hleads : d.Leads path chain o) : ∀ {fields : Fields} {levels : List Level},
      (∀ field ∈ fields, o.get? field.1 = some field.2) → Sound host d.base chain levels [] →
        Gives host d.base chain (ofFields host d.base path fields) levels
          (assembleFields (queried host d) path fields)
  | [], levels, _, h => by
    rw [ofFields, assembleFields]
    exact .pure [] h
  | (key, node) :: fields, levels, hfields, h => by
    have hget := hfields _ List.mem_cons_self
    have hrest := fun field hmem => hfields field (List.mem_cons_of_mem _ hmem)
    rw [ofFields, assembleFields]
    -- a value is evaluated where it stands; what is inside another node is followed
    cases hvalue : node.isValue with
    | true =>
        simp only [if_true]
        exact (gives_field hd hleads hget hvalue h).bind fun json levels' _ h' =>
          (gives_ofFields hd hleads hrest h').map
    | false =>
        simp only [Bool.false_eq_true, if_false]
        obtain ⟨htidy, hname⟩ := hleads.tidy_last.fields.of_get? hget
        refine (gives_ofNode hd (hleads.finds hget) ?_ ?_ h).bind fun json levels' _ h' =>
          (gives_ofFields hd hleads hrest h').map
        · rw [nodeAt?_of_last hleads.last, hname, Object.valueNode?, hget]
          exact Option.filter_some_neg hvalue
        · rintro name items rfl
          refine ⟨hvalue, fun i item hitem => ⟨?_, hleads.finds_item hget hitem⟩⟩
          exact htidy.items item (List.mem_of_getElem? hitem)

theorem gives_ofNode (hd : d.Tidy) {chain : List Object} : ∀ {node : Node} {path : List String}
    {levels : List Level}, d.Finds path chain node →
      nodeAt? chain (chain.length - 1, node.name) = none →
        (∀ (name : String) (items : List Node), node = .list name items →
          items.all Node.isOption = false ∧
          ∀ (i : Nat) (item : Node), items[i]? = some item →
            Node.IsItem name item ∧ d.Finds (path ++ [toString i]) chain item) →
          Sound host d.base chain levels [] →
            Gives host d.base chain (ofNode host d.base path node) levels
              (node.assemble (queried host d) path)
  | .option binding, path, levels, hfinds, hname, _, h => by
    rw [ofNode, Node.assemble]
    exact gives_item hd hfinds hname h
  | .object inner, path, levels, hfinds, _, _, h => by
    rw [ofNode, Node.assemble]
    exact gives_inside h fun levels' h' => gives_ofObject hd (hfinds.object inner rfl) h'
  | .list name items, path, levels, _, hname, hlist, h => by
    obtain ⟨hall, hitems⟩ := hlist name items rfl
    rw [ofNode, Node.assemble, hall]
    refine (gives_ofItems hd hname (fun i item hitem => ?_) h).map
    rw [Nat.zero_add]
    exact hitems i item hitem

theorem gives_ofItems (hd : d.Tidy) {chain : List Object} {path : List String} {name : String}
    (hname : nodeAt? chain (chain.length - 1, name) = none) : ∀ {items : List Node} {place : Nat}
    {levels : List Level},
      (∀ (i : Nat) (item : Node), items[i]? = some item →
        Node.IsItem name item ∧ d.Finds (path ++ [toString (place + i)]) chain item) →
        Sound host d.base chain levels [] →
          Gives host d.base chain (ofItems host d.base path place items) levels
            (assembleItems (queried host d) path place items)
  | [], place, levels, _, h => by
    rw [ofItems, assembleItems]
    exact .pure [] h
  | item :: items, place, levels, hitems, h => by
    obtain ⟨hitem, hfinds⟩ := hitems 0 item rfl
    rw [ofItems, assembleItems]
    refine (gives_ofNode hd hfinds (by rw [hitem.named]; exact hname) ?_ h).bind
      fun json levels' _ h' => ?_
    · rintro name' items' rfl
      exact absurd hitem.single nofun
    refine (gives_ofItems hd hname (fun i other hother => ?_) h').map
    rw [Nat.add_right_comm]
    exact hitems (i + 1) other hother

end

end Projection

/-! ## Whole documents -/

namespace Document

open Projection

/-- The projection puts together what the queries at the leaves give. -/
theorem toJson_eq_assemble (host : Host Id) {d : Document} (hd : d.Tidy) :
    Id.run (d.toJson host).run = d.root.assemble (queried host d) [] := by
  have hlevels : d.levels [d.root] = [d.root].map Level.ofObject := by
    rw [levels, hd.whole, List.nil_append]
  obtain ⟨levels', hrun, -⟩ :=
    gives_ofObject hd hd.leads (sound_ofObject host d.base [d.root])
  unfold toJson
  rw [hlevels, hrun, pure_bind]
  rfl

/-- What is queried at a path depends on where it leads. -/
theorem exists_queried_of_locate_eq {host : Host Id} {d : Document} (hd : d.Tidy)
    {q leaf : List String} (hleaf : d.LeafPath q) (hlocate : d.locate leaf = d.locate q)
    (h : ∃ v, queried host d leaf = .ok v) : ∃ v, queried host d q = .ok v := by
  obtain ⟨chain, node, hq, hvalue, -⟩ := hleaf
  obtain ⟨v, hv⟩ := h
  have hleafEq := value_eq_search host hd (hlocate.trans hq) hvalue
  have hqEq := value_eq_search host hd hq hvalue
  rw [queried, hleafEq] at hv
  rw [queried, hqEq]
  cases hsearch : valueFrom host d.base chain
      (search host d.base chain [(chain.length - 1, node.name)]) (chain.length - 1) node with
  | ok w => exact ⟨w, rfl⟩
  | error e =>
      rw [hsearch] at hv
      cases hv

/-- The projection of a document agrees with the queries at its leaves. -/
structure ProjectionAgrees (host : Host Id) (d : Document) : Prop where
  /-- There is a JSON value if and only if every leaf has a value. -/
  ok_iff : (∃ json, Id.run (d.toJson host).run = .ok json) ↔
    ∀ q, d.LeafPath q → ∃ v, Id.run (d.value host q).run = .ok v
  /-- It has the outline of the document, and at each leaf the value of the leaf. -/
  value_at : ∀ json, Id.run (d.toJson host).run = .ok json → d.root.Fits json ∧
    ∀ q ∈ d.root.leaves, ∃ v, Id.run (d.value host q).run = .ok v ∧ json.at? q = some v.toJson
  /-- Otherwise the error is that of the first leaf that has no value. -/
  error_iff : ∀ e, Id.run (d.toJson host).run = .error e ↔ ∃ before q after,
    d.root.leaves = before ++ q :: after ∧
      (∀ p ∈ before, ∃ v, Id.run (d.value host p).run = .ok v) ∧
        Id.run (d.value host q).run = .error e
  /-- The leaves are listed, each under one of its paths. -/
  leafPath : ∀ q ∈ d.root.leaves, d.LeafPath q
  exists_leaf : ∀ q, d.LeafPath q → ∃ leaf ∈ d.root.leaves, d.locate leaf = d.locate q

private theorem fault?_eq_none {ε α : Type} {x : Except ε α} :
    fault? x = none ↔ ∃ a, x = .ok a := by
  cases x <;> simp [fault?]

private theorem fault?_eq_some {ε α : Type} {x : Except ε α} {e : ε} :
    fault? x = some e ↔ x = .error e := by
  cases x <;> simp [fault?]

theorem Tidy.agrees (host : Host Id) {d : Document} (hd : d.Tidy) :
    ProjectionAgrees host d := by
  have hjson := toJson_eq_assemble host hd
  have hfault : fault? (d.root.assemble (queried host d) []) =
      d.root.leaves.findSome? fun q => fault? (queried host d ([] ++ q)) :=
    fault?_assembleObject [] d.root
  rw [← hjson] at hfault
  have hleafPath : ∀ q ∈ d.root.leaves, d.LeafPath q := fun q hq => hd.leads.leafPath hq
  have hexists : ∀ q, d.LeafPath q → ∃ leaf ∈ d.root.leaves, d.locate leaf = d.locate q := by
    rintro q ⟨chain, node, hq, hvalue, hin⟩
    rcases exists_leaf hd.root rfl hq hvalue with h | ⟨leaf, hleaf, hlocate⟩
    · exact absurd h hin
    · exact ⟨leaf, hleaf, (hlocate []).trans hq.symm⟩
  constructor
  case leafPath => exact hleafPath
  case exists_leaf => exact hexists
  case ok_iff =>
    rw [← fault?_eq_none, hfault, List.findSome?_eq_none_iff]
    constructor
    · -- a leaf may be queried by another path than the one that is listed
      intro h q hq
      obtain ⟨leaf, hleaf, hlocate⟩ := hexists q hq
      exact exists_queried_of_locate_eq hd hq hlocate (fault?_eq_none.mp (h leaf hleaf))
    · intro h q hq
      exact fault?_eq_none.mpr (h q (hleafPath q hq))
  case value_at =>
    intro json h
    exact assembleObject_ok [] hd.root (hjson.symm.trans h)
  case error_iff =>
    intro e
    rw [← fault?_eq_some, hfault, List.findSome?_eq_some_iff]
    constructor
    · rintro ⟨before, q, after, hsplit, hq, hbefore⟩
      refine ⟨before, q, after, hsplit, ?_, fault?_eq_some.mp hq⟩
      intro p hp
      exact fault?_eq_none.mp (hbefore p hp)
    · rintro ⟨before, q, after, hsplit, hbefore, hq⟩
      refine ⟨before, q, after, hsplit, fault?_eq_some.mpr hq, ?_⟩
      intro p hp
      exact fault?_eq_none.mpr (hbefore p hp)

/-- **The projection agrees with the queries**, whatever the base variables are. -/
theorem projection_agrees (host : Host Id) {d : Document} (hd : d.Built) (base : Frame) :
    ProjectionAgrees host { d with base } :=
  Tidy.agrees host ⟨hd.tidy.root, hd.tidy.whole⟩

/-- The document `a = $b`, `b = 1`. -/
theorem projection_agrees_of_reference :
    ∃ d : Document, d.Built ∧ ProjectionAgrees (FileTree.mk [] []).host d := by
  let s : Setting (StateM Unit) :=
    ⟨(FileTree.mk [] []).host, (FileTree.mk [] []).source, .empty, none⟩
  have hfound : (match (ofText s "a = $b\nb = 1\n").run.run () with
      | (.ok d, _) => d.root.leaves == [["a"], ["b"]]
      | (.error _, _) => false) = true := by decide +kernel
  split at hfound
  · rename_i d _ hbuilt
    exact ⟨d, .ofText s _ hbuilt, projection_agrees _ (.ofText s _ hbuilt) d.base⟩
  · cases hfound

end Document

end ConfigLang
