import Mathlib
import ConfigLang.Document.Resolution
import ConfigLang.Proofs.Document.References

/-!
# Values along the references

`valueFrom` evaluates a node after the fields that it refers to: in an environment
which binds their names to what these fields are worth, and nothing else.  Two
functions on fields are built on it.

* `search` is evaluation that keeps no results: it follows the references depth
  first, with the fields under evaluation at hand, and gives up at the first of
  them that it comes back to.  It is total, since each field under evaluation is
  one of finitely many.
* `denote` follows the references by recursion, and is meant for acyclic fields
  (`denote_eq`).

A field with a value in the search reaches none of the fields under evaluation
(`not_mem_of_search_ok`), so the value does not depend on which these are
(`search_ok_of_disjoint`) and the field is acyclic (`acyclic_of_search_ok`).  An
acyclic field that reaches none of them is found to be worth what it denotes
(`search_eq_denote`).
-/

namespace ConfigLang

open Relation

/-! ## A node after what it refers to -/

/-- The values of some fields under their names, or the error of the first that has none. -/
def gather (worth : Site → Except EvalError Value) :
    List Site → Except EvalError (List (String × Value))
  | [] => .ok []
  | site :: sites =>
    match worth site with
    | .error e => .error e
    | .ok value => (gather worth sites).map ((site.2, value) :: ·)

theorem gather_cons_ok {worth : Site → Except EvalError Value} {site : Site} {sites : List Site}
    {value : Value} (h : worth site = .ok value) :
    gather worth (site :: sites) = (gather worth sites).map ((site.2, value) :: ·) := by
  rw [gather, h]

theorem gather_cons_error {worth : Site → Except EvalError Value} {site : Site}
    {sites : List Site} {e : EvalError} (h : worth site = .error e) :
    gather worth (site :: sites) = .error e := by
  rw [gather, h]

theorem gather_congr {worth worth' : Site → Except EvalError Value} {sites : List Site}
    (h : ∀ site ∈ sites, worth site = worth' site) : gather worth sites = gather worth' sites := by
  induction sites with
  | nil => rfl
  | cons site sites ih =>
      rw [gather, gather, h site List.mem_cons_self,
        ih fun other hmem => h other (List.mem_cons_of_mem _ hmem)]

private theorem forall₂_of_gather {worth : Site → Except EvalError Value} {sites : List Site}
    {bindings : List (String × Value)} (h : gather worth sites = .ok bindings) :
    List.Forall₂ (fun site binding => binding.1 = site.2 ∧ worth site = .ok binding.2)
      sites bindings := by
  induction sites generalizing bindings with
  | nil =>
      cases h
      exact .nil
  | cons site sites ih =>
      cases hworth : worth site with
      | error e =>
          rw [gather_cons_error hworth] at h
          cases h
      | ok value =>
          rw [gather_cons_ok hworth] at h
          cases hrest : gather worth sites with
          | error e =>
              rw [hrest] at h
              cases h
          | ok rest =>
              rw [hrest] at h
              cases h
              exact .cons ⟨rfl, hworth⟩ (ih hrest)

/-- Fields are gathered if each of them has a value. -/
theorem gather_eq_ok_iff {worth : Site → Except EvalError Value} {sites : List Site}
    {bindings : List (String × Value)} :
    gather worth sites = .ok bindings ↔
      List.Forall₂ (fun site binding => binding.1 = site.2 ∧ worth site = .ok binding.2)
        sites bindings := by
  constructor
  · exact forall₂_of_gather
  · intro h
    induction h with
    | nil => rfl
    | @cons site binding sites bindings hbinding _ ih =>
        obtain ⟨name, value⟩ := binding
        obtain ⟨rfl, hworth⟩ := hbinding
        rw [gather_cons_ok hworth, ih]
        rfl

theorem worth_ok_of_gather_ok {worth : Site → Except EvalError Value} {sites : List Site}
    {bindings : List (String × Value)} (h : gather worth sites = .ok bindings) :
    ∀ site ∈ sites, ∃ value, worth site = .ok value := by
  rw [gather_eq_ok_iff] at h
  induction h with
  | nil => simp
  | cons hbinding _ ih =>
      intro site hmem
      rcases List.mem_cons.mp hmem with rfl | hmem
      · exact ⟨_, hbinding.2⟩
      · exact ih site hmem

section Definitions

variable (host : Host Id) (base : Frame) (objects : List Object)

/-- The value of a node from what the fields are worth that it refers to: their names are all
that it sees, apart from the base variables. -/
def valueFrom (worth : Site → Except EvalError Value) (level : Nat) (node : Node) :
    Except EvalError Value :=
  match gather worth (references objects level node) with
  | .error e => .error e
  | .ok bindings => Id.run (Resolution.evaluateNode host ⟨base, [⟨bindings⟩]⟩ node).run

variable {objects} in
/-- A field under evaluation leaves fewer that are not. -/
theorem length_inactive_lt {active : List Site} {site : Site} (hactive : site ∉ active)
    (hsite : (nodeAt? objects site).isSome = true) :
    ((sites objects).filter (· ∉ site :: active)).length <
      ((sites objects).filter (· ∉ active)).length := by
  have hmem : site ∈ (sites objects).filter (· ∉ active) := by
    simpa using ⟨mem_sites hsite, hactive⟩
  have hsplit : (sites objects).filter (· ∉ site :: active) =
      ((sites objects).filter (· ∉ active)).filter (· ≠ site) := by
    rw [List.filter_filter]
    exact List.filter_congr fun other _ => by simp [not_or]
  rw [hsplit]
  exact List.length_filter_lt_length_iff_exists.mpr ⟨site, hmem, by simp⟩

/-- The value of a field, while those in `active` are being evaluated. -/
def search (active : List Site) (site : Site) : Except EvalError Value :=
  if _hactive : site ∈ active then .error (.cyclicReference ("$" ++ site.2))
  else
    match _hnode : nodeAt? objects site with
    | none => .error (.undefinedVariable ("$" ++ site.2))
    | some node => valueFrom host base objects (search (site :: active)) site.1 node
termination_by ((sites objects).filter (· ∉ active)).length
decreasing_by exact length_inactive_lt _hactive (by rw [_hnode]; rfl)

open Classical in
/-- The value of a field by recursion on what it refers to. -/
noncomputable def denote (site : Site) : Except EvalError Value :=
  if _hacyclic : Acyclic objects site then
    match nodeAt? objects site with
    | none => .error (.undefinedVariable ("$" ++ site.2))
    | some node =>
      -- only fields that the node refers to are asked for, and the recursion needs to see it
      valueFrom host base objects
        (fun target =>
          if _hrefers : Refers objects site target then denote target
          else .error (.undefinedVariable ("$" ++ target.2)))
        site.1 node
  else .error (.cyclicReference ("$" ++ site.2))
termination_by (@wellFounded_refersDown objects).wrap site
decreasing_by exact ⟨_hrefers, _hacyclic⟩

end Definitions

variable {host : Host Id} {base : Frame} {objects : List Object}

theorem valueFrom_congr {worth worth' : Site → Except EvalError Value} {level : Nat} {node : Node}
    (h : ∀ site ∈ references objects level node, worth site = worth' site) :
    valueFrom host base objects worth level node =
      valueFrom host base objects worth' level node := by
  rw [valueFrom, valueFrom, gather_congr h]

theorem worth_ok_of_valueFrom_ok {worth : Site → Except EvalError Value} {level : Nat}
    {node : Node} {value : Value} (h : valueFrom host base objects worth level node = .ok value) :
    ∀ site ∈ references objects level node, ∃ v, worth site = .ok v := by
  unfold valueFrom at h
  split at h
  · cases h
  · rename_i hgather
    exact worth_ok_of_gather_ok hgather

/-! ## The search -/

theorem search_of_mem {active : List Site} {site : Site} (h : site ∈ active) :
    search host base objects active site = .error (.cyclicReference ("$" ++ site.2)) := by
  rw [search, dif_pos h]

theorem search_of_none {active : List Site} {site : Site} (hactive : site ∉ active)
    (hnode : nodeAt? objects site = none) :
    search host base objects active site = .error (.undefinedVariable ("$" ++ site.2)) := by
  rw [search, dif_neg hactive]
  split
  · rfl
  · rename_i node h
    rw [hnode] at h
    cases h

theorem search_of_some {active : List Site} {site : Site} {node : Node} (hactive : site ∉ active)
    (hnode : nodeAt? objects site = some node) :
    search host base objects active site =
      valueFrom host base objects (search host base objects (site :: active)) site.1 node := by
  rw [search, dif_neg hactive]
  split
  · rename_i h
    rw [hnode] at h
    cases h
  · rename_i node' h
    rw [hnode] at h
    cases h
    rfl

/-- A field with a value in the search is not under evaluation, and has a node. -/
theorem exists_node_of_search_ok {active : List Site} {site : Site} {value : Value}
    (h : search host base objects active site = .ok value) :
    site ∉ active ∧ ∃ node, nodeAt? objects site = some node ∧
      valueFrom host base objects (search host base objects (site :: active)) site.1 node =
        .ok value := by
  have hactive : site ∉ active := by
    intro hmem
    rw [search_of_mem hmem] at h
    cases h
  cases hnode : nodeAt? objects site with
  | none =>
      rw [search_of_none hactive hnode] at h
      cases h
  | some node =>
      rw [search_of_some hactive hnode] at h
      exact ⟨hactive, node, rfl, h⟩

/-- What a field with a value refers to has a value, while the field itself is being evaluated. -/
theorem search_ok_of_refers {active : List Site} {site target : Site} {value : Value}
    (h : search host base objects active site = .ok value) (hrefers : Refers objects site target) :
    ∃ v, search host base objects (site :: active) target = .ok v := by
  obtain ⟨-, node, hnode, hvalue⟩ := exists_node_of_search_ok h
  obtain ⟨node', hnode', hmem⟩ := hrefers
  rw [hnode] at hnode'
  cases hnode'
  exact worth_ok_of_valueFrom_ok hvalue _ hmem

/-- A field with a value reaches no field under evaluation. -/
theorem not_mem_of_search_ok {active : List Site} {site target : Site} {value : Value}
    (h : search host base objects active site = .ok value)
    (hreach : ReflTransGen (Refers objects) site target) : target ∉ active := by
  induction hreach using ReflTransGen.head_induction_on generalizing active value with
  | refl => exact (exists_node_of_search_ok h).1
  | head hrefers _ ih =>
      -- one step further even more fields are under evaluation
      obtain ⟨v, hv⟩ := search_ok_of_refers h hrefers
      intro hactive
      exact ih hv (List.mem_cons_of_mem _ hactive)

/-- A field with a value leads into no cycle. -/
theorem acyclic_of_search_ok {active : List Site} {site : Site} {value : Value}
    (h : search host base objects active site = .ok value) : Acyclic objects site := by
  intro target hreach
  induction hreach using ReflTransGen.head_induction_on generalizing active value with
  | refl =>
      -- the next field on the cycle would reach this one, which is under evaluation then
      intro hcycle
      obtain ⟨next, hrefers, hback⟩ := TransGen.head'_iff.mp hcycle
      obtain ⟨v, hv⟩ := search_ok_of_refers h hrefers
      exact not_mem_of_search_ok hv hback List.mem_cons_self
  | head hrefers _ ih =>
      obtain ⟨v, hv⟩ := search_ok_of_refers h hrefers
      exact ih hv

/-! ## What fields denote -/

theorem denote_eq {site : Site} {node : Node} (hacyclic : Acyclic objects site)
    (hnode : nodeAt? objects site = some node) :
    denote host base objects site =
      valueFrom host base objects (denote host base objects) site.1 node := by
  rw [denote, dif_pos hacyclic, hnode]
  apply valueFrom_congr
  intro target hmem
  exact dif_pos ⟨node, hnode, hmem⟩

/-- An acyclic field that reaches none of those under evaluation is worth what it denotes. -/
theorem search_eq_denote {active : List Site} {site : Site} (hacyclic : Acyclic objects site)
    (hactive : ∀ target, ReflTransGen (Refers objects) site target → target ∉ active) :
    search host base objects active site = denote host base objects site := by
  induction active, site using search.induct objects with
  | case1 active site hmem => exact absurd hmem (hactive site .refl)
  | case2 active site hmem hnode =>
      rw [search_of_none hmem hnode, denote, dif_pos hacyclic, hnode]
  | case3 active site hmem node hnode ih =>
      rw [search_of_some hmem hnode, denote_eq hacyclic hnode]
      apply valueFrom_congr
      intro target htarget
      have hrefers : Refers objects site target := ⟨node, hnode, htarget⟩
      apply ih target (hacyclic.of_refers hrefers)
      intro other hreach
      rw [List.mem_cons, not_or]
      constructor
      · rintro rfl
        exact hacyclic other .refl (TransGen.head' hrefers hreach)
      · exact hactive other (hreach.head hrefers)

/-- The value of a field does not depend on what is under evaluation, as long as the field
reaches none of it. -/
theorem search_ok_of_disjoint {active active' : List Site} {site : Site} {value : Value}
    (h : search host base objects active site = .ok value)
    (hactive : ∀ target, ReflTransGen (Refers objects) site target → target ∉ active') :
    search host base objects active' site = .ok value := by
  have hacyclic := acyclic_of_search_ok h
  rw [search_eq_denote hacyclic hactive,
    ← search_eq_denote hacyclic fun target hreach => not_mem_of_search_ok h hreach, h]

end ConfigLang
