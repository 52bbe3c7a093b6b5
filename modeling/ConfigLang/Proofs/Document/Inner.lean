import Mathlib
import ConfigLang.Proofs.Document.Memo

/-!
# Going in and out

References lead outward only, so an object that is added at the inner end of a
chain changes nothing for the fields of the others (`search_append`).  What is kept
of a chain stays right when an object is entered, and when it is left.
-/

namespace ConfigLang

variable {objects inner : List Object} {site : Site} {level : Nat} {node : Node}

theorem nodeAt?_append (hlevel : site.1 < objects.length) :
    nodeAt? (objects ++ inner) site = nodeAt? objects site := by
  rw [nodeAt?, nodeAt?, List.getElem?_append_left hlevel]

theorem owner?_append (hlevel : level < objects.length) (own name : String) :
    owner? (objects ++ inner) level own name = owner? objects level own name := by
  refine List.find?_congr fun i hi => ?_
  have hi : i < objects.length := by
    have := List.mem_range.mp (List.mem_reverse.mp hi)
    omega
  rw [List.getElem?_append_left hi]

theorem references_append (hlevel : level < objects.length) (node : Node) :
    references (objects ++ inner) level node = references objects level node := by
  unfold references targets
  exact List.filterMap_congr fun name _ => by rw [owner?_append hlevel]

theorem refers_append (hlevel : site.1 < objects.length) {target : Site} :
    Refers (objects ++ inner) site target ↔ Refers objects site target := by
  unfold Refers
  rw [nodeAt?_append hlevel]
  constructor
  · rintro ⟨node, hnode, hmem⟩
    exact ⟨node, hnode, by rwa [references_append hlevel] at hmem⟩
  · rintro ⟨node, hnode, hmem⟩
    exact ⟨node, hnode, by rwa [references_append hlevel]⟩

theorem level_le_of_refers {target : Site} (h : Refers objects site target) :
    target.1 ≤ site.1 := by
  obtain ⟨node, -, hmem⟩ := h
  exact (visible_of_mem_references hmem).1

section

variable {host : Host Id} {base : Frame}

theorem valueFrom_append (hlevel : level < objects.length) (worth : Site → Except EvalError Value) :
    valueFrom host base (objects ++ inner) worth level node =
      valueFrom host base objects worth level node := by
  rw [valueFrom, valueFrom, references_append hlevel]

/-- An inner object changes nothing for the fields of the others. -/
theorem search_append (active : List Site) (hlevel : site.1 < objects.length) :
    search host base (objects ++ inner) active site = search host base objects active site := by
  induction active, site using search.induct objects with
  | case1 active site hmem => rw [search_of_mem hmem, search_of_mem hmem]
  | case2 active site hmem hnode =>
      rw [search_of_none hmem hnode, search_of_none hmem]
      rwa [nodeAt?_append hlevel]
  | case3 active site hmem node hnode ih =>
      have hnode' : nodeAt? (objects ++ inner) site = some node :=
        (nodeAt?_append hlevel).trans hnode
      rw [search_of_some hmem hnode, search_of_some hmem hnode', valueFrom_append hlevel]
      refine valueFrom_congr fun target htarget => ih target ?_
      exact Nat.lt_of_le_of_lt (visible_of_mem_references htarget).1 hlevel

end

namespace Resolution

variable {host : Host Id} {base : Frame} {levels : List Level} {o : Object}

theorem recorded?_of_le (hlevel : levels.length ≤ site.1) : recorded? levels site = none := by
  rw [recorded?, List.getElem?_eq_none hlevel]
  rfl

theorem level_lt_of_recorded {r : Except EvalError Value} (h : recorded? levels site = some r) :
    site.1 < levels.length := by
  by_contra hlevel
  rw [recorded?_of_le (Nat.le_of_not_lt hlevel)] at h
  cases h

theorem recorded?_enter (site : Site) :
    recorded? (levels ++ [Level.ofObject o]) site = recorded? levels site := by
  by_cases hlevel : site.1 < levels.length
  · rw [recorded?, recorded?, List.getElem?_append_left hlevel]
  · have hle : levels.length ≤ site.1 := Nat.le_of_not_lt hlevel
    rw [recorded?_of_le hle, recorded?, List.getElem?_append_right hle]
    cases hl : [Level.ofObject o][site.1 - levels.length]? with
    | none => rfl
    | some l =>
        rw [List.mem_singleton.mp (List.mem_of_getElem? hl)]
        rfl

theorem recorded?_leave (hlevel : site.1 < levels.length - 1) :
    recorded? levels.dropLast site = recorded? levels site := by
  rw [recorded?, recorded?, List.getElem?_dropLast, if_pos hlevel]

/-- Nothing is kept of an object that is entered. -/
theorem Sound.enter_object (h : Sound host base objects levels []) (o : Object) :
    Sound host base (objects ++ [o]) (levels ++ [Level.ofObject o]) [] where
  objects_eq := by rw [List.map_append, h.objects_eq]; rfl
  value site r hr := by
    rw [recorded?_enter] at hr
    have hlevel := level_lt_of_recorded hr
    rw [h.length_eq] at hlevel
    rw [search_append [] hlevel]
    exact h.value site r hr
  closed site target hr hrefers := by
    rw [recorded?_enter] at hr ⊢
    obtain ⟨r, hr'⟩ := Option.isSome_iff_exists.mp hr
    have hlevel := level_lt_of_recorded hr'
    rw [h.length_eq] at hlevel
    exact h.closed site target hr ((refers_append hlevel).mp hrefers)
  fresh := nofun

/-- What is kept of the others stays when an object is left. -/
theorem Sound.leave_object {o : Object} (h : Sound host base (objects ++ [o]) levels []) :
    Sound host base objects levels.dropLast [] := by
  have hlength : levels.length - 1 = objects.length := by
    rw [h.length_eq, List.length_append]
    rfl
  have hkept : ∀ {site r}, recorded? levels.dropLast site = some r →
      site.1 < objects.length ∧ recorded? levels site = some r := fun {site r} hr => by
    have hlevel := level_lt_of_recorded hr
    rw [List.length_dropLast] at hlevel
    rw [recorded?_leave hlevel] at hr
    exact ⟨hlength ▸ hlevel, hr⟩
  refine ⟨?_, ?_, ?_, nofun⟩
  · rw [List.map_dropLast, h.objects_eq, List.dropLast_concat]
  · intro site r hr
    obtain ⟨hlevel, hr⟩ := hkept hr
    obtain ⟨v, hv, hsearch⟩ := h.value site r hr
    exact ⟨v, hv, (search_append [] hlevel).symm.trans hsearch⟩
  · intro site target hr hrefers
    obtain ⟨r, hr⟩ := Option.isSome_iff_exists.mp hr
    obtain ⟨hlevel, hr⟩ := hkept hr
    have htarget := Nat.lt_of_le_of_lt (level_le_of_refers hrefers) hlevel
    rw [recorded?_leave (hlength ▸ htarget)]
    exact h.closed site target (by rw [hr]; rfl) ((refers_append hlevel).mpr hrefers)

end Resolution

end ConfigLang
