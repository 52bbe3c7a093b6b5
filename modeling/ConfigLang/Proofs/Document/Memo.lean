import Mathlib
import ConfigLang.Proofs.Document.Environment
import ConfigLang.Proofs.Running

/-!
# Evaluation that keeps its results

`Resolution.resolve` keeps the result of each field that it comes to, and looks it
up when it comes there again.  Here it is shown to find what the search finds that
keeps nothing (`resolve_run`), and so does `evaluate` (`evaluate_run`).

The invariant is `Sound`: what is kept of a field is its value in a search with
nothing under evaluation, and with a field all that it refers to is kept.  A field
under evaluation is not kept, so what is kept reaches none of them, and its value
is the same whatever is under evaluation (`Sound.search_eq`).  Failures are kept as
well, but the first of them ends the evaluation, and none is ever looked up; the
invariant is therefore stated for runs that have not failed.

## Strategy

* **Keeping a result.**  A field may be kept once all that it refers to is
  (`Sound.record`), and whatever is kept stays (`Grows`).  A field that goes under
  evaluation is taken out of those of which nothing may be kept (`Sound.enter`,
  `Sound.idle`).
* **What is referred to.**  `Finds` is the statement about one run, and `Searches` says
  it of a way to evaluate fields.  The fields that some names refer to are evaluated one
  after the other (`resolveAll_run`), and then the node sees what the search lets it see
  (`evaluateNode_of_kept`, `evaluateAt_run`).
* **Fields.**  A field has been kept, is under evaluation, or is evaluated now:
  `finds_of_settled` is about the first two, and the induction on the fuel in
  `resolve_run` about the last.
-/

namespace ConfigLang

open Relation Running

/-- Every field carries the name that it is stored under. -/
def Named (objects : List Object) : Prop :=
  ∀ site node, nodeAt? objects site = some node → node.name = site.2

namespace Resolution

variable {host : Host Id} {base : Frame} {objects : List Object} {levels levels' : List Level}
  {active : List Site} {site : Site} {level : Nat} {node : Node} {r : Except EvalError Value}

/-! ## The results that are kept -/

/-- What is kept of a field is its value in the search, and with a field all that it refers to is
kept, but no field under evaluation. -/
structure Sound (host : Host Id) (base : Frame) (objects : List Object) (levels : List Level)
    (active : List Site) : Prop where
  objects_eq : levels.map Level.object = objects
  value : ∀ site r, recorded? levels site = some r →
    ∃ v, r = .ok v ∧ search host base objects [] site = .ok v
  closed : ∀ site target, (recorded? levels site).isSome = true → Refers objects site target →
    (recorded? levels target).isSome = true
  fresh : ∀ site ∈ active, recorded? levels site = none

/-- What is kept stays. -/
def Grows (levels levels' : List Level) : Prop :=
  ∀ site r, recorded? levels site = some r → recorded? levels' site = some r

theorem Grows.refl (levels : List Level) : Grows levels levels :=
  fun _ _ h => h

theorem Grows.trans {levels'' : List Level} (h : Grows levels levels')
    (h' : Grows levels' levels'') : Grows levels levels'' :=
  fun site r hr => h' site r (h site r hr)

namespace Sound

theorem length_eq (h : Sound host base objects levels active) : levels.length = objects.length := by
  rw [← h.objects_eq, List.length_map]

theorem isSome_nodeAt? (h : Sound host base objects levels active)
    (hr : recorded? levels site = some r) : (nodeAt? objects site).isSome = true := by
  obtain ⟨v, -, hv⟩ := h.value site r hr
  obtain ⟨-, node, hnode, -⟩ := exists_node_of_search_ok hv
  rw [hnode]
  rfl

theorem closed_of_reaches {target : Site} (h : Sound host base objects levels active)
    (hr : (recorded? levels site).isSome = true)
    (hreach : ReflTransGen (Refers objects) site target) :
    (recorded? levels target).isSome = true := by
  induction hreach with
  | refl => exact hr
  | tail _ hrefers ih => exact h.closed _ _ ih hrefers

/-- What is kept of a field is what the search finds, whatever is under evaluation. -/
theorem search_eq (h : Sound host base objects levels active)
    (hr : recorded? levels site = some r) : search host base objects active site = r := by
  obtain ⟨v, rfl, hv⟩ := h.value site r hr
  apply search_ok_of_disjoint hv
  intro target hreach hmem
  have hkept := h.closed_of_reaches (by rw [hr]; rfl) hreach
  rw [h.fresh target hmem] at hkept
  cases hkept

theorem enter (h : Sound host base objects levels active) (hsite : recorded? levels site = none) :
    Sound host base objects levels (site :: active) where
  objects_eq := h.objects_eq
  value := h.value
  closed := h.closed
  fresh := by
    rintro other hmem
    rcases List.mem_cons.mp hmem with rfl | hmem
    · exact hsite
    · exact h.fresh other hmem

theorem idle (h : Sound host base objects levels active) : Sound host base objects levels [] where
  objects_eq := h.objects_eq
  value := h.value
  closed := h.closed
  fresh := nofun

end Sound

/-! ## Keeping a result -/

theorem recorded?_eq {l : Level} {i : Nat} (hl : levels[i]? = some l) (name : String) :
    recorded? levels (i, name) = Keyed.get? l.results name := by
  rw [recorded?, hl]
  rfl

theorem recorded?_record (hlevel : site.1 < levels.length) (hsite : recorded? levels site = none)
    (other : Site) :
    recorded? (levels.modify site.1 (Level.record site.2 r)) other =
      if other = site then some r else recorded? levels other := by
  obtain ⟨i, name⟩ := site
  obtain ⟨j, key⟩ := other
  have hl : levels[i]? = some levels[i] := List.getElem?_eq_getElem hlevel
  by_cases hj : i = j
  · subst hj
    have hl' : (levels.modify i (Level.record name r))[i]? = some (levels[i].record name r) := by
      rw [List.getElem?_modify_eq, hl]
      rfl
    rw [recorded?_eq hl] at hsite
    rw [recorded?_eq hl', recorded?_eq hl, Level.record, Keyed.get?_append, Keyed.get?_cons,
      Keyed.get?_nil]
    by_cases hkey : name = key
    · subst hkey
      simp [hsite]
    · simp [hkey, Ne.symm hkey]
  · have hne : (j, key) ≠ (i, name) := by
      rintro ⟨⟩
      exact hj rfl
    rw [if_neg hne, recorded?, recorded?, List.getElem?_modify_ne _ _ hj]

theorem map_object_record (i : Nat) (name : String) :
    (levels.modify i (Level.record name r)).map Level.object = levels.map Level.object := by
  apply List.ext_getElem?
  intro j
  rw [List.getElem?_map, List.getElem?_map, List.getElem?_modify]
  cases levels[j]? with
  | none => rfl
  | some l =>
      by_cases hj : i = j
      · simp [hj, Level.record]
      · simp [hj]

theorem lt_length_of_nodeAt? (h : nodeAt? objects site = some node) :
    site.1 < objects.length := by
  obtain ⟨o, ho, -⟩ := Option.bind_eq_some_iff.mp h
  exact (List.getElem?_eq_some_iff.mp ho).1

/-- A field with a value is kept, once all that it refers to is. -/
theorem Sound.record {v : Value} (h : Sound host base objects levels (site :: active))
    (hactive : site ∉ active) (hnode : nodeAt? objects site = some node)
    (hv : search host base objects [] site = .ok v)
    (hreferences : ∀ target ∈ references objects site.1 node,
      (recorded? levels target).isSome = true) :
    Sound host base objects (levels.modify site.1 (Level.record site.2 (.ok v))) active := by
  have hsite : recorded? levels site = none := h.fresh site List.mem_cons_self
  have hlevel : site.1 < levels.length := by
    rw [h.length_eq]
    exact lt_length_of_nodeAt? hnode
  have hrecorded := fun other => recorded?_record (r := .ok v) hlevel hsite other
  constructor
  case objects_eq => rw [map_object_record, h.objects_eq]
  case value =>
    intro other r hr
    rw [hrecorded] at hr
    by_cases heq : other = site
    · rw [if_pos heq] at hr
      cases hr
      exact ⟨v, rfl, heq ▸ hv⟩
    · rw [if_neg heq] at hr
      exact h.value other r hr
  case closed =>
    intro other target hother hrefers
    rw [hrecorded] at hother ⊢
    by_cases htarget : target = site
    · rw [if_pos htarget]
      rfl
    · rw [if_neg htarget]
      by_cases heq : other = site
      · -- what the new field refers to is kept already
        obtain ⟨node', hnode', hmem⟩ := hrefers
        rw [heq, hnode] at hnode'
        cases hnode'
        exact hreferences target (heq ▸ hmem)
      · rw [if_neg heq] at hother
        exact h.closed other target hother hrefers
  case fresh =>
    intro other hmem
    have hne : other ≠ site := by
      rintro rfl
      exact hactive hmem
    rw [hrecorded, if_neg hne]
    exact h.fresh other (List.mem_cons_of_mem _ hmem)

theorem grows_record {v : Value} (hlevel : site.1 < levels.length)
    (hsite : recorded? levels site = none) :
    Grows levels (levels.modify site.1 (Level.record site.2 (.ok v))) := by
  intro other r hr
  rw [recorded?_record hlevel hsite, if_neg]
  · exact hr
  · rintro rfl
    rw [hsite] at hr
    cases hr

/-! ## Evaluating what is referred to -/

/-- What a run finds that starts from kept results: a result, and where it is a value, kept
results again, to which nothing but `P` need be added. -/
def Finds {α : Type} (host : Host Id) (base : Frame) (objects : List Object) (active : List Site)
    (x : Resolution Id α) (levels : List Level) (result : Except EvalError α)
    (P : List Level → Prop) : Prop :=
  ∃ levels', x.run.run levels = pure (result, levels') ∧
    ∀ a, result = .ok a → Sound host base objects levels' active ∧ Grows levels levels' ∧ P levels'

/-- A way to evaluate fields finds what the search finds, and keeps it. -/
def Searches (host : Host Id) (base : Frame) (objects : List Object) (active : List Site)
    (resolve : Nat → String → Resolution Id Value) : Prop :=
  ∀ levels site node, Sound host base objects levels active → nodeAt? objects site = some node →
    Finds host base objects active (resolve site.1 site.2) levels
      (search host base objects active site)
      fun levels' => recorded? levels' site = some (search host base objects active site)

section

variable {resolve : Nat → String → Resolution Id Value}

/-- The fields that some names refer to are evaluated one after the other up to the first that
fails. -/
theorem resolveAll_run (hresolve : Searches host base objects active resolve) (own : String)
    (names : List String) (h : Sound host base objects levels active) :
    Finds host base objects active (resolveAll resolve level own names) levels
      ((gather (search host base objects active) (targets objects level own names)).map fun _ => ())
      fun levels' => ∀ site ∈ targets objects level own names,
        recorded? levels' site = some (search host base objects active site) := by
  induction names generalizing levels with
  | nil =>
      refine ⟨levels, rfl, ?_⟩
      intro _ _
      exact ⟨h, .refl levels, fun _ hmem => nomatch hmem⟩
  | cons name names ih =>
      unfold Finds
      rw [resolveAll, run_bind, run_get, pure_bind]
      simp only [h.objects_eq]
      cases howner : owner? objects level own name with
      | none =>
          -- a name that refers to no field is passed over
          rw [targets_cons_none names howner]
          exact ih h
      | some i =>
          obtain ⟨node, hnode⟩ :=
            Option.isSome_iff_exists.mp (owner?_eq_some_iff.mp howner).1.2.2
          obtain ⟨levels₁, hrun, hfound⟩ := hresolve levels (i, name) node h hnode
          rw [targets_cons_some names howner, run_bind, hrun, pure_bind]
          cases hvalue : search host base objects active (i, name) with
          | error e =>
              rw [gather_cons_error hvalue]
              exact ⟨levels₁, rfl, nofun⟩
          | ok v =>
              -- what is kept of the first name is still kept when the others are evaluated
              obtain ⟨hsound, hgrows, hkept⟩ := hfound v hvalue
              obtain ⟨levels₂, hrun₂, hfound₂⟩ := ih hsound
              rw [gather_cons_ok hvalue]
              cases hrest : gather (search host base objects active)
                  (targets objects level own names) with
              | error e =>
                  rw [hrest] at hrun₂
                  exact ⟨levels₂, hrun₂, nofun⟩
              | ok bindings =>
                  rw [hrest] at hrun₂ hfound₂
                  obtain ⟨hsound₂, hgrows₂, hkept₂⟩ := hfound₂ () rfl
                  refine ⟨levels₂, hrun₂, fun _ _ => ⟨hsound₂, hgrows.trans hgrows₂, ?_⟩⟩
                  intro site hmem
                  rcases List.mem_cons.mp hmem with rfl | hmem
                  · exact hgrows₂ _ _ hkept
                  · exact hkept₂ site hmem

theorem environment_base (base : Frame) (levels : List Level) (level : Nat) (own : String) :
    (environment base levels level own).base = base := by
  unfold environment
  split <;> rfl

/-- Once all that a node refers to is kept, the node sees what the search lets it see. -/
theorem evaluateNode_of_kept {bindings : List (String × Value)}
    (h : Sound host base objects levels active) (hlevel : level < objects.length)
    (hactive : (level, node.name) ∈ active)
    (hgather : gather (search host base objects active) (references objects level node) =
      .ok bindings)
    (hkept : ∀ site ∈ references objects level node,
      recorded? levels site = some (search host base objects active site)) :
    evaluateNode host (environment base levels level node.name) node =
      evaluateNode host ⟨base, [⟨bindings⟩]⟩ node := by
  have hlevel : level < levels.length := by rwa [h.length_eq]
  refine evaluateNode_congr host (environment_base ..) ?_
  intro name hname
  have hok : ∀ i r, recorded? levels (i, name) = some r →
      (nodeAt? objects (i, name)).isSome = true ∧ ∃ v, r = .ok v := by
    intro i r hr
    obtain ⟨v, hv, -⟩ := h.value _ _ hr
    exact ⟨h.isSome_nodeAt? hr, v, hv⟩
  have hrecorded : ∀ i, owner? objects level node.name name = some i →
      recorded? levels (i, name) = some (search host base objects active (i, name)) := by
    intro i howner
    exact hkept (i, name) (mem_references.mpr ⟨hname, howner⟩)
  have hsome : ∀ i, owner? objects level node.name name = some i →
      (recorded? levels (i, name)).isSome = true := by
    intro i howner
    rw [hrecorded i howner]
    rfl
  rw [resolveLocal_bindings hgather hname,
    resolveLocal_environment hlevel (h.fresh _ hactive) hok hsome]
  cases howner : owner? objects level node.name name with
  | none => rfl
  | some i => rw [Option.bind_some, Option.map_some, hrecorded i howner]

/-- A node is evaluated as the search evaluates it. -/
theorem evaluateAt_run (hresolve : Searches host base objects active resolve)
    (h : Sound host base objects levels active) (hlevel : level < objects.length)
    (hactive : (level, node.name) ∈ active) :
    Finds host base objects active (evaluateAt host base resolve level node) levels
      (valueFrom host base objects (search host base objects active) level node)
      fun levels' => ∀ site ∈ references objects level node,
        (recorded? levels' site).isSome = true := by
  obtain ⟨levels₁, hrun, hfound⟩ := resolveAll_run hresolve node.name node.locals h
  unfold Finds
  rw [evaluateAt, run_bind, hrun, pure_bind]
  unfold valueFrom
  cases hgather : gather (search host base objects active) (references objects level node) with
  | error e =>
      rw [references] at hgather
      rw [hgather]
      refine ⟨levels₁, rfl, fun a ha => ?_⟩
      cases ha
  | ok bindings =>
      have hgather' := hgather
      rw [references] at hgather'
      rw [hgather'] at hfound ⊢
      obtain ⟨hsound, hgrows, hkept⟩ := hfound () rfl
      have henv := evaluateNode_of_kept hsound hlevel hactive hgather hkept
      refine ⟨levels₁, ?_, fun a _ => ⟨hsound, hgrows, ?_⟩⟩
      · change (get >>= _ : Resolution Id Value).run.run levels₁ = _
        rw [run_bind, run_get, pure_bind]
        change (lift (evaluateNode host _ node)).run.run levels₁ = _
        rw [henv]
        rfl
      · intro site hmem
        rw [hkept site hmem]
        rfl

end

/-! ## Fields -/

section

variable {m : Type → Type} [Monad m] [LawfulMonad m] {host : Host m}

theorem resolve_of_recorded (left : Nat) (h : recorded? levels site = some r) :
    (resolve host base left active site.1 site.2).run.run levels = pure (r, levels) := by
  obtain ⟨l, hl, hlookup⟩ := Option.bind_eq_some_iff.mp h
  rw [resolve, run_bind, run_get, pure_bind]
  simp only [hl, hlookup]
  rfl

theorem resolve_of_mem (left : Nat) (hlevel : site.1 < levels.length)
    (h : recorded? levels site = none) (hactive : site ∈ active) :
    (resolve host base left active site.1 site.2).run.run levels =
      pure (.error (.cyclicReference ("$" ++ site.2)), levels) := by
  have hl := List.getElem?_eq_getElem hlevel
  rw [recorded?_eq hl] at h
  change levels[site.1].results.lookup site.2 = none at h
  rw [resolve, run_bind, run_get, pure_bind]
  simp only [hl, h, if_pos hactive]
  rfl

/-- A field of which nothing is kept is evaluated, and the result is kept. -/
theorem resolve_of_node (left : Nat) (hobjects : levels.map Level.object = objects)
    (h : recorded? levels site = none) (hactive : site ∉ active)
    (hnode : nodeAt? objects site = some node) :
    (resolve host base (left + 1) active site.1 site.2).run.run levels =
      (evaluateAt host base (resolve host base left (site :: active)) site.1 node).run.run
        levels >>= fun out => pure (out.1, out.2.modify site.1 (Level.record site.2 out.1)) := by
  obtain ⟨o, ho, hvalue⟩ := Option.bind_eq_some_iff.mp hnode
  obtain ⟨l, hl, rfl⟩ : ∃ l, levels[site.1]? = some l ∧ l.object = o := by
    rw [← hobjects, List.getElem?_map, Option.map_eq_some_iff] at ho
    exact ho
  rw [recorded?_eq hl] at h
  change l.results.lookup site.2 = none at h
  rw [resolve, run_bind, run_get, pure_bind]
  simp only [hl, h, if_neg hactive, hvalue]
  rw [run_bind, run_attempt, bind_assoc]
  refine congrArg (_ >>= ·) (funext fun out => ?_)
  rw [pure_bind]
  dsimp only
  rw [run_bind, run_modify, pure_bind]
  rfl

end

private theorem finds_of_settled (left : Nat) (h : Sound host base objects levels active)
    (hnode : nodeAt? objects site = some node)
    (hsettled : recorded? levels site = none → site ∈ active) :
    Finds host base objects active (resolve host base left active site.1 site.2) levels
      (search host base objects active site)
      fun levels' => recorded? levels' site = some (search host base objects active site) := by
  cases hkept : recorded? levels site with
  | some r =>
      rw [h.search_eq hkept]
      exact ⟨levels, resolve_of_recorded left hkept, fun _ _ => ⟨h, .refl levels, hkept⟩⟩
  | none =>
      have hlevel : site.1 < levels.length := by
        rw [h.length_eq]
        exact lt_length_of_nodeAt? hnode
      rw [search_of_mem (hsettled hkept)]
      exact ⟨levels, resolve_of_mem left hlevel hkept (hsettled hkept), nofun⟩

/-- **Keeping results changes none of them**: a field evaluates to what the search finds. -/
theorem resolve_run (hnamed : Named objects) (left : Nat) (active : List Site)
    (hleft : ((sites objects).filter (· ∉ active)).length ≤ left) :
    Searches host base objects active (resolve host base left active) := by
  induction left generalizing active with
  | zero =>
      intro levels site node h hnode
      -- all fields are under evaluation
      apply finds_of_settled 0 h hnode
      intro _
      by_contra hactive
      have hlt := length_inactive_lt hactive (by rw [hnode]; rfl)
      omega
  | succ left ih =>
      intro levels site node h hnode
      by_cases hsettled : recorded? levels site = none → site ∈ active
      · exact finds_of_settled (left + 1) h hnode hsettled
      obtain ⟨hkept, hactive⟩ := Classical.not_imp.mp hsettled
      have hlt := length_inactive_lt hactive (by rw [hnode]; rfl)
      have hlevel := lt_length_of_nodeAt? hnode
      have hmem : (site.1, node.name) ∈ site :: active := by
        rw [hnamed site node hnode]
        exact List.mem_cons_self
      obtain ⟨levels₁, hrun, hfound⟩ :=
        evaluateAt_run (ih (site :: active) (by omega)) (h.enter hkept) hlevel hmem
      unfold Finds
      rw [resolve_of_node left h.objects_eq hkept hactive hnode, hrun, pure_bind,
        search_of_some hactive hnode]
      refine ⟨_, rfl, ?_⟩
      intro v hv
      obtain ⟨hsound, hgrows, hreferences⟩ := hfound v hv
      have hkept₁ : recorded? levels₁ site = none := hsound.fresh site List.mem_cons_self
      have hlevel₁ : site.1 < levels₁.length := by rwa [hsound.length_eq]
      have hsearch : search host base objects [] site = .ok v :=
        search_ok_of_disjoint ((search_of_some hactive hnode).trans hv) fun _ _ => List.not_mem_nil
      rw [hv]
      refine ⟨hsound.record hactive hnode hsearch hreferences,
        hgrows.trans (grows_record hlevel₁ hkept₁), ?_⟩
      exact (recorded?_record hlevel₁ hkept₁ site).trans (if_pos rfl)

/-! ## The innermost object -/

theorem length_sites (levels : List Level) :
    (sites (levels.map Level.object)).length = valueCount levels := by
  have hcount : ∀ p : Object × Nat,
      ((p.1.fields.filter fun field => field.2.isValue).map fun field => (p.2, field.1)).length =
        p.1.valueCount := fun p => by
    rw [List.length_map, Object.valueCount, List.countP_eq_length_filter]
  calc (sites (levels.map Level.object)).length
    _ = (((levels.map Level.object).zipIdx.map fun p => p.1.valueCount)).sum := by
        rw [sites, List.length_flatMap]
        exact congrArg List.sum (List.map_congr_left fun p _ => hcount p)
    _ = (((levels.map Level.object).zipIdx.map Prod.fst).map Object.valueCount).sum := by
        rw [List.map_map]
        rfl
    _ = valueCount levels := by
        rw [List.zipIdx_map_fst, List.map_map]
        rfl

private theorem length_inactive_le (h : Sound host base objects levels active) :
    ((sites objects).filter (· ∉ active)).length ≤ valueCount levels := by
  rw [← length_sites, h.objects_eq]
  exact List.length_filter_le _ _

/-- A field of the innermost object evaluates to what the search finds. -/
theorem field_run (hnamed : Named objects) (h : Sound host base objects levels [])
    (hnode : nodeAt? objects site = some node) (hinner : site.1 + 1 = levels.length) :
    Finds host base objects [] (field host base site.2) levels
      (search host base objects [] site)
      fun levels' => recorded? levels' site = some (search host base objects [] site) := by
  have hlast : levels.length - 1 = site.1 := by omega
  unfold Finds
  rw [field, run_bind, run_get, pure_bind]
  simp only [hlast]
  exact resolve_run hnamed _ [] (length_inactive_le h) levels site node h hnode

/-- **The value of a node is what the search finds** from there. -/
theorem evaluate_run (hnamed : Named objects) (h : Sound host base objects levels [])
    (hinner : level + 1 = levels.length) (hkept : recorded? levels (level, node.name) = none) :
    Finds host base objects [] (evaluate host base node) levels
      (valueFrom host base objects (search host base objects [(level, node.name)]) level node)
      fun _ => True := by
  have hsound := h.enter hkept
  have hlevel : level < objects.length := by
    rw [← h.length_eq]
    omega
  obtain ⟨levels₁, hrun, hfound⟩ :=
    evaluateAt_run (resolve_run hnamed _ _ (length_inactive_le hsound)) hsound hlevel
      List.mem_cons_self
  have hlast : levels.length - 1 = level := by omega
  unfold Finds
  rw [evaluate, run_bind, run_get, pure_bind]
  simp only [hlast]
  refine ⟨levels₁, hrun, ?_⟩
  intro v hv
  obtain ⟨hsound₁, hgrows, -⟩ := hfound v hv
  exact ⟨hsound₁.idle, hgrows, trivial⟩

end Resolution

end ConfigLang
