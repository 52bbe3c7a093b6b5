import Mathlib
import ConfigLang.Proofs.Document.Schedule
import ConfigLang.Proofs.Document.Inner

/-!
# What the resolver evaluates

In a chain of objects there is a schedule for every field (`exists_schedule_resolve`):
its jobs are the evaluations of the fields that the references lead to, each after
those that it refers to, and none twice.  It ends in an error where a reference comes
back to a field under evaluation, and then that field is on a cycle.

Two invariants carry the induction.  No field under evaluation has a value yet, and
each of them leads to the field that is evaluated next (`Ready`).

## Strategy

* **Levels.**  The resolver keeps a list of values for each object of the chain.  The
  values so far are one list here, told apart by their spots, from which `levels` makes
  those lists: `levels_record` keeps a value there and `recorded?_levels` finds it.
* **What a node sees.**  Once all that a node refers to has a value, its evaluation
  depends on these values only (`evaluateNode_levels`), so it is a job that reads their
  spots and no others.
* **Schedules in order.**  `Performs` says that a computation does what a schedule does,
  and `Suits` that the schedule is in order and does not touch the fields under
  evaluation.  Computations one after the other perform schedules that are joined
  (`Performs.bind`, `Suits.andThen`), and a field comes after all that it refers to
  (`Suits.job`).
* **The recursion.**  A reference leads to a field that has a value, to one that is under
  evaluation, or to one that is evaluated now (`Performs.of_known`, `Performs.of_active`,
  `Performs.of_node`).  In the last case one field more goes under evaluation, and the
  invariants hold again (`Ready.enter`).  The fields that are not under evaluation bound
  the depth of the recursion, as they do in the resolver.
-/

namespace ConfigLang

open Relation Resolution Running

/-! ## Chains of objects -/

/-- Objects inside one another, from the outermost in, each with its seat. -/
abbrev Chain := List (Seat × Object)

namespace Chain

/-- The seats of the objects of a chain. -/
def seats (chain : Chain) : List Seat :=
  chain.map Prod.fst

/-- The objects of a chain. -/
def objects (chain : Chain) : List Object :=
  chain.map Prod.snd

/-- The spot of a field. -/
def spot (chain : Chain) (site : Site) : Spot :=
  ⟨chain.seats.getD site.1 (.around site.1), site.2, none⟩

/-- What the names in a node stand for. -/
def reads (chain : Chain) (level : Nat) (node : Node) : List (String × Spot) :=
  (references chain.objects level node).map fun site => (site.2, chain.spot site)

/-- The levels that the values so far make. -/
def levels (chain : Chain) (kept : Kept) : List Level :=
  chain.map fun entry => ⟨entry.2, kept.resultsOf entry.1⟩

/-- The evaluation of a field. -/
def job (chain : Chain) (path : List String) (site : Site) (node : Node) : Job :=
  ⟨chain.spot site, node, chain.reads site.1 node, path⟩

variable {chain : Chain} {kept : Kept} {site : Site}

theorem length_objects (chain : Chain) : chain.objects.length = chain.length :=
  List.length_map _

theorem length_levels (chain : Chain) (kept : Kept) : (chain.levels kept).length = chain.length :=
  List.length_map _

theorem map_object_levels (chain : Chain) (kept : Kept) :
    (chain.levels kept).map Level.object = chain.objects := by
  unfold levels objects
  rw [List.map_map]
  rfl

theorem spot_eq {i : Nat} {entry : Seat × Object} (h : chain[i]? = some entry) (name : String) :
    chain.spot (i, name) = ⟨entry.1, name, none⟩ := by
  unfold spot seats
  rw [List.getD_eq_getElem?_getD, List.getElem?_map, h]
  rfl

theorem objects_append (chain inner : Chain) :
    Chain.objects (chain ++ inner) = chain.objects ++ inner.objects :=
  List.map_append

theorem spot_append {inner : Chain} (hlevel : site.1 < chain.length) :
    Chain.spot (chain ++ inner) site = chain.spot site := by
  unfold spot seats
  rw [List.map_append, List.getD_append _ _ _ _ (by rwa [List.length_map])]

theorem seat_inj (hseats : chain.seats.Nodup) {i j : Nat} {a b : Seat × Object}
    (hi : chain[i]? = some a) (hj : chain[j]? = some b) (h : a.1 = b.1) : i = j := by
  have hlt : i < chain.seats.length := by
    rw [seats, List.length_map]
    exact (List.getElem?_eq_some_iff.mp hi).1
  refine (List.getElem?_inj hlt hseats).mp ?_
  rw [seats, List.getElem?_map, List.getElem?_map, hi, hj]
  exact congrArg some h

theorem spot_inj (hseats : chain.seats.Nodup) {target : Site}
    (hsite : site.1 < chain.length) (htarget : target.1 < chain.length)
    (h : chain.spot site = chain.spot target) : site = target := by
  obtain ⟨i, name⟩ := site
  obtain ⟨j, key⟩ := target
  have hi := List.getElem?_eq_getElem hsite
  have hj := List.getElem?_eq_getElem htarget
  rw [spot_eq hi, spot_eq hj] at h
  obtain ⟨hseat, hname, -⟩ := Spot.mk.inj h
  exact Prod.ext (seat_inj hseats hi hj hseat) hname

theorem lt_length {node : Node} (h : nodeAt? chain.objects site = some node) :
    site.1 < chain.length := by
  rw [← chain.length_objects]
  exact lt_length_of_nodeAt? h

/-! ## The levels of a chain -/

theorem recorded?_levels (kept : Kept) (hlevel : site.1 < chain.length) :
    recorded? (chain.levels kept) site = (kept.value? (chain.spot site)).map .ok := by
  obtain ⟨i, name⟩ := site
  have hentry := List.getElem?_eq_getElem hlevel
  rw [spot_eq hentry, recorded?, levels, List.getElem?_map, hentry]
  exact kept.lookup_resultsOf _ name

theorem recorded?_levels_none (hlevel : site.1 < chain.length) (h : chain.spot site ∉ kept.spots) :
    recorded? (chain.levels kept) site = none := by
  rw [recorded?_levels kept hlevel, Kept.value?_eq_none h]
  rfl

/-- The value of a field is kept at its level. -/
theorem levels_record (hseats : chain.seats.Nodup) (hlevel : site.1 < chain.length) (v : Value) :
    (chain.levels kept).modify site.1 (Level.record site.2 (.ok v)) =
      chain.levels (kept ++ [(chain.spot site, v)]) := by
  obtain ⟨i, name⟩ := site
  have hentry := List.getElem?_eq_getElem hlevel
  apply List.ext_getElem?
  intro j
  rw [List.getElem?_modify, levels, levels, List.getElem?_map, List.getElem?_map, spot_eq hentry]
  cases hj : chain[j]? with
  | none => rfl
  | some entry =>
      simp only [Option.map_some, Kept.resultsOf_append, and_true]
      by_cases hij : i = j
      · subst hij
        obtain rfl : chain[i] = entry := Option.some.inj (hentry.symm.trans hj)
        simp [Level.record]
      · have hseat : chain[i].1 ≠ entry.1 := fun h => hij (seat_inj hseats hentry hj h)
        simp [hij, hseat]

/-- The value of an item is not kept at any level. -/
theorem levels_item {spot : Spot} (h : spot.item ≠ none) (v : Value) :
    chain.levels (kept ++ [(spot, v)]) = chain.levels kept := by
  unfold levels
  simp [Kept.resultsOf_append, h]

theorem levels_concat {seat : Seat} (o : Object)
    (h : ∀ name, (⟨seat, name, none⟩ : Spot) ∉ kept.spots) :
    Chain.levels (chain ++ [(seat, o)]) kept = chain.levels kept ++ [Level.ofObject o] := by
  unfold levels
  rw [List.map_append, List.map_singleton, Kept.resultsOf_eq_nil h]
  rfl

theorem dropLast_levels (kept : Kept) (entry : Seat × Object) :
    (Chain.levels (chain ++ [entry]) kept).dropLast = chain.levels kept := by
  unfold levels
  rw [List.map_append, List.map_singleton, List.dropLast_concat]

/-! ## What has been evaluated -/

/-- Every field that has been evaluated has a value of its own, and items have been evaluated of
other fields only. -/
structure Knows (chain : Chain) (known : List Spot) : Prop where
  field : ∀ site : Site, site.1 < chain.length → chain.spot site ∈ known →
    (nodeAt? chain.objects site).isSome = true
  item : ∀ (site : Site) (i : Nat), site.1 < chain.length →
    { chain.spot site with item := some i } ∈ known → nodeAt? chain.objects site = none

variable {base : Frame} {level : Nat} {node : Node} {known : List Spot}

theorem knows_nil (chain : Chain) : chain.Knows [] :=
  ⟨fun _ _ hmem => absurd hmem List.not_mem_nil, fun _ _ _ hmem => absurd hmem List.not_mem_nil⟩

/-- Items of a field without a value of its own may be evaluated. -/
theorem Knows.append_item {spot : Spot} (h : chain.Knows known) (hseats : chain.seats.Nodup)
    (hlevel : site.1 < chain.length) (hnode : nodeAt? chain.objects site = none)
    (hfield : chain.spot site = { spot with item := none }) (hitem : spot.item ≠ none) :
    chain.Knows (known ++ [spot]) := by
  constructor
  · intro other hother hmem
    rcases List.mem_append.mp hmem with hmem | hmem
    · exact h.field other hother hmem
    · exact absurd (congrArg Spot.item (List.mem_singleton.mp hmem)).symm hitem
  · intro other i hother hmem
    rcases List.mem_append.mp hmem with hmem | hmem
    · exact h.item other i hother hmem
    · have heq : chain.spot other = chain.spot site := by
        rw [hfield, ← List.mem_singleton.mp hmem]
        rfl
      rw [spot_inj hseats hother hlevel heq]
      exact hnode

/-- What is kept of a field. -/
def worth (chain : Chain) (kept : Kept) (site : Site) : Except EvalError Value :=
  ((kept.value? (chain.spot site)).map .ok).getD (.error (.undefinedVariable ("$" ++ site.2)))

theorem gather_worth {sites : List Site} (h : ∀ site ∈ sites, chain.spot site ∈ kept.spots) :
    gather (chain.worth kept) sites =
      .ok (kept.bindings (sites.map fun site => (site.2, chain.spot site))) := by
  induction sites with
  | nil => rfl
  | cons site sites ih =>
      obtain ⟨v, hv⟩ := Kept.exists_value? (h site List.mem_cons_self)
      have hworth : chain.worth kept site = .ok v := by
        rw [worth, hv]
        rfl
      rw [gather_cons_ok hworth, ih fun other hother => h other (List.mem_cons_of_mem _ hother)]
      simp [Kept.bindings, hv, Except.map]

/-- Once all that a node refers to has a value, the node sees nothing but these values. -/
theorem evaluateNode_levels {m : Type → Type} [Monad m] [LawfulMonad m] (host : Host m)
    (hknows : chain.Knows kept.spots) (hlevel : level < chain.length)
    (hown : chain.spot (level, node.name) ∉ kept.spots)
    (hreads : ∀ site ∈ references chain.objects level node, chain.spot site ∈ kept.spots) :
    evaluateNode host (environment base (chain.levels kept) level node.name) node =
      evaluateNode host ⟨base, [⟨kept.bindings (chain.reads level node)⟩]⟩ node := by
  have hlevel' : level < (chain.levels kept).length := by rwa [length_levels]
  refine evaluateNode_congr host (environment_base ..) fun name hname => ?_
  have hok : ∀ i r, recorded? (chain.levels kept) (i, name) = some r →
      (nodeAt? chain.objects (i, name)).isSome = true ∧ ∃ v, r = .ok v := by
    intro i r hr
    have hi : i < chain.length := by
      rw [← chain.length_levels kept]
      exact level_lt_of_recorded hr
    rw [recorded?_levels kept hi] at hr
    obtain ⟨v, hv, rfl⟩ := Option.map_eq_some_iff.mp hr
    refine ⟨hknows.field _ hi (Kept.value?_isSome.mp ?_), v, rfl⟩
    rw [hv]
    rfl
  have howner : ∀ i, owner? chain.objects level node.name name = some i →
      ∃ v, kept.value? (chain.spot (i, name)) = some v ∧
        recorded? (chain.levels kept) (i, name) = some (.ok v) := by
    intro i howner
    obtain ⟨v, hv⟩ := Kept.exists_value? (hreads (i, name) (mem_references.mpr ⟨hname, howner⟩))
    refine ⟨v, hv, ?_⟩
    rw [recorded?_levels kept (Nat.lt_of_le_of_lt (owner?_eq_some_iff.mp howner).1.1 hlevel), hv]
    rfl
  have hsome : ∀ i, owner? chain.objects level node.name name = some i →
      (recorded? (chain.levels kept) (i, name)).isSome = true := by
    intro i h
    obtain ⟨v, -, hv⟩ := howner i h
    rw [hv]
    rfl
  rw [reads, resolveLocal_bindings (gather_worth hreads) hname,
    resolveLocal_environment hlevel' (recorded?_levels_none hlevel hown) hok hsome]
  cases h : owner? chain.objects level node.name name with
  | none => rfl
  | some i =>
      obtain ⟨v, hv, hrecorded⟩ := howner i h
      rw [Option.bind_some, Option.map_some, hrecorded, worth, hv]
      rfl

end Chain

/-! ## Schedules in order -/

/-- Two spots that have an option in common. -/
def Spot.Overlaps (a b : Spot) : Prop :=
  a.seat = b.seat ∧ a.name = b.name ∧ (a.item = none ∨ b.item = none ∨ a.item = b.item)

/-- Each job comes after what it reads, and has no option in common with those before. -/
def Ordered (known : List Spot) : List Job → Prop
  | [] => True
  | job :: jobs =>
    ((∀ spot ∈ known, ¬ spot.Overlaps job.spot) ∧ ∀ read ∈ job.reads, read.2 ∈ known) ∧
      Ordered (known ++ [job.spot]) jobs

theorem ordered_append {known : List Spot} {jobs others : List Job} :
    Ordered known (jobs ++ others) ↔
      Ordered known jobs ∧ Ordered (known ++ jobs.map Job.spot) others := by
  induction jobs generalizing known with
  | nil => simp [Ordered]
  | cons job jobs ih => simp [Ordered, ih, and_assoc]

namespace Schedule

/-- A schedule does in any world what a computation does, which starts from the values of some
spots: the result depends on the values that there are in the end. -/
def Performs (s : Schedule) (base : Frame) (chain : Chain) (known : List Spot) {α : Type}
    (x : ∀ (m : Type → Type) [Monad m], Host m → Projection m α) (result : Kept → α) : Prop :=
  ∀ (m : Type → Type) [Monad m] [LawfulMonad m] (host : Host m) (kept : Kept), kept.spots = known →
    commit (x m host) (chain.levels kept) = do
      let kept ← s.run host base kept
      return (result kept, chain.levels kept)

/-- A schedule for some fields in a chain, while others are being evaluated.  An error in the end
names a field on a cycle. -/
structure Suits (s : Schedule) (chain : Chain) (path : List String) (known : List Spot)
    (active targets : List Site) : Prop where
  genuine : ∀ job ∈ s.jobs, ∃ site node, nodeAt? chain.objects site = some node ∧
    job = chain.job path site node
  ordered : Ordered known s.jobs
  idle : ∀ site ∈ active, chain.spot site ∉ s.spots
  done : s.ending = none → ∀ site ∈ targets, chain.spot site ∈ known ++ s.spots
  cyclic : ∀ e, s.ending = some e → ∃ site ∈ targets, ∃ target : Site,
    e = .eval path (.cyclicReference ("$" ++ target.2)) ∧
      ReflTransGen (Refers chain.objects) site target ∧
        TransGen (Refers chain.objects) target target

variable {s t : Schedule} {base : Frame} {chain : Chain} {known : List Spot} {path : List String}
  {active targets : List Site} {α β : Type}

theorem ordered_andThen (h : Ordered known s.jobs)
    (ht : s.ending = none → Ordered (known ++ s.spots) t.jobs) :
    Ordered known (s.andThen t).jobs := by
  cases hending : s.ending with
  | none =>
      rw [andThen_of_none hending]
      exact ordered_append.mpr ⟨h, ht hending⟩
  | some e =>
      rw [andThen_of_some hending]
      exact h

theorem commit_lift {m : Type → Type} [Monad m] [LawfulMonad m] (x : ExceptT EvalError m α)
    (levels : List Level) :
    commit (Resolution.lift x) levels = x >>= fun a => pure (a, levels) := by
  apply ExceptT.ext
  unfold commit
  rw [ExceptT.run_mk, ExceptT.run_bind]
  change (x.run >>= fun r => pure (r, levels)) >>= _ = _
  rw [bind_assoc]
  refine congrArg (_ >>= ·) (funext fun r => ?_)
  rw [pure_bind]
  cases r <;> rfl

namespace Performs

variable {x : ∀ (m : Type → Type) [Monad m], Host m → Projection m α} {result : Kept → α}

theorem of_pure (a : α) : done.Performs base chain known (fun _ _ _ => pure a) fun _ => a := by
  intro m _ _ host kept _
  rw [commit_pure, run_done, pure_bind]

/-- One computation after the other. What the first one gives is as good when the second one is
done. -/
theorem bind {f : α → ∀ (m : Type → Type) [Monad m], Host m → Projection m β} {g : α → Kept → β}
    (hx : s.Performs base chain known x result)
    (hstays : s.ending = none → ∀ kept more : Kept, kept.spots = known ++ s.spots →
      result (kept ++ more) = result kept)
    (hf : s.ending = none → ∀ a, t.Performs base chain (known ++ s.spots) (f a) (g a)) :
    (s.andThen t).Performs base chain known (fun m _ host => x m host >>= fun a => f a m host)
      fun kept => g (result kept) kept := by
  intro m _ _ host kept hkept
  rw [commit_bind, hx m host kept hkept, run_andThen, bind_assoc, bind_assoc]
  cases hending : s.ending with
  | some e => exact run_bind_of_some hending _ _
  | none =>
      refine s.ensures_spots.bind_congr fun kept' hkept' => ?_
      rw [hkept] at hkept'
      rw [pure_bind, hf hending _ m host kept' hkept']
      refine t.ensures_run.bind_congr fun kept'' hkept'' => ?_
      obtain ⟨more, rfl, -⟩ := hkept''
      dsimp only
      rw [hstays hending kept' more hkept']

theorem map {f : α → β} (hx : s.Performs base chain known x result) :
    s.Performs base chain known (fun m _ host => x m host >>= fun a => pure (f a))
      fun kept => f (result kept) := by
  intro m _ _ host kept hkept
  rw [commit_bind, hx m host kept hkept, bind_assoc]
  refine congrArg (_ >>= ·) (funext fun kept' => ?_)
  rw [pure_bind, commit_pure]

end Performs

/-! ## Schedules for some fields -/

/-- The fields under evaluation have no values yet, and lead to those that are evaluated next. -/
structure Ready (chain : Chain) (known : List Spot) (active targets : List Site) : Prop where
  knows : chain.Knows known
  inside : ∀ site ∈ active, site.1 < chain.length
  fresh : ∀ site ∈ active, chain.spot site ∉ known
  leads : ∀ site ∈ active, (nodeAt? chain.objects site).isSome = true →
    ∀ target ∈ targets, TransGen (Refers chain.objects) site target

namespace Ready

theorem head {site : Site} {rest : List Site} (h : Ready chain known active (site :: rest)) :
    Ready chain known active [site] where
  knows := h.knows
  inside := h.inside
  fresh := h.fresh
  leads other hactive hnode target hmem :=
    h.leads other hactive hnode target (List.mem_singleton.mp hmem ▸ List.mem_cons_self)

theorem tail {site : Site} {rest : List Site} (h : Ready chain known active (site :: rest)) :
    Ready chain known active rest where
  knows := h.knows
  inside := h.inside
  fresh := h.fresh
  leads other hactive hnode target hmem :=
    h.leads other hactive hnode target (List.mem_cons_of_mem _ hmem)

/-- A field goes under evaluation. One more reference leads from the others to what it refers to. -/
theorem enter {site : Site} {node : Node} (h : Ready chain known active [site])
    (hnode : nodeAt? chain.objects site = some node) (hnew : chain.spot site ∉ known) :
    Ready chain known (site :: active) (references chain.objects site.1 node) where
  knows := h.knows
  inside := List.forall_mem_cons.mpr ⟨Chain.lt_length hnode, h.inside⟩
  fresh := List.forall_mem_cons.mpr ⟨hnew, h.fresh⟩
  leads := by
    refine List.forall_mem_cons.mpr ⟨fun _ target htarget => .single ⟨node, hnode, htarget⟩, ?_⟩
    intro other hother hsome target htarget
    exact .tail (h.leads other hother hsome site (List.mem_singleton_self site))
      ⟨node, hnode, htarget⟩

end Ready

namespace Suits

/-- What a schedule evaluates are fields. -/
theorem knows (h : s.Suits chain path known active targets) (hseats : chain.seats.Nodup)
    (hknows : chain.Knows known) : chain.Knows (known ++ s.spots) := by
  have hspot : ∀ spot ∈ s.spots, ∃ site node, nodeAt? chain.objects site = some node ∧
      spot = chain.spot site := by
    intro spot hmem
    obtain ⟨job, hjob, rfl⟩ := List.mem_map.mp hmem
    obtain ⟨site, node, hnode, rfl⟩ := h.genuine job hjob
    exact ⟨site, node, hnode, rfl⟩
  constructor
  · intro site hlevel hmem
    rcases List.mem_append.mp hmem with hmem | hmem
    · exact hknows.field site hlevel hmem
    · obtain ⟨target, node, hnode, heq⟩ := hspot _ hmem
      rw [Chain.spot_inj hseats hlevel (Chain.lt_length hnode) heq, hnode]
      rfl
  · intro site i hlevel hmem
    rcases List.mem_append.mp hmem with hmem | hmem
    · exact hknows.item site i hlevel hmem
    · obtain ⟨target, node, hnode, heq⟩ := hspot _ hmem
      cases congrArg Spot.item heq

theorem ready {rest : List Site} (h : s.Suits chain path known active targets)
    (hseats : chain.seats.Nodup) (hready : Ready chain known active rest) :
    Ready chain (known ++ s.spots) active rest where
  knows := h.knows hseats hready.knows
  inside := hready.inside
  fresh site hactive hmem := by
    rcases List.mem_append.mp hmem with hmem | hmem
    · exact hready.fresh site hactive hmem
    · exact h.idle site hactive hmem
  leads := hready.leads

theorem done_of_known (h : ∀ site ∈ targets, chain.spot site ∈ known) :
    Schedule.done.Suits chain path known active targets where
  genuine := nofun
  ordered := trivial
  idle := fun _ _ => List.not_mem_nil
  done := fun _ site hmem => List.mem_append_left _ (h site hmem)
  cyclic := nofun

theorem stop_of_cycle {site : Site} (h : TransGen (Refers chain.objects) site site) :
    (stop (.eval path (.cyclicReference ("$" ++ site.2)))).Suits chain path known active [site]
    where
  genuine := nofun
  ordered := trivial
  idle := fun _ _ => List.not_mem_nil
  done := nofun
  cyclic := by
    rintro e ⟨⟩
    exact ⟨site, List.mem_singleton_self site, site, rfl, .refl, h⟩

theorem andThen {site : Site} (h : s.Suits chain path known active [site])
    (ht : s.ending = none → t.Suits chain path (known ++ s.spots) active targets) :
    (s.andThen t).Suits chain path known active (site :: targets) := by
  constructor
  case genuine =>
    intro job hmem
    rcases mem_jobs_andThen.mp hmem with hmem | ⟨hending, hmem⟩
    · exact h.genuine job hmem
    · exact (ht hending).genuine job hmem
  case ordered => exact ordered_andThen h.ordered fun hending => (ht hending).ordered
  case idle =>
    intro other hactive hmem
    rcases mem_spots_andThen.mp hmem with hmem | ⟨hending, hmem⟩
    · exact h.idle other hactive hmem
    · exact (ht hending).idle other hactive hmem
  case done =>
    intro hnone other hmem
    obtain ⟨hending, hnone⟩ := Option.or_eq_none_iff.mp (ending_andThen s t ▸ hnone)
    rw [spots_andThen hending, ← List.append_assoc]
    rcases List.mem_cons.mp hmem with rfl | hmem
    · exact List.mem_append_left _ (h.done hending _ (List.mem_singleton_self _))
    · exact (ht hending).done hnone other hmem
  case cyclic =>
    intro e he
    rcases Option.or_eq_some_iff.mp (ending_andThen s t ▸ he) with he | ⟨hending, he⟩
    · obtain ⟨first, hfirst, hcycle⟩ := h.cyclic e he
      rw [List.mem_singleton.mp hfirst] at hcycle
      exact ⟨site, List.mem_cons_self, hcycle⟩
    · obtain ⟨first, hfirst, hcycle⟩ := (ht hending).cyclic e he
      exact ⟨first, List.mem_cons_of_mem _ hfirst, hcycle⟩

end Suits

/-- A computation does what a schedule does, and evaluates a node with the values that there are
then. -/
def Prepares (s : Schedule) (base : Frame) (chain : Chain) (path : List String)
    (known : List Spot) (level : Nat) (node : Node)
    (x : ∀ (m : Type → Type) [Monad m], Host m → Resolution m Value) : Prop :=
  ∀ (m : Type → Type) [Monad m] [LawfulMonad m] (host : Host m) (kept : Kept), kept.spots = known →
    commit ((x m host).adapt (.eval path)) (chain.levels kept) = do
      let kept ← s.run host base kept
      let v ← (evaluateNode host ⟨base, [⟨kept.bindings (chain.reads level node)⟩]⟩ node).adapt
        (.eval path)
      return (v, chain.levels kept)

/-- There is a schedule for every field that a way to evaluate fields comes to. -/
def Schedules (base : Frame) (chain : Chain) (path : List String) (active : List Site)
    (resolve : ∀ (m : Type → Type) [Monad m], Host m → Nat → String → Resolution m Value) : Prop :=
  ∀ known site, Ready chain known active [site] → (nodeAt? chain.objects site).isSome = true →
    ∃ s : Schedule, s.Suits chain path known active [site] ∧
      s.Performs base chain known
        (fun m _ host => (resolve m host site.1 site.2).adapt (.eval path))
        fun kept => kept.worth (chain.spot site)

section

variable {resolve : ∀ (m : Type → Type) [Monad m], Host m → Nat → String → Resolution m Value}

private theorem commit_resolveAll_none {m : Type → Type} [Monad m] [LawfulMonad m] {kept : Kept}
    {r : Nat → String → Resolution m Value} {level : Nat} {own name : String} (names : List String)
    (h : owner? chain.objects level own name = none) :
    commit (resolveAll r level own (name :: names)) (chain.levels kept) =
      commit (resolveAll r level own names) (chain.levels kept) := by
  rw [resolveAll, commit_bind, commit_get, pure_bind]
  dsimp only
  rw [chain.map_object_levels, h]

private theorem commit_resolveAll_some {m : Type → Type} [Monad m] [LawfulMonad m] {kept : Kept}
    {r : Nat → String → Resolution m Value} {level i : Nat} {own name : String}
    (names : List String) (h : owner? chain.objects level own name = some i) :
    commit (resolveAll r level own (name :: names)) (chain.levels kept) =
      commit (r i name >>= fun _ => resolveAll r level own names) (chain.levels kept) := by
  rw [resolveAll, commit_bind, commit_get, pure_bind]
  dsimp only
  rw [chain.map_object_levels, h]

/-- The fields that some names refer to are evaluated one after the other. -/
theorem exists_schedule_resolveAll (hseats : chain.seats.Nodup)
    (hresolve : Schedules base chain path active resolve) (level : Nat) (own : String)
    (names : List String)
    (hready : Ready chain known active (ConfigLang.targets chain.objects level own names)) :
    ∃ s : Schedule,
      s.Suits chain path known active (ConfigLang.targets chain.objects level own names) ∧
        s.Performs base chain known
          (fun m _ host => (resolveAll (resolve m host) level own names).adapt (.eval path))
          fun _ => () := by
  induction names generalizing known with
  | nil =>
      refine ⟨Schedule.done, .done_of_known (fun _ hmem => nomatch hmem), ?_⟩
      intro m _ _ host kept hkept
      simp only [resolveAll, adapt_pure]
      exact Performs.of_pure () m host kept hkept
  | cons name names ih =>
      cases howner : owner? chain.objects level own name with
      | none =>
          rw [targets_cons_none names howner] at hready ⊢
          obtain ⟨s, hsuits, hperforms⟩ := ih hready
          refine ⟨s, hsuits, fun m _ _ host kept hkept => ?_⟩
          rw [← hperforms m host kept hkept, commit_adapt, commit_adapt,
            commit_resolveAll_none names howner]
      | some i =>
          rw [targets_cons_some names howner] at hready ⊢
          have hsome := (owner?_eq_some_iff.mp howner).1.2.2
          obtain ⟨s, hsuits, hperforms⟩ := hresolve known (i, name) hready.head hsome
          -- the others are evaluated with what is known then
          obtain ⟨t, htsuits, htperforms⟩ := ih (hsuits.ready hseats hready.tail)
          refine ⟨s.andThen t, hsuits.andThen fun _ => htsuits, fun m _ _ host kept hkept => ?_⟩
          have hstays : s.ending = none → ∀ kept more : Kept, kept.spots = known ++ s.spots →
              Kept.worth (kept ++ more) (chain.spot (i, name)) =
                kept.worth (chain.spot (i, name)) := by
            intro hending kept more hkept
            refine Kept.worth_append ?_ more
            rw [hkept]
            exact hsuits.done hending _ (List.mem_singleton_self _)
          rw [commit_adapt, commit_resolveAll_some names howner, ← commit_adapt, adapt_bind]
          exact hperforms.bind hstays (fun _ _ => htperforms) m host kept hkept

/-- A node is evaluated after what it refers to, with the values of that. -/
theorem exists_schedule_evaluateAt (hseats : chain.seats.Nodup)
    (hresolve : Schedules base chain path active resolve) {level : Nat} {node : Node}
    (hactive : (level, node.name) ∈ active)
    (hready : Ready chain known active (references chain.objects level node)) :
    ∃ s : Schedule, s.Suits chain path known active (references chain.objects level node) ∧
      s.Prepares base chain path known level node
        fun m _ host => evaluateAt host base (resolve m host) level node := by
  obtain ⟨s, hsuits, hperforms⟩ :=
    exists_schedule_resolveAll hseats hresolve level node.name node.locals hready
  refine ⟨s, hsuits, fun m _ _ host kept hkept => ?_⟩
  dsimp only
  rw [evaluateAt, adapt_bind, commit_bind, hperforms m host kept hkept, bind_assoc]
  cases hending : s.ending with
  | some e => exact run_bind_of_some hending _ _
  | none =>
      refine s.ensures_spots.bind_congr fun kept' hkept' => ?_
      rw [hkept] at hkept'
      have hknows := hsuits.knows hseats hready.knows
      have hfresh := (hsuits.ready hseats hready).fresh _ hactive
      rw [← hkept'] at hknows hfresh
      rw [pure_bind, commit_adapt, commit_bind, commit_get, pure_bind, commit_lift,
        Chain.evaluateNode_levels host hknows (hready.inside _ hactive) hfresh fun site hmem => by
          rw [hkept']
          exact hsuits.done hending site hmem,
        adapt_bind]
      simp only [adapt_pure]

/-- What is done with the value of the last job of a schedule. -/
theorem run_andThen_single (job : Job) {m : Type → Type} [Monad m] [LawfulMonad m] {host : Host m}
    {kept : Kept} (hnew : s.ending = none → job.spot ∉ kept.spots ++ s.spots)
    (f : Value → Kept → ExceptT QueryError m α) :
    ((s.andThen (single job)).run host base kept >>= fun kept => f (kept.worth job.spot) kept) =
      s.run host base kept >>= fun kept =>
        (evaluateNode host ⟨base, [⟨kept.bindings job.reads⟩]⟩ job.node).adapt (.eval job.path) >>=
          fun v => f v (kept ++ [(job.spot, v)]) := by
  rw [run_andThen, bind_assoc]
  cases hending : s.ending with
  | some e => exact run_bind_of_some hending _ _
  | none =>
      refine s.ensures_spots.bind_congr fun kept' hkept' => ?_
      have hspot : job.spot ∉ kept'.spots := by
        rw [hkept']
        exact hnew hending
      rw [run_single, Job.run, bind_assoc]
      refine congrArg (_ >>= ·) (funext fun v => ?_)
      rw [pure_bind, Kept.worth_new hspot]

/-- A field is evaluated after all that it refers to. -/
theorem Suits.job {site : Site} {node : Node} (hseats : chain.seats.Nodup)
    (hready : Ready chain known active [site]) (hnode : nodeAt? chain.objects site = some node)
    (hactive : site ∉ active) (hnew : chain.spot site ∉ known)
    (h : s.Suits chain path known (site :: active) (references chain.objects site.1 node)) :
    (s.andThen (Schedule.single (chain.job path site node))).Suits chain path known active
      [site] := by
  have hlevel := Chain.lt_length hnode
  have hknows := h.knows hseats hready.knows
  have hfresh : chain.spot site ∉ known ++ s.spots := fun hmem =>
    (List.mem_append.mp hmem).elim hnew (h.idle site List.mem_cons_self)
  constructor
  case genuine =>
    intro job hmem
    rcases mem_jobs_andThen.mp hmem with hmem | ⟨-, hmem⟩
    · exact h.genuine job hmem
    · exact ⟨site, node, hnode, List.mem_singleton.mp hmem⟩
  case ordered =>
    refine ordered_andThen h.ordered fun hending => ⟨⟨?_, ?_⟩, trivial⟩
    · rintro ⟨seat, name, item⟩ hmem ⟨rfl, rfl, -⟩
      cases item with
      | none => exact hfresh hmem
      | some i =>
          have hnone := hknows.item site i hlevel hmem
          rw [hnode] at hnone
          cases hnone
    · intro read hmem
      obtain ⟨target, htarget, rfl⟩ := List.mem_map.mp hmem
      exact h.done hending target htarget
  case idle =>
    intro other hmem hspot
    rcases mem_spots_andThen.mp hspot with hspot | ⟨-, hspot⟩
    · exact h.idle other (List.mem_cons_of_mem _ hmem) hspot
    · have heq := Chain.spot_inj hseats (hready.inside other hmem) hlevel
        (List.mem_singleton.mp hspot)
      exact hactive (heq ▸ hmem)
  case done =>
    intro hnone other hmem
    obtain ⟨hending, -⟩ := Option.or_eq_none_iff.mp (ending_andThen s _ ▸ hnone)
    rw [List.mem_singleton.mp hmem]
    exact List.mem_append_right _
      (mem_spots_andThen.mpr (.inr ⟨hending, List.mem_singleton_self _⟩))
  case cyclic =>
    intro e he
    rcases Option.or_eq_some_iff.mp (ending_andThen s _ ▸ he) with he | ⟨-, he⟩
    · obtain ⟨first, hfirst, target, rfl, hreach, hcycle⟩ := h.cyclic e he
      exact ⟨site, List.mem_singleton_self site, target, rfl,
        .head ⟨node, hnode, hfirst⟩ hreach, hcycle⟩
    · cases he

end

/-! ## Fields -/

/-- A field that has a value is not evaluated again. -/
theorem Performs.of_known {left : Nat} {site : Site} (hlevel : site.1 < chain.length)
    (h : chain.spot site ∈ known) :
    done.Performs base chain known
      (fun m _ host => (resolve (m := m) host base left active site.1 site.2).adapt (.eval path))
      fun kept => kept.worth (chain.spot site) := by
  intro m _ _ host kept hkept
  rw [← hkept] at h
  obtain ⟨v, hv⟩ := Kept.exists_value? h
  have hrecorded : recorded? (chain.levels kept) site = some (.ok v) := by
    rw [Chain.recorded?_levels kept hlevel, hv]
    rfl
  have hworth : kept.worth (chain.spot site) = v := by
    rw [Kept.worth, hv]
    rfl
  rw [commit_adapt, commit_of_run (resolve_of_recorded left hrecorded), run_done, pure_bind]
  dsimp only
  rw [hworth]
  exact adapt_pure _ _

/-- A reference that comes back to a field under evaluation is an error. -/
theorem Performs.of_active {left : Nat} {site : Site} (hlevel : site.1 < chain.length)
    (hnew : chain.spot site ∉ known) (h : site ∈ active) {result : Kept → Value} :
    (stop (.eval path (.cyclicReference ("$" ++ site.2)))).Performs base chain known
      (fun m _ host => (resolve (m := m) host base left active site.1 site.2).adapt (.eval path))
      result := by
  intro m _ _ host kept hkept
  rw [← hkept] at hnew
  have hlevel' : site.1 < (chain.levels kept).length := by rwa [Chain.length_levels]
  have hnone := Chain.recorded?_levels_none hlevel hnew
  rw [commit_adapt, commit_of_run (resolve_of_mem left hlevel' hnone h), run_stop, throw_bind]
  exact adapt_throw _ _

/-- The field is evaluated, and its value is kept. -/
theorem Performs.of_node {left : Nat} {site : Site} {node : Node} (hseats : chain.seats.Nodup)
    (hnode : nodeAt? chain.objects site = some node) (hactive : site ∉ active)
    (hnew : chain.spot site ∉ known) (hidle : chain.spot site ∉ s.spots)
    (h : s.Prepares base chain path known site.1 node
      fun _ _ host => evaluateAt host base (resolve host base left (site :: active)) site.1 node) :
    (s.andThen (Schedule.single (chain.job path site node))).Performs base chain known
      (fun m _ host =>
        (resolve (m := m) host base (left + 1) active site.1 site.2).adapt (.eval path))
      fun kept => kept.worth (chain.spot site) := by
  have hlevel := Chain.lt_length hnode
  have hfresh : chain.spot site ∉ known ++ s.spots := fun hmem =>
    (List.mem_append.mp hmem).elim hnew hidle
  intro m _ _ host kept hkept
  rw [← hkept] at hfresh
  have hnone : recorded? (chain.levels kept) site = none := by
    rw [← hkept] at hnew
    exact Chain.recorded?_levels_none hlevel hnew
  have hcommit : commit (resolve host base (left + 1) active site.1 site.2) (chain.levels kept) =
      commit (evaluateAt host base (resolve host base left (site :: active)) site.1 node)
        (chain.levels kept) >>= fun out =>
          pure (out.1, out.2.modify site.1 (Level.record site.2 (.ok out.1))) :=
    commit_of_run_bind (fun r (levels : List Level) => levels.modify site.1 (Level.record site.2 r))
      (resolve_of_node left (chain.map_object_levels kept) hnone hactive hnode)
  rw [commit_adapt, hcommit, adapt_bind, ← commit_adapt, h m host kept hkept, bind_assoc]
  refine Eq.trans ?_ (run_andThen_single (chain.job path site node) (fun _ => hfresh)
    fun v kept => pure (v, chain.levels kept)).symm
  refine congrArg (_ >>= ·) (funext fun kept' => ?_)
  rw [bind_assoc]
  refine congrArg (_ >>= ·) (funext fun v => ?_)
  rw [pure_bind, adapt_pure, Chain.levels_record hseats hlevel]
  rfl

/-- A field that has a value, or is being evaluated. -/
theorem exists_schedule_of_settled {left : Nat} {site : Site}
    (hready : Ready chain known active [site])
    (hsome : (nodeAt? chain.objects site).isSome = true)
    (h : chain.spot site ∉ known → site ∈ active) :
    ∃ s : Schedule, s.Suits chain path known active [site] ∧
      s.Performs base chain known
        (fun m _ host => (resolve (m := m) host base left active site.1 site.2).adapt (.eval path))
        fun kept => kept.worth (chain.spot site) := by
  obtain ⟨node, hnode⟩ := Option.isSome_iff_exists.mp hsome
  have hlevel := Chain.lt_length hnode
  by_cases hknown : chain.spot site ∈ known
  · refine ⟨Schedule.done, .done_of_known fun other hmem => ?_, .of_known hlevel hknown⟩
    rwa [List.mem_singleton.mp hmem]
  · have hactive := h hknown
    have hcycle := hready.leads site hactive hsome site (List.mem_singleton_self site)
    exact ⟨stop _, .stop_of_cycle hcycle, .of_active hlevel hknown hactive⟩

/-- **There is a schedule for every field**, and the field is on a cycle, or leads to one, if the
schedule ends in an error. -/
theorem exists_schedule_resolve (base : Frame) (path : List String) (hseats : chain.seats.Nodup)
    (hnamed : Named chain.objects) (left : Nat)
    (active : List Site) (hleft : ((sites chain.objects).filter (· ∉ active)).length ≤ left) :
    Schedules base chain path active fun _ _ host => resolve host base left active := by
  induction left generalizing active with
  | zero =>
      intro known site hready hsome
      -- all fields are under evaluation
      refine exists_schedule_of_settled hready hsome fun _ => ?_
      by_contra hactive
      have hlt := length_inactive_lt hactive hsome
      omega
  | succ left ih =>
      intro known site hready hsome
      by_cases hsettled : chain.spot site ∉ known → site ∈ active
      · exact exists_schedule_of_settled hready hsome hsettled
      obtain ⟨hnew, hactive⟩ := Classical.not_imp.mp hsettled
      obtain ⟨node, hnode⟩ := Option.isSome_iff_exists.mp hsome
      have hlt := length_inactive_lt hactive hsome
      have hmem : (site.1, node.name) ∈ site :: active := by
        rw [hnamed site node hnode]
        exact List.mem_cons_self
      obtain ⟨s, hsuits, hcommit⟩ :=
        exists_schedule_evaluateAt hseats (ih (site :: active) (by omega)) hmem
          (hready.enter hnode hnew)
      exact ⟨_, hsuits.job hseats hready hnode hactive hnew,
        .of_node hseats hnode hactive hnew (hsuits.idle site List.mem_cons_self) hcommit⟩

theorem valueCount_levels (kept : Kept) :
    valueCount (chain.levels kept) = (sites chain.objects).length := by
  rw [← length_sites, Chain.map_object_levels]

/-- A field of the innermost object. -/
theorem exists_schedule_field (base : Frame) (path : List String) (hseats : chain.seats.Nodup)
    (hnamed : Named chain.objects) {level : Nat} {name : String} (hlast : level + 1 = chain.length)
    (hknows : chain.Knows known) (hsome : (nodeAt? chain.objects (level, name)).isSome = true) :
    ∃ s : Schedule, s.Suits chain path known [] [(level, name)] ∧
      s.Performs base chain known
        (fun m _ host => (field (m := m) host base name).adapt (.eval path))
        fun kept => kept.worth (chain.spot (level, name)) := by
  obtain ⟨s, hsuits, hperforms⟩ :=
    exists_schedule_resolve base path hseats hnamed _ [] (List.length_filter_le _ _) known
      (level, name) ⟨hknows, nofun, nofun, nofun⟩ hsome
  refine ⟨s, hsuits, fun m _ _ host kept hkept => ?_⟩
  have hlevel : (chain.levels kept).length - 1 = level := by
    rw [Chain.length_levels]
    omega
  rw [← hperforms m host kept hkept, commit_adapt, commit_adapt, field, commit_bind, commit_get,
    pure_bind]
  simp only [hlevel, valueCount_levels]

/-- A node in the innermost object. -/
theorem exists_schedule_evaluate (base : Frame) (path : List String) (hseats : chain.seats.Nodup)
    (hnamed : Named chain.objects) {level : Nat} {node : Node} (hlast : level + 1 = chain.length)
    (hready : Ready chain known [(level, node.name)] (references chain.objects level node)) :
    ∃ s : Schedule,
      s.Suits chain path known [(level, node.name)] (references chain.objects level node) ∧
        s.Prepares base chain path known level node fun _ _ host => evaluate host base node := by
  obtain ⟨s, hsuits, hcommit⟩ := exists_schedule_evaluateAt hseats
    (exists_schedule_resolve base path hseats hnamed _ _ (List.length_filter_le _ _))
    (List.mem_singleton_self _) hready
  refine ⟨s, hsuits, fun m _ _ host kept hkept => ?_⟩
  have hlevel : (chain.levels kept).length - 1 = level := by
    rw [Chain.length_levels]
    omega
  rw [← hcommit m host kept hkept]
  dsimp only
  rw [commit_adapt, commit_adapt, evaluate, commit_bind, commit_get, pure_bind]
  simp only [hlevel, valueCount_levels]

end Schedule

end ConfigLang
