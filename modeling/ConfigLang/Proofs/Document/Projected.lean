import Mathlib
import ConfigLang.Proofs.Document.Occurrences

/-!
# Schedules of projections

A projection does what a schedule does, and so does a query.  For the projection of an
object the schedules of its leaves are put one after the other
(`exists_projects_ofObject`).  What has been evaluated when an object is entered are
fields of objects that have been left and of those around it, but nothing inside the
object (`Untouched`).

## Strategy

* **Spots and paths.**  A field may be evaluated before its turn, when another one refers
  to it.  References only go outwards, so nothing inside an object is evaluated before the
  object is entered.  The path of a spot tells where it is (`Spot.path?`), and what is
  behind the path of such an object is none of what has been evaluated
  (`Untouched.not_behind`).
* **Values first, JSON later.**  `Object.shown` is the JSON value of an object if the
  values at its spots are given.  A projection therefore only has to see to it that these
  values are found by its schedule; `Projects` says this of a computation, with a cycle as
  the reason for any cyclic error.
* **Leaves.**  A field with a value is evaluated by the resolver
  (`exists_projects_field`), or has been before.  An item that is an option has a spot of
  its own, which nothing else reads (`exists_projects_item`).
* **Objects.**  The chain grows by an object on the way in and loses it on the way out
  (`knows_enter`, `knows_leave`), and `Performs.inside` says that a schedule for what is
  inside may be performed in between.
* **The tree.**  `exists_projects_ofObject` and its three companions follow the recursion
  of the projection, and join schedules with `Projects.andThen`.
-/

namespace ConfigLang

open Relation Resolution Running

/-! ## Spots and paths -/

/-- The path of a spot: that of its object, or that of the item. -/
def Spot.path? : Spot → Option (List String)
  | ⟨.around _, _, _⟩ => none
  | ⟨.within q, _, none⟩ => some q
  | ⟨.within q, name, some i⟩ => some (q ++ [name] ++ [toString i])

/-- Whether a spot is behind a path. -/
def Spot.Behind (path : List String) (spot : Spot) : Prop :=
  ∃ q, spot.path? = some q ∧ path <+: q

/-- Nothing has been evaluated behind a path. -/
def Untouched (known : List Spot) (path : List String) : Prop :=
  ∀ spot ∈ known, ¬ spot.Behind path

theorem Untouched.not_behind {known : List Spot} {path q : List String} {spot : Spot}
    (h : Untouched known path) (hspot : spot.path? = some q) (hq : path <+: q) : spot ∉ known :=
  fun hmem => h spot hmem ⟨q, hspot, hq⟩

theorem Untouched.of_prefix {known : List Spot} {path path' : List String}
    (h : Untouched known path) (hpath : path <+: path') : Untouched known path' := by
  rintro spot hmem ⟨q, hq, hprefix⟩
  exact h spot hmem ⟨q, hq, hpath.trans hprefix⟩

theorem Spot.Behind.of_prefix {path path' : List String} {spot : Spot} (h : spot.Behind path')
    (hpath : path <+: path') : spot.Behind path := by
  obtain ⟨q, hq, hprefix⟩ := h
  exact ⟨q, hq, hpath.trans hprefix⟩

/-- A field that leads to a cycle has a node that does. -/
theorem reaches_of_cycle {objects : List Object} {site target : Site} {node : Node}
    (hnode : nodeAt? objects site = some node)
    (hreach : ReflTransGen (Refers objects) site target)
    (hcycle : TransGen (Refers objects) target target) : Reaches objects site.1 node target := by
  obtain ⟨first, ⟨node', hnode', hmem⟩, hreach⟩ :=
    TransGen.head'_iff.mp (TransGen.trans_right hreach hcycle)
  rw [hnode] at hnode'
  cases hnode'
  exact ⟨first, hmem, hreach⟩

namespace Document

/-- The node at a path leads to a cycle, and a `$name` names a field on it. -/
def LeadsToCycle (d : Document) (path : List String) (shown : String) : Prop :=
  ∃ objects node, ∃ target : Site, d.locate path = .ok ⟨objects, node⟩ ∧ shown = "$" ++ target.2 ∧
    Reaches (d.ancestors ++ objects) ((d.ancestors ++ objects).length - 1) node target ∧
      TransGen (Refers (d.ancestors ++ objects)) target target

/-- An error is that of a node which leads to a cycle. -/
def Cyclic (d : Document) (e : QueryError) : Prop :=
  ∃ path shown, e = .eval path (.cyclicReference shown) ∧ d.LeadsToCycle path shown

end Document

/-! ## The values of a JSON value -/

mutual

/-- The JSON value of an object from the values that have been found. -/
def Object.shown (kept : Kept) (path : List String) : Object → Json
  | ⟨_, _, fields, _, _, _, _⟩ => .object (shownFields kept path fields)

/-- The members of the JSON value of an object. -/
def shownFields (kept : Kept) (path : List String) : Fields → List (String × Json)
  | [] => []
  | (key, node) :: fields =>
    (key, node.shown kept ⟨.within path, key, none⟩ (path ++ [key])) ::
      shownFields kept path fields

/-- The JSON value of a node: of what has been found at its spot, if the node has a value. -/
def Node.shown (kept : Kept) (spot : Spot) (path : List String) : Node → Json
  | .option _ => (kept.worth spot).toJson
  | .object o => o.shown kept path
  | .list _ items =>
    if items.all Node.isOption then (kept.worth spot).toJson
    else .array (shownItems kept spot path 0 items)

/-- The JSON values of the items of a list, which go on from a place in it. -/
def shownItems (kept : Kept) (spot : Spot) (path : List String) (place : Nat) :
    List Node → List Json
  | [] => []
  | item :: items =>
    item.shown kept { spot with item := some place } (path ++ [toString place]) ::
      shownItems kept spot path (place + 1) items

end

theorem Node.shown_of_isValue {kept : Kept} {spot : Spot} {path : List String} {node : Node}
    (h : node.isValue = true) : node.shown kept spot path = (kept.worth spot).toJson := by
  cases node with
  | option binding => rw [shown]
  | object o => cases h
  | list name items =>
      have hall : items.all Node.isOption = true := h
      rw [shown, if_pos hall]

/-! ## Schedules of projections -/

namespace Schedule

/-- A schedule does what a projection does at a path, in the last object of a chain. -/
structure Projects (s : Schedule) (d : Document) (chain : Chain) (path : List String)
    (known : List Spot) {α : Type}
    (x : ∀ (m : Type → Type) [Monad m], Host m → Projection m α) (result : Kept → α) : Prop where
  performs : s.Performs d.base chain known x result
  depends : s.ending = none → ∀ kept kept' : Kept,
    (∀ spot ∈ known ++ s.spots, kept.worth spot = kept'.worth spot) → result kept = result kept'
  evaluates : ∀ job ∈ s.jobs, d.Evaluates job
  ordered : Ordered known s.jobs
  knows : chain.Knows (known ++ s.spots)
  spots : ∀ spot ∈ s.spots, spot.seat ∈ chain.seats ∧ spot.item = none ∨ spot.Behind path
  cyclic : ∀ e, s.ending = some e → d.Cyclic e

variable {s t : Schedule} {d : Document} {chain : Chain} {path : List String} {known : List Spot}
  {α β : Type}

namespace Projects

variable {x : ∀ (m : Type → Type) [Monad m], Host m → Projection m α} {result : Kept → α}

theorem of_pure (hknows : chain.Knows known) (a : α) :
    done.Projects d chain path known (fun _ _ _ => pure a) fun _ => a where
  performs := .of_pure a
  depends _ _ _ _ := rfl
  evaluates := nofun
  ordered := trivial
  knows := by
    rw [show done.spots = [] from rfl, List.append_nil]
    exact hknows
  spots := nofun
  cyclic := nofun

theorem map {f : α → β} (h : s.Projects d chain path known x result) :
    s.Projects d chain path known (fun m _ host => x m host >>= fun a => pure (f a))
      fun kept => f (result kept) where
  performs := h.performs.map
  depends hending kept kept' heq := congrArg f (h.depends hending kept kept' heq)
  evaluates := h.evaluates
  ordered := h.ordered
  knows := h.knows
  spots := h.spots
  cyclic := h.cyclic

theorem of_prefix {path' : List String} (h : s.Projects d chain path' known x result)
    (hpath : path <+: path') : s.Projects d chain path known x result where
  performs := h.performs
  depends := h.depends
  evaluates := h.evaluates
  ordered := h.ordered
  knows := h.knows
  spots spot hmem := (h.spots spot hmem).imp_right fun hbehind => hbehind.of_prefix hpath
  cyclic := h.cyclic

/-- One projection after the other. -/
theorem andThen {y : ∀ (m : Type → Type) [Monad m], Host m → Projection m β} {other : Kept → β}
    {γ : Type} (f : α → β → γ) (h : s.Projects d chain path known x result)
    (ht : t.Projects d chain path (known ++ s.spots) y other) :
    (s.andThen t).Projects d chain path known
      (fun m _ host => x m host >>= fun a => y m host >>= fun b => pure (f a b))
      fun kept => f (result kept) (other kept) := by
  have hperforms := h.performs.bind
    (f := fun a m _ host => y m host >>= fun b => pure (f a b))
    (fun hending kept more hkept => h.depends hending _ _ fun spot hmem =>
      Kept.worth_append (hkept ▸ hmem) more)
    fun _ a => ht.performs.map
  constructor
  case performs => exact hperforms
  case depends =>
    intro hnone kept kept' heq
    obtain ⟨hending, hnone⟩ := Option.or_eq_none_iff.mp (ending_andThen s t ▸ hnone)
    rw [spots_andThen hending, ← List.append_assoc] at heq
    rw [h.depends hending kept kept' fun spot hmem => heq spot (List.mem_append_left _ hmem),
      ht.depends hnone kept kept' heq]
  case evaluates =>
    intro job hmem
    exact (mem_jobs_andThen.mp hmem).elim (h.evaluates job) fun hmem => ht.evaluates job hmem.2
  case ordered => exact ordered_andThen h.ordered fun _ => ht.ordered
  case knows =>
    cases hending : s.ending with
    | none =>
        rw [spots_andThen hending, ← List.append_assoc]
        exact ht.knows
    | some e =>
        rw [andThen_of_some hending]
        exact h.knows
  case spots =>
    intro spot hmem
    exact (mem_spots_andThen.mp hmem).elim (h.spots spot) fun hmem => ht.spots spot hmem.2
  case cyclic =>
    intro e he
    exact (Option.or_eq_some_iff.mp (ending_andThen s t ▸ he)).elim (h.cyclic e)
      fun he => ht.cyclic e he.2

/-- What is projected under one name leaves the others alone. -/
theorem untouched {name other : String} (hbelow : ∀ q, .within q ∈ chain.seats → q <+: path)
    (h : s.Projects d chain (path ++ [name]) known x result) (hne : name ≠ other)
    (hknown : Untouched known (path ++ [other])) :
    Untouched (known ++ s.spots) (path ++ [other]) := by
  intro spot hmem hbehind
  rcases List.mem_append.mp hmem with hmem | hmem
  · exact hknown spot hmem hbehind
  obtain ⟨q, hq, hprefix⟩ := hbehind
  rcases h.spots spot hmem with ⟨hseat, hitem⟩ | ⟨q', hq', hprefix'⟩
  · obtain ⟨seat, key, item⟩ := spot
    obtain rfl : item = none := hitem
    cases seat with
    | around level => cases hq
    | within path' =>
        -- the objects around are at shorter paths
        obtain rfl : path' = q := Option.some.inj hq
        have hlength := hprefix.length_le.trans (hbelow _ hseat).length_le
        rw [List.length_append] at hlength
        exact Nat.not_succ_le_self _ hlength
  · obtain rfl : q = q' := Option.some.inj (hq.symm.trans hq')
    have heq := List.prefix_of_prefix_length_le hprefix hprefix' (by simp)
    rw [List.prefix_append_right_inj] at heq
    exact hne (List.cons_prefix_cons.mp heq).1.symm

end Projects

/-! ## Leaves -/

/-- What a schedule evaluates for some fields is in the chain. -/
theorem Suits.spots {active targets : List Site} {shown : List String}
    (h : s.Suits chain shown known active targets) :
    ∀ spot ∈ s.spots, spot.seat ∈ chain.seats ∧ spot.item = none := by
  intro spot hmem
  obtain ⟨job, hjob, rfl⟩ := List.mem_map.mp hmem
  obtain ⟨site, node, hnode, rfl⟩ := h.genuine job hjob
  have hentry := List.getElem?_eq_getElem (Chain.lt_length hnode)
  refine ⟨?_, rfl⟩
  change (chain.spot site).seat ∈ _
  rw [Chain.spot_eq hentry]
  exact List.mem_map.mpr ⟨_, List.getElem_mem _, rfl⟩

/-- A field with a value. -/
theorem exists_projects_field {o : Object} {key : String} {node : Node} (hd : d.TidyAll)
    (h : d.Occurs path o chain) (hget : o.get? key = some node) (hvalue : node.isValue = true)
    (hknows : chain.Knows known) :
    ∃ s : Schedule, s.Projects d chain (path ++ [key]) known
      (fun m _ host =>
        Projection.ofResolution (m := m) (path ++ [key]) (Resolution.field host d.base key))
      fun kept => node.shown kept ⟨.within path, key, none⟩ (path ++ [key]) := by
  have hnode : nodeAt? chain.objects (chain.length - 1, key) = some node := by
    rw [h.nodeAt?_last hd, Object.valueNode?, hget, Option.filter_some_pos hvalue]
  obtain ⟨s, hsuits, hperforms⟩ :=
    exists_schedule_field d.base (path ++ [key]) (h.spec hd).seats (h.named hd) (h.last_succ hd)
      hknows (by rw [hnode]; rfl)
  rw [h.spot_last hd] at hperforms
  simp only [Node.shown_of_isValue hvalue]
  refine ⟨s, hperforms.map, ?_, ?_, hsuits.ordered, hsuits.knows (h.spec hd).seats hknows,
    fun spot hmem => .inl (hsuits.spots spot hmem), ?_⟩
  · intro hending kept kept' heq
    have hmem := hsuits.done hending _ (List.mem_singleton_self _)
    rw [h.spot_last hd] at hmem
    rw [heq _ hmem]
  · intro job hmem
    obtain ⟨site, field, hfield, rfl⟩ := hsuits.genuine job hmem
    exact h.evaluates hfield _
  · intro e he
    obtain ⟨site, hsite, target, rfl, hreach, hcycle⟩ := hsuits.cyclic e he
    obtain rfl := List.mem_singleton.mp hsite
    obtain ⟨objects, hobjects, hleads⟩ := (h.spec hd).leads
    have hlength : (d.ancestors ++ objects).length - 1 = chain.length - 1 := by
      rw [← hobjects, chain.length_objects]
    refine ⟨_, _, rfl, objects, node, target, (hleads.finds hget).locate, rfl, ?_, ?_⟩
    · rw [hlength, ← hobjects]
      exact reaches_of_cycle hnode hreach hcycle
    · rw [← hobjects]
      exact hcycle

/-- A schedule evaluates a node at a spot, in the last object of a chain. -/
structure Answers (s : Schedule) (d : Document) (chain : Chain) (shown : List String)
    (known : List Spot) (spot : Spot) (node : Node) : Prop where
  evaluates : ∀ job ∈ s.jobs, d.Evaluates job
  ordered : Ordered known s.jobs
  cyclic : ∀ e, s.ending = some e →
    ∃ name, e = .eval shown (.cyclicReference name) ∧ d.LeadsToCycle shown name
  done : s.ending = none → ∃ job ∈ s.jobs, job.spot = spot ∧ job.node = node
  spots : ∀ other ∈ s.spots, other.seat ∈ chain.seats ∧ other.item = none ∨ other = spot
  value : ∀ (m : Type → Type) [Monad m] [LawfulMonad m] (host : Host m) (kept : Kept),
    kept.spots = known →
      Prod.fst <$> commit ((Resolution.evaluate host d.base node).adapt (.eval shown))
        (chain.levels kept) = (fun kept => kept.worth spot) <$> s.run host d.base kept
  item : spot.item ≠ none → nodeAt? chain.objects (chain.length - 1, node.name) = none →
    chain.Knows (known ++ s.spots) ∧
      s.Performs d.base chain known
        (fun m _ host => (Resolution.evaluate (m := m) host d.base node).adapt (.eval shown))
        fun kept => kept.worth spot

/-- What a path leads to can be evaluated, if neither the node itself nor the field that it is an
item of has been. -/
theorem exists_answers {spot : Spot} {node : Node} {shown : List String} {objects : List Object}
    (hd : d.TidyAll) (h : d.Has path chain spot node) (hvalue : node.isValue = true)
    (hlocate : d.locate shown = .ok ⟨objects, node⟩)
    (hobjects : chain.objects = d.ancestors ++ objects) (hknows : chain.Knows known)
    (hover : ∀ other ∈ known, ¬ other.Overlaps spot) :
    ∃ s : Schedule, s.Answers d chain shown known spot node := by
  obtain ⟨q, o, hoccurs, -, -⟩ := h.exists_occurs
  have hseats := (hoccurs.spec hd).seats
  have hfield := h.spot_field hd
  have hfresh : chain.spot (chain.length - 1, node.name) ∉ known := by
    intro hmem
    rw [hfield] at hmem
    exact hover _ hmem ⟨rfl, rfl, .inl rfl⟩
  have hready : Ready chain known [(chain.length - 1, node.name)]
      (references chain.objects (chain.length - 1) node) :=
    ⟨hknows, List.forall_mem_singleton.mpr (hoccurs.last_lt hd),
      List.forall_mem_singleton.mpr hfresh,
      List.forall_mem_singleton.mpr fun hsome target hmem =>
        .single (h.refers_of_mem hd hmem hsome)⟩
  obtain ⟨s, hsuits, hcommit⟩ :=
    exists_schedule_evaluate d.base shown hseats (hoccurs.named hd) (hoccurs.last_succ hd) hready
  let job : Job := ⟨spot, node, chain.reads (chain.length - 1) node, shown⟩
  have hover' : ∀ other ∈ known ++ s.spots, ¬ other.Overlaps spot := by
    intro other hmem hoverlap
    rcases List.mem_append.mp hmem with hmem | hmem
    · exact hover other hmem hoverlap
    · -- what is evaluated before is a field, but not that of the node
      refine hsuits.idle _ (List.mem_singleton_self _) ?_
      obtain ⟨seat, name, item⟩ := other
      obtain ⟨rfl, rfl, -⟩ := hoverlap
      obtain rfl : item = none := (hsuits.spots _ hmem).2
      rwa [hfield]
  have hnew : spot ∉ known ++ s.spots := fun hmem => hover' _ hmem ⟨rfl, rfl, .inr (.inr rfl)⟩
  refine ⟨s.andThen (Schedule.single job), ?_⟩
  constructor
  case evaluates =>
    intro other hmem
    rcases mem_jobs_andThen.mp hmem with hmem | ⟨-, hmem⟩
    · obtain ⟨site, field, hfield, rfl⟩ := hsuits.genuine other hmem
      exact hoccurs.evaluates hfield _
    · rw [List.mem_singleton.mp hmem]
      exact h.evaluates hd hvalue _
  case ordered =>
    refine ordered_andThen hsuits.ordered fun hending => ⟨⟨hover', ?_⟩, trivial⟩
    intro read hmem
    obtain ⟨target, htarget, rfl⟩ := List.mem_map.mp hmem
    exact hsuits.done hending target htarget
  case cyclic =>
    intro e he
    rcases Option.or_eq_some_iff.mp (ending_andThen s _ ▸ he) with he | ⟨-, he⟩
    · obtain ⟨first, hfirst, target, rfl, hreach, hcycle⟩ := hsuits.cyclic e he
      refine ⟨_, rfl, objects, node, target, hlocate, rfl, ?_⟩
      rw [← hobjects, chain.length_objects]
      exact ⟨⟨first, hfirst, hreach⟩, hcycle⟩
    · cases he
  case done =>
    intro hnone
    obtain ⟨hending, -⟩ := Option.or_eq_none_iff.mp (ending_andThen s _ ▸ hnone)
    exact ⟨job, mem_jobs_andThen.mpr (.inr ⟨hending, List.mem_singleton_self _⟩), rfl, rfl⟩
  case spots =>
    intro other hmem
    rcases mem_spots_andThen.mp hmem with hmem | ⟨-, hmem⟩
    · exact .inl (hsuits.spots other hmem)
    · exact .inr (List.mem_singleton.mp hmem)
  case value =>
    intro m _ _ host kept hkept
    have hnew : s.ending = none → job.spot ∉ kept.spots ++ s.spots := fun _ => by rwa [hkept]
    rw [hcommit m host kept hkept, map_eq_pure_bind, map_eq_pure_bind,
      run_andThen_single job hnew fun v _ => pure v]
    simp only [bind_assoc, pure_bind]
    rfl
  case item =>
    intro hitem hown
    refine ⟨?_, fun m _ _ host kept hkept => ?_⟩
    · cases hending : s.ending with
      | some e =>
          rw [andThen_of_some hending]
          exact hsuits.knows hseats hknows
      | none =>
          rw [spots_andThen hending, ← List.append_assoc]
          exact (hsuits.knows hseats hknows).append_item hseats (hoccurs.last_lt hd) hown hfield
            hitem
    · have hnew : s.ending = none → job.spot ∉ kept.spots ++ s.spots := fun _ => by rwa [hkept]
      have hlevels : ∀ (kept : Kept) (v : Value),
          chain.levels (kept ++ [(job.spot, v)]) = chain.levels kept :=
        fun kept v => Chain.levels_item hitem v
      refine Eq.trans ?_
        (run_andThen_single job hnew fun v kept => pure (v, chain.levels kept)).symm
      simp only [hcommit m host kept hkept, hlevels]
      rfl

/-- An option that is no field, but an item of one. -/
theorem exists_projects_item {binding : Binding} {spot : Spot} (hd : d.TidyAll)
    (h : d.Has path chain spot (.option binding))
    (hown : nodeAt? chain.objects (chain.length - 1, binding.name) = none)
    (hknows : chain.Knows known) (hknown : Untouched known path) :
    ∃ s : Schedule, s.Projects d chain path known
      (fun m _ host =>
        Projection.ofResolution (m := m) path (Resolution.evaluate host d.base (.option binding)))
      fun kept => (kept.worth spot).toJson := by
  obtain ⟨objects, hobjects, hfinds⟩ := h.finds hd
  obtain ⟨q, o, hoccurs, -, -⟩ := h.exists_occurs
  have hitem : spot.item ≠ none := fun hitem => nomatch h.isValue_eq_false hd hitem hown
  have hpath : spot.path? = some path := by
    cases h with
    | field h hget => exact absurd rfl hitem
    | item h hget _ => rfl
  have hover : ∀ other ∈ known, ¬ other.Overlaps spot := by
    rintro ⟨seat, name, item⟩ hmem ⟨rfl, rfl, hnone | hnone | rfl⟩
    · -- the field of the item has no value
      obtain rfl : item = none := hnone
      have hsome := hknows.field _ (hoccurs.last_lt hd) (h.spot_field hd ▸ hmem)
      rw [show (Node.option binding).name = binding.name from rfl, hown] at hsome
      cases hsome
    · exact hitem hnone
    · exact hknown.not_behind hpath List.prefix_rfl hmem
  obtain ⟨s, hs⟩ := exists_answers hd h rfl hfinds.locate hobjects hknows hover
  obtain ⟨hknows', hperforms⟩ := hs.item hitem hown
  refine ⟨s, hperforms.map, fun hending kept kept' heq => ?_, hs.evaluates, hs.ordered, hknows',
    fun other hmem => (hs.spots other hmem).imp_right ?_, fun e he => ⟨path, hs.cyclic e he⟩⟩
  · obtain ⟨job, hjob, hspot, -⟩ := hs.done hending
    have hmem : spot ∈ s.spots := List.mem_map.mpr ⟨job, hjob, hspot⟩
    rw [heq _ (List.mem_append_right _ hmem)]
  · rintro rfl
    exact ⟨path, hpath, List.prefix_rfl⟩

/-! ## Objects -/

theorem knows_enter {inner : Object} (h : chain.Knows known) (hknown : Untouched known path) :
    Chain.Knows (chain ++ [(.within path, inner)]) known := by
  have hlast : ∀ {site : Site}, ¬ site.1 < chain.length →
      site.1 < (chain ++ [(Seat.within path, inner)]).length →
        Chain.spot (chain ++ [(.within path, inner)]) site = ⟨.within path, site.2, none⟩ := by
    rintro ⟨i, name⟩ hle hlt
    rw [List.length_append, List.length_singleton] at hlt
    obtain rfl : i = chain.length := by
      dsimp only at hle hlt
      omega
    exact Chain.spot_eq List.getElem?_concat_length name
  constructor
  · intro site hlevel hmem
    by_cases hsite : site.1 < chain.length
    · rw [Chain.spot_append hsite] at hmem
      rw [Chain.objects_append, nodeAt?_append (by rwa [chain.length_objects])]
      exact h.field site hsite hmem
    · rw [hlast hsite hlevel] at hmem
      exact absurd hmem (hknown.not_behind rfl List.prefix_rfl)
  · intro site i hlevel hmem
    by_cases hsite : site.1 < chain.length
    · rw [Chain.spot_append hsite] at hmem
      rw [Chain.objects_append, nodeAt?_append (by rwa [chain.length_objects])]
      exact h.item site i hsite hmem
    · rw [hlast hsite hlevel] at hmem
      refine absurd hmem (hknown.not_behind rfl ?_)
      exact (List.prefix_append _ _).trans (List.prefix_append _ _)

theorem knows_leave {entry : Seat × Object} (h : Chain.Knows (chain ++ [entry]) known) :
    chain.Knows known := by
  have hlt : ∀ {i : Nat}, i < chain.length → i < (chain ++ [entry]).length := by
    intro i hi
    rw [List.length_append]
    omega
  constructor
  · intro site hlevel hmem
    have hsome := h.field site (hlt hlevel) (by rwa [Chain.spot_append hlevel])
    rwa [Chain.objects_append, nodeAt?_append (by rwa [chain.length_objects])] at hsome
  · intro site i hlevel hmem
    have hnone := h.item site i (hlt hlevel) (by rwa [Chain.spot_append hlevel])
    rwa [Chain.objects_append, nodeAt?_append (by rwa [chain.length_objects])] at hnone

/-- An object is entered, and left again. -/
theorem Performs.inside {base : Frame} {inner : Object} {seat : Seat}
    {x : ∀ (m : Type → Type) [Monad m], Host m → Projection m α} {result : Kept → α}
    (hnew : ∀ name, (⟨seat, name, none⟩ : Spot) ∉ known)
    (h : s.Performs base (chain ++ [(seat, inner)]) known x result) :
    s.Performs base chain known (fun m _ host => Projection.inside inner (x m host)) result := by
  intro m _ _ host kept hkept
  rw [← hkept] at hnew
  change commit (Projection.inside inner (x m host)) _ = _
  rw [Projection.inside, commit_bind, commit_modify, pure_bind, commit_bind,
    ← Chain.levels_concat inner hnew, h m host kept hkept, bind_assoc]
  refine congrArg (_ >>= ·) (funext fun kept' => ?_)
  rw [pure_bind, commit_bind, commit_modify, pure_bind, commit_pure]
  dsimp only
  rw [Chain.dropLast_levels]

theorem Projects.inside {inner : Object}
    {x : ∀ (m : Type → Type) [Monad m], Host m → Projection m α} {result : Kept → α}
    (hknown : Untouched known path)
    (h : s.Projects d (chain ++ [(.within path, inner)]) path known x result) :
    s.Projects d chain path known (fun m _ host => Projection.inside inner (x m host)) result where
  performs := h.performs.inside fun _ => hknown.not_behind rfl List.prefix_rfl
  depends := h.depends
  evaluates := h.evaluates
  ordered := h.ordered
  knows := knows_leave h.knows
  spots := by
    rintro ⟨seat, name, item⟩ hmem
    rcases h.spots _ hmem with ⟨hseat, rfl⟩ | hbehind
    · rw [Chain.seats, List.map_append] at hseat
      rcases List.mem_append.mp hseat with hseat | hseat
      · exact .inl ⟨hseat, rfl⟩
      · obtain rfl : seat = .within path := List.mem_singleton.mp hseat
        exact .inr ⟨path, rfl, List.prefix_rfl⟩
    · exact .inr hbehind
  cyclic := h.cyclic

mutual

theorem exists_projects_ofObject (hd : d.TidyAll) : ∀ {o : Object} {path : List String}
    {chain : Chain} {known : List Spot}, d.Occurs path o chain → chain.Knows known →
      (∀ key, Untouched known (path ++ [key])) →
        ∃ s : Schedule, s.Projects d chain path known
          (fun m _ host => Projection.ofObject (m := m) host d.base path o)
          fun kept => o.shown kept path
  | ⟨_, _, fields, _, _, _, _⟩, path, chain, known, h, hknows, hknown => by
    obtain ⟨objects, -, hleads⟩ := (h.spec hd).leads
    have hdistinct := hleads.tidy_last.fields.distinct
    obtain ⟨s, hs⟩ := exists_projects_ofFields hd h hdistinct
      (fun field hmem => Keyed.get?_of_mem hdistinct hmem) hknows fun field _ => hknown field.1
    simp only [Projection.ofObject, Object.shown]
    exact ⟨s, hs.map⟩

theorem exists_projects_ofFields (hd : d.TidyAll) {o : Object} {path : List String} {chain : Chain}
    (h : d.Occurs path o chain) : ∀ {fields : Fields} {known : List Spot},
      (Keyed.keys fields).Nodup → (∀ field ∈ fields, o.get? field.1 = some field.2) →
        chain.Knows known → (∀ field ∈ fields, Untouched known (path ++ [field.1])) →
          ∃ s : Schedule, s.Projects d chain path known
            (fun m _ host => Projection.ofFields (m := m) host d.base path fields)
            fun kept => shownFields kept path fields
  | [], known, _, _, hknows, _ => by
    simp only [Projection.ofFields, shownFields]
    exact ⟨_, .of_pure hknows []⟩
  | (key, node) :: fields, known, hdistinct, hfields, hknows, hknown => by
    obtain ⟨hget, hrest⟩ := List.forall_mem_cons.mp hfields
    obtain ⟨hkey, hknown⟩ := List.forall_mem_cons.mp hknown
    obtain ⟨hnew, hdistinct⟩ := List.nodup_cons.mp hdistinct
    have hbelow := (h.spec hd).below
    have hcons : ∀ {x : ∀ (m : Type → Type) [Monad m], Host m → Projection m Json},
        (∃ s : Schedule, s.Projects d chain (path ++ [key]) known x
          fun kept => node.shown kept ⟨.within path, key, none⟩ (path ++ [key])) →
        ∃ s : Schedule, s.Projects d chain path known
          (fun m _ host => do
            let json ← x m host
            let rest ← Projection.ofFields host d.base path fields
            return (key, json) :: rest)
          fun kept => shownFields kept path ((key, node) :: fields) := by
      rintro x ⟨s, hs⟩
      obtain ⟨t, ht⟩ := exists_projects_ofFields hd h hdistinct hrest hs.knows fun field hmem => by
        refine hs.untouched hbelow ?_ (hknown field hmem)
        rintro rfl
        exact hnew (List.mem_map.mpr ⟨field, hmem, rfl⟩)
      exact ⟨s.andThen t, (hs.of_prefix (List.prefix_append _ _)).andThen
        (fun json rest => (key, json) :: rest) ht⟩
    -- a value is evaluated where it stands; what is inside another node is followed
    cases hvalue : node.isValue with
    | true =>
        simp only [Projection.ofFields, hvalue, if_true]
        exact hcons (exists_projects_field hd h hget hvalue hknows)
    | false =>
        simp only [Projection.ofFields, hvalue, Bool.false_eq_true, if_false]
        have hhas : d.Has (path ++ [key]) chain ⟨.within path, key, none⟩ node := .field h hget
        refine hcons (exists_projects_ofNode hd hhas ?_ hknows hkey)
        rw [h.nodeAt?_last hd, hhas.name_eq hd, Object.valueNode?, hget]
        exact Option.filter_some_neg hvalue

theorem exists_projects_ofNode (hd : d.TidyAll) : ∀ {node : Node} {path : List String}
    {chain : Chain} {spot : Spot} {known : List Spot}, d.Has path chain spot node →
      nodeAt? chain.objects (chain.length - 1, node.name) = none → chain.Knows known →
        Untouched known path →
          ∃ s : Schedule, s.Projects d chain path known
            (fun m _ host => Projection.ofNode (m := m) host d.base path node)
            fun kept => node.shown kept spot path
  | .option binding, path, chain, spot, known, h, hown, hknows, hknown => by
    simp only [Projection.ofNode, Node.shown]
    exact exists_projects_item hd h hown hknows hknown
  | .object inner, path, chain, spot, known, h, hown, hknows, hknown => by
    obtain ⟨s, hs⟩ := exists_projects_ofObject hd h.enter (knows_enter hknows hknown)
      fun key => hknown.of_prefix (List.prefix_append _ _)
    simp only [Projection.ofNode, Node.shown]
    exact ⟨s, hs.inside hknown⟩
  | .list name items, path, chain, spot, known, h, hown, hknows, hknown => by
    have hname : name = spot.name := h.name_eq hd
    have hall : items.all Node.isOption = false := h.isValue_eq_false hd (h.item_of_list hd) hown
    obtain ⟨s, hs⟩ := exists_projects_ofItems hd (h.below hd) (hname ▸ hown)
      (fun i item hitem => by
        rw [Nat.zero_add]
        exact h.list hd hitem)
      hknows fun i => hknown.of_prefix (List.prefix_append _ _)
    simp only [Projection.ofNode, Node.shown, hall, Bool.false_eq_true, if_false]
    exact ⟨s, hs.map⟩

theorem exists_projects_ofItems (hd : d.TidyAll) {path : List String} {chain : Chain} {spot : Spot}
    (hbelow : ∀ q, .within q ∈ chain.seats → q <+: path)
    (hown : nodeAt? chain.objects (chain.length - 1, spot.name) = none) :
    ∀ {items : List Node} {place : Nat} {known : List Spot},
      (∀ (i : Nat) (item : Node), items[i]? = some item →
        d.Has (path ++ [toString (place + i)]) chain { spot with item := some (place + i) } item) →
        chain.Knows known → (∀ i, Untouched known (path ++ [toString (place + i)])) →
          ∃ s : Schedule, s.Projects d chain path known
            (fun m _ host => Projection.ofItems (m := m) host d.base path place items)
            fun kept => shownItems kept spot path place items
  | [], place, known, _, hknows, _ => by
    simp only [Projection.ofItems, shownItems]
    exact ⟨_, .of_pure hknows []⟩
  | item :: items, place, known, hitems, hknows, hknown => by
    have hitem := hitems 0 item rfl
    have hname : item.name = spot.name := (Document.Has.name_eq hd hitem :)
    obtain ⟨s, hs⟩ := exists_projects_ofNode hd hitem (by rwa [hname]) hknows (hknown 0)
    have hrest : ∀ (i : Nat) (other : Node), items[i]? = some other →
        d.Has (path ++ [toString (place + 1 + i)]) chain
          { spot with item := some (place + 1 + i) } other := by
      intro i other hother
      rw [Nat.add_right_comm]
      exact hitems (i + 1) other hother
    have hknown' : ∀ i, Untouched (known ++ s.spots) (path ++ [toString (place + 1 + i)]) := by
      intro i
      refine hs.untouched hbelow (fun heq => ?_) ?_
      · have hplace := congrArg placeOfText? heq
        rw [placeOfText?_toString, placeOfText?_toString] at hplace
        have := Option.some.inj hplace
        omega
      · rw [Nat.add_right_comm]
        exact hknown (i + 1)
    obtain ⟨t, ht⟩ := exists_projects_ofItems hd hbelow hown hrest hs.knows hknown'
    simp only [Projection.ofItems, shownItems]
    exact ⟨s.andThen t, (hs.of_prefix (List.prefix_append _ _)).andThen
      (fun json rest => json :: rest) ht⟩

end

end Schedule

end ConfigLang
