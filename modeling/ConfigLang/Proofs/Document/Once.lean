import Mathlib
import ConfigLang.Proofs.Document.Projected

/-!
# Every option once

A query, or the projection of a document, evaluates every option at most once, and
all that read the option see the value that it had then (`evaluates_once`).  It is
done by a schedule which is the same whatever the values are: a list of jobs, none of
which has an option in common with another, and each of which looks up what it reads
among the values of those before.
-/

namespace ConfigLang

open Relation Resolution Running

/-! ## The options of jobs -/

/-- The options that a job evaluates: every item of a list, or just one. -/
def Job.options (job : Job) : List Spot :=
  match job.node, job.spot.item with
  | .list _ items, none => (List.range items.length).map fun i => { job.spot with item := some i }
  | _, _ => [job.spot]

theorem Job.nodup_options (job : Job) : job.options.Nodup := by
  unfold options
  split
  · refine List.nodup_range.map fun i j h => ?_
    exact Option.some.inj (congrArg Spot.item h)
  · exact List.nodup_singleton _

theorem Job.of_mem_options {job : Job} {spot : Spot} (h : spot ∈ job.options) :
    spot.seat = job.spot.seat ∧ spot.name = job.spot.name ∧
      (job.spot.item = none ∨ spot.item = job.spot.item) := by
  unfold options at h
  split at h
  · rename_i hitem
    obtain ⟨i, -, rfl⟩ := List.mem_map.mp h
    exact ⟨rfl, rfl, .inl hitem⟩
  · rw [List.mem_singleton.mp h]
    exact ⟨rfl, rfl, .inr rfl⟩

theorem pairwise_of_ordered {known : List Spot} {jobs : List Job} (h : Ordered known jobs) :
    (∀ spot ∈ known, ∀ job ∈ jobs, ¬ spot.Overlaps job.spot) ∧
      jobs.Pairwise fun a b => ¬ a.spot.Overlaps b.spot := by
  induction jobs generalizing known with
  | nil => exact ⟨nofun, .nil⟩
  | cons job jobs ih =>
      obtain ⟨⟨hjob, -⟩, hjobs⟩ := h
      obtain ⟨hlater, hpairwise⟩ := ih hjobs
      refine ⟨fun spot hspot => List.forall_mem_cons.mpr ⟨hjob spot hspot, ?_⟩,
        .cons (hlater job.spot (List.mem_append_right _ (List.mem_singleton_self _))) hpairwise⟩
      exact hlater spot (List.mem_append_left _ hspot)

theorem nodup_options_of_ordered {known : List Spot} {jobs : List Job} (h : Ordered known jobs) :
    (jobs.flatMap Job.options).Nodup := by
  refine List.nodup_flatMap.mpr ⟨fun job _ => job.nodup_options, ?_⟩
  refine (pairwise_of_ordered h).2.imp fun {a b} hover spot ha hb => hover ?_
  obtain ⟨haseat, haname, haitem⟩ := Job.of_mem_options ha
  obtain ⟨hbseat, hbname, hbitem⟩ := Job.of_mem_options hb
  refine ⟨haseat.symm.trans hbseat, haname.symm.trans hbname, ?_⟩
  rcases haitem with haitem | haitem
  · exact .inl haitem
  · exact .inr (hbitem.imp_right fun hbitem => haitem.symm.trans hbitem)

/-! ## Whole documents -/

namespace Document

/-- A schedule evaluates options of a document, each at most once, and each after what it reads. -/
structure Plan (d : Document) (s : Schedule) : Prop where
  job : ∀ job ∈ s.jobs, d.Evaluates job
  once : (s.jobs.flatMap Job.options).Nodup
  reads : ∀ before job after, s.jobs = before ++ job :: after →
    ∀ read ∈ job.reads, read.2 ∈ before.map Job.spot

variable {d : Document} {s : Schedule}

theorem Plan.of_ordered (hjob : ∀ job ∈ s.jobs, d.Evaluates job) (h : Ordered [] s.jobs) :
    d.Plan s where
  job := hjob
  once := nodup_options_of_ordered h
  reads := by
    intro before job after heq
    rw [heq, ordered_append] at h
    exact h.2.1.2

theorem levels_nil {chain : Chain} {objects : List Object}
    (h : chain.objects = d.ancestors ++ objects) : chain.levels [] = d.levels objects := by
  rw [levels, ← h, Chain.objects, List.map_map]
  rfl

/-- A query does what a schedule does, in any world, and gives the value of a spot: that of the
node at its path. -/
structure QueryPlan (d : Document) (path : List String) (s : Schedule) (spot : Spot) : Prop
    extends d.Plan s where
  found : s.ending = none → ∃ job ∈ s.jobs, job.spot = spot ∧ d.node path = .ok job.node
  run : ∀ (m : Type → Type) [Monad m] [LawfulMonad m] (host : Host m),
    d.value host path = (fun kept => kept.worth spot) <$> s.run host d.base []

/-- The projection does what a schedule does, in any world, and puts together the values of its
spots. -/
structure ProjectionPlan (d : Document) (s : Schedule) : Prop extends d.Plan s where
  depends : s.ending = none → ∀ kept kept' : Kept,
    (∀ spot ∈ s.spots, kept.worth spot = kept'.worth spot) →
      d.root.shown kept [] = d.root.shown kept' []
  run : ∀ (m : Type → Type) [Monad m] [LawfulMonad m] (host : Host m),
    d.toJson host = (fun kept => d.root.shown kept []) <$> s.run host d.base []

theorem exists_queryPlan (hd : d.TidyAll) (path : List String) :
    ∃ (s : Schedule) (spot : Spot), d.QueryPlan path s spot ∧
      ∀ e, s.ending = some e →
        (∃ shown, e = .eval path (.cyclicReference shown) ∧ d.LeadsToCycle path shown) ∨
          d.locate path = .error e ∨ e = .notAnOption path := by
  have hstop : ∀ e : QueryError, (d.locate path = .error e ∨ e = .notAnOption path) →
      (∀ (m : Type → Type) [Monad m] [LawfulMonad m] (host : Host m),
        d.value host path = throw e) →
      d.QueryPlan path (.stop e) ⟨.within path, "", none⟩ ∧
        ∀ e', (Schedule.stop e).ending = some e' →
          (∃ shown, e' = .eval path (.cyclicReference shown) ∧ d.LeadsToCycle path shown) ∨
            d.locate path = .error e' ∨ e' = .notAnOption path := by
    intro e he hvalue
    refine ⟨⟨.of_ordered nofun trivial, nofun, fun m _ _ host => ?_⟩, ?_⟩
    · rw [hvalue m host, Schedule.run_stop, map_eq_pure_bind, throw_bind]
    · rintro _ ⟨⟩
      exact .inr he
  cases hlocate : d.locate path with
  | error e =>
      rw [hlocate] at hstop
      exact ⟨_, _, hstop e (.inl rfl) fun m _ _ host => value_of_error hlocate⟩
  | ok place =>
      obtain ⟨objects, node⟩ := place
      rw [hlocate] at hstop
      cases hvalue : node.isValue with
      | false =>
          exact ⟨_, _, hstop _ (.inr rfl) fun m _ _ host => value_of_not_isValue hlocate hvalue⟩
      | true =>
          obtain ⟨q, chain, spot, hhas, hobjects⟩ := exists_has hlocate
          obtain ⟨s, hs⟩ := Schedule.exists_answers hd hhas hvalue hlocate hobjects
            chain.knows_nil fun _ hmem => nomatch hmem
          have hplan := Plan.of_ordered hs.evaluates hs.ordered
          refine ⟨s, spot, ⟨hplan, fun hending => ?_, fun m _ _ host => ?_⟩,
            fun e he => .inl (hs.cyclic e he)⟩
          · obtain ⟨job, hjob, hspot, hnode⟩ := hs.done hending
            refine ⟨job, hjob, hspot, ?_⟩
            rw [Document.node, hlocate, hnode]
            rfl
          · rw [← hs.value m host [] rfl, ← fst_commit, levels_nil hobjects]
            apply ExceptT.ext
            rw [value_of_isValue hlocate hvalue, ExceptT.run_mk, run_adapt]
            simp

theorem exists_projectionPlan (hd : d.TidyAll) :
    ∃ s : Schedule, d.ProjectionPlan s ∧ ∀ e, s.ending = some e → d.Cyclic e := by
  obtain ⟨s, hs⟩ := Schedule.exists_projects_ofObject hd .root (Chain.knows_nil _)
    fun _ _ hmem => nomatch hmem
  refine ⟨s, ⟨.of_ordered hs.evaluates hs.ordered, hs.depends, fun m _ _ host => ?_⟩, hs.cyclic⟩
  have hlevels : Chain.levels (d.outside ++ [(.within [], d.root)]) [] = d.levels [d.root] := by
    refine levels_nil ?_
    rw [← d.objects_outside]
    exact List.map_append
  rw [toJson, fst_commit, ← hlevels, hs.performs m host [] rfl, map_eq_pure_bind, map_eq_pure_bind,
    bind_assoc]
  simp only [pure_bind]

/-- **Every option is evaluated at most once**, in a query as in the projection of a document, and
whatever reads it sees the value that it had then. -/
theorem evaluates_once (hd : d.Obtained) :
    (∀ path, ∃ (s : Schedule) (spot : Spot), d.QueryPlan path s spot) ∧
      ∃ s : Schedule, d.ProjectionPlan s := by
  constructor
  · intro path
    obtain ⟨s, spot, h, -⟩ := exists_queryPlan hd.tidyAll path
    exact ⟨s, spot, h⟩
  · obtain ⟨s, h, -⟩ := exists_projectionPlan hd.tidyAll
    exact ⟨s, h⟩

/-- A random number that two options and an object read. -/
theorem evaluates_once_of_random :
    ∃ d : Document, d.Obtained ∧ d.root.leaves = [["n"], ["a"], ["in", "b"]] ∧
      (∀ path, ∃ (s : Schedule) (spot : Spot), d.QueryPlan path s spot) ∧
        ∃ s : Schedule, d.ProjectionPlan s := by
  let setting : Setting (StateM Unit) :=
    ⟨(FileTree.mk [] []).host, (FileTree.mk [] []).source, .empty, none⟩
  have hfound : ((ofText setting
      "n = randn(10)\na = $n\nin { b = $n }\n").run.run ()).1.toOption.any
        (fun d => d.root.leaves = [["n"], ["a"], ["in", "b"]]) = true := by
    decide +kernel
  obtain ⟨d, _, hbuilt, hleaves⟩ := exists_of_any_run hfound
  have hd : d.Obtained := .built (.ofText setting _ hbuilt)
  exact ⟨d, hd, of_decide_eq_true hleaves, evaluates_once hd⟩

end Document

end ConfigLang
