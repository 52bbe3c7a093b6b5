import Mathlib
import ConfigLang.Document.Projection
import ConfigLang.Proofs.Document.Memo

/-!
# Schedules of evaluations

A query of a document evaluates some of its options, one after the other.  Which ones, and
in which order, can be told without evaluating anything: it is in the references between
the options, and not in their values.  So there is a `Schedule` for the query: a list of
jobs, each of which evaluates one node with the values of what it reads.  A schedule keeps
every value under the place of the option in the document (`Spot`), and looks it up there
for all who read it.

A schedule that ends in an error does nothing after it, so schedules are put one after
the other (`Schedule.run_andThen`) without regard to where the first may fail.
-/

namespace ConfigLang

/-! ## Jobs -/

/-- Where an object stands in a document: around its root, at a level, or in its root, at a path. -/
inductive Seat where
  | around (level : Nat)
  | within (path : List String)
deriving DecidableEq

/-- What is evaluated at once: a field of an object, or one item of a field that is a list. -/
structure Spot where
  seat : Seat
  name : String
  item : Option Nat
deriving DecidableEq

/-- The values that have been found, in their order. -/
abbrev Kept := List (Spot × Value)

namespace Kept

/-- What has been evaluated. -/
def spots (kept : Kept) : List Spot :=
  kept.map Prod.fst

/-- The value that is kept of a spot. -/
def value? (kept : Kept) (spot : Spot) : Option Value :=
  kept.lookup spot

/-- The value of a spot that has been evaluated. -/
def worth (kept : Kept) (spot : Spot) : Value :=
  (kept.value? spot).getD default

/-- The values that some names stand for. -/
def bindings (kept : Kept) (reads : List (String × Spot)) : List (String × Value) :=
  reads.filterMap fun (name, spot) => (kept.value? spot).map (name, ·)

/-- The results that an object has by now. -/
def resultsOf (kept : Kept) (seat : Seat) : List (String × Except EvalError Value) :=
  kept.filterMap fun (spot, value) =>
    if spot.seat = seat ∧ spot.item = none then some (spot.name, .ok value) else none

end Kept

/-- One evaluation. -/
structure Job where
  spot : Spot
  node : Node
  /-- What the names in the node stand for. -/
  reads : List (String × Spot)
  /-- The path that an error is reported for. -/
  path : List String

/-- Evaluations in order. In the end there may be an error. -/
structure Schedule where
  jobs : List Job
  ending : Option QueryError

section Run

variable {m : Type → Type} [Monad m] (host : Host m) (base : Frame)

/-- Evaluates a node with the values of what it reads, and keeps its value. -/
def Job.run (job : Job) (kept : Kept) : ExceptT QueryError m Kept := do
  let value ← (Resolution.evaluateNode host ⟨base, [⟨kept.bindings job.reads⟩]⟩ job.node).adapt
    (.eval job.path)
  return kept ++ [(job.spot, value)]

/-- Runs jobs in order. -/
def runJobs (kept : Kept) : List Job → ExceptT QueryError m Kept
  | [] => return kept
  | job :: jobs => do
    let kept ← job.run host base kept
    runJobs kept jobs

/-- Runs the jobs of a schedule. -/
def Schedule.run (s : Schedule) (kept : Kept) : ExceptT QueryError m Kept := do
  let kept ← runJobs host base kept s.jobs
  match s.ending with
  | none => return kept
  | some e => throw e

end Run

namespace Schedule

/-- Nothing to do. -/
def done : Schedule := ⟨[], none⟩

/-- One job. -/
def single (job : Job) : Schedule := ⟨[job], none⟩

/-- An error at once. -/
def stop (e : QueryError) : Schedule := ⟨[], some e⟩

/-- What a schedule evaluates. -/
def spots (s : Schedule) : List Spot :=
  s.jobs.map Job.spot

/-- One schedule after the other, unless the first ends in an error. -/
def andThen (s t : Schedule) : Schedule :=
  match s.ending with
  | none => ⟨s.jobs ++ t.jobs, t.ending⟩
  | some _ => s

variable {s t : Schedule}

theorem andThen_of_none (h : s.ending = none) (t : Schedule) :
    s.andThen t = ⟨s.jobs ++ t.jobs, t.ending⟩ := by
  rw [andThen, h]

theorem andThen_of_some {e : QueryError} (h : s.ending = some e) (t : Schedule) :
    s.andThen t = s := by
  rw [andThen, h]

theorem ending_andThen (s t : Schedule) : (s.andThen t).ending = s.ending.or t.ending := by
  cases h : s.ending with
  | none =>
      rw [andThen_of_none h]
      rfl
  | some e =>
      rw [andThen_of_some h, h]
      rfl

theorem spots_andThen (h : s.ending = none) : (s.andThen t).spots = s.spots ++ t.spots := by
  rw [andThen_of_none h, spots, List.map_append]
  rfl

theorem mem_jobs_andThen {job : Job} :
    job ∈ (s.andThen t).jobs ↔ job ∈ s.jobs ∨ s.ending = none ∧ job ∈ t.jobs := by
  cases h : s.ending with
  | none =>
      rw [andThen_of_none h, List.mem_append]
      simp
  | some e =>
      rw [andThen_of_some h]
      simp

theorem mem_spots_andThen {spot : Spot} :
    spot ∈ (s.andThen t).spots ↔ spot ∈ s.spots ∨ s.ending = none ∧ spot ∈ t.spots := by
  cases h : s.ending with
  | none =>
      rw [spots_andThen h, List.mem_append]
      simp
  | some e =>
      rw [andThen_of_some h]
      simp

end Schedule

open Running

/-! ## Running schedules -/

section Runs

variable {m : Type → Type} [Monad m] [LawfulMonad m] {host : Host m} {base : Frame} {kept : Kept}

theorem runJobs_append (jobs others : List Job) :
    runJobs host base kept (jobs ++ others) =
      runJobs host base kept jobs >>= fun kept => runJobs host base kept others := by
  induction jobs generalizing kept with
  | nil => rw [List.nil_append, runJobs, pure_bind]
  | cons job jobs ih =>
      rw [List.cons_append, runJobs, runJobs, bind_assoc]
      exact congrArg (_ >>= ·) (funext fun kept => ih)

namespace Schedule

theorem run_andThen (s t : Schedule) :
    (s.andThen t).run host base kept = s.run host base kept >>= t.run host base := by
  unfold run
  cases h : s.ending with
  | none =>
      simp only [andThen_of_none h, runJobs_append, bind_assoc, pure_bind]
  | some e =>
      rw [andThen_of_some h]
      simp only [h, bind_assoc, throw_bind]

theorem run_single (job : Job) : (single job).run host base kept = job.run host base kept := by
  unfold run single
  simp only [runJobs, bind_pure]

theorem run_done : done.run host base kept = pure kept := by
  unfold run done
  simp only [runJobs, pure_bind]

theorem run_stop (e : QueryError) : (stop e).run host base kept = throw e := by
  unfold run stop
  simp only [runJobs, pure_bind]

/-- What follows an error is of no matter. -/
theorem run_bind_of_some {s : Schedule} {e : QueryError} (h : s.ending = some e) {α : Type}
    (f g : Kept → ExceptT QueryError m α) :
    s.run host base kept >>= f = s.run host base kept >>= g := by
  unfold run
  simp only [h, bind_assoc, throw_bind]

end Schedule

theorem ensures_runJobs (jobs : List Job) :
    Ensures (runJobs host base kept jobs) fun kept' =>
      ∃ more : Kept, kept' = kept ++ more ∧ more.spots = jobs.map Job.spot := by
  induction jobs generalizing kept with
  | nil => exact .pure ⟨[], (List.append_nil _).symm, rfl⟩
  | cons job jobs ih =>
      rw [runJobs, Job.run, bind_assoc]
      refine .bind_of fun value => ?_
      rw [pure_bind]
      refine ih.mono ?_
      rintro _ ⟨more, rfl, hmore⟩
      exact ⟨(job.spot, value) :: more, List.append_assoc _ _ _, congrArg (job.spot :: ·) hmore⟩

/-- A schedule adds what it evaluates to the values so far. -/
theorem Schedule.ensures_run (s : Schedule) :
    Ensures (s.run host base kept) fun kept' =>
      ∃ more : Kept, kept' = kept ++ more ∧ more.spots = s.spots := by
  refine (ensures_runJobs s.jobs).bind fun kept' hkept => ?_
  split
  · exact .pure hkept
  · exact .throw _

theorem Schedule.ensures_spots (s : Schedule) :
    Ensures (s.run host base kept) fun kept' => kept'.spots = kept.spots ++ s.spots := by
  refine s.ensures_run.mono ?_
  rintro _ ⟨more, rfl, hmore⟩
  rw [Kept.spots, List.map_append]
  exact congrArg (_ ++ ·) hmore

end Runs

/-! ## What is kept -/

namespace Kept

variable {kept : Kept} {spot : Spot}

theorem value?_isSome : (kept.value? spot).isSome = true ↔ spot ∈ kept.spots := by
  induction kept with
  | nil => simp [value?, spots]
  | cons entry kept ih =>
      rw [value?, List.lookup_cons, spots, List.map_cons, List.mem_cons]
      by_cases h : spot = entry.1
      · simp [h]
      · rw [beq_false_of_ne h]
        simp only [h, false_or]
        exact ih

theorem exists_value? (h : spot ∈ kept.spots) : ∃ v, kept.value? spot = some v :=
  Option.isSome_iff_exists.mp (value?_isSome.mpr h)

theorem value?_eq_none (h : spot ∉ kept.spots) : kept.value? spot = none := by
  rw [← value?_isSome, Bool.not_eq_true, Option.isSome_eq_false_iff, Option.isNone_iff_eq_none] at h
  exact h

theorem value?_append (kept more : Kept) (spot : Spot) :
    Kept.value? (kept ++ more) spot = (kept.value? spot).or (more.value? spot) := by
  induction kept with
  | nil => rfl
  | cons entry kept ih =>
      rw [List.cons_append, value?, value?, List.lookup_cons, List.lookup_cons]
      cases spot == entry.1 with
      | true => rfl
      | false => exact ih

/-- A value that is kept stays. -/
theorem worth_append (h : spot ∈ kept.spots) (more : Kept) :
    Kept.worth (kept ++ more) spot = kept.worth spot := by
  obtain ⟨v, hv⟩ := exists_value? h
  rw [worth, worth, value?_append, hv]
  rfl

theorem worth_new (h : spot ∉ kept.spots) (v : Value) :
    Kept.worth (kept ++ [(spot, v)]) spot = v := by
  rw [worth, value?_append, value?_eq_none h, Option.none_or, value?, List.lookup_cons,
    beq_self_eq_true]
  rfl

theorem lookup_resultsOf (kept : Kept) (seat : Seat) (name : String) :
    (kept.resultsOf seat).lookup name = (kept.value? ⟨seat, name, none⟩).map .ok := by
  induction kept with
  | nil => rfl
  | cons entry kept ih =>
      obtain ⟨⟨seat', name', item⟩, v⟩ := entry
      have hvalue : Kept.value? ((⟨seat', name', item⟩, v) :: kept) ⟨seat, name, none⟩ =
          if (⟨seat, name, none⟩ : Spot) = ⟨seat', name', item⟩ then some v
          else Kept.value? kept ⟨seat, name, none⟩ := by
        rw [value?, List.lookup_cons]
        by_cases h : (⟨seat, name, none⟩ : Spot) = ⟨seat', name', item⟩
        · rw [if_pos h, h, beq_self_eq_true]
        · rw [if_neg h, beq_false_of_ne h]
          rfl
      have hresults : Kept.resultsOf ((⟨seat', name', item⟩, v) :: kept) seat =
          if seat' = seat ∧ item = none then (name', .ok v) :: Kept.resultsOf kept seat
          else Kept.resultsOf kept seat := by
        unfold resultsOf
        rw [List.filterMap_cons]
        by_cases h : seat' = seat ∧ item = none
        · simp only [if_pos h]
        · simp only [if_neg h]
      rw [hvalue, hresults]
      by_cases hplace : seat' = seat ∧ item = none
      · obtain ⟨rfl, rfl⟩ := hplace
        rw [if_pos ⟨rfl, rfl⟩, List.lookup_cons, ih]
        by_cases hname : name = name'
        · simp [hname]
        · rw [beq_false_of_ne hname]
          simp [hname]
      · have hne : (⟨seat, name, none⟩ : Spot) ≠ ⟨seat', name', item⟩ := by
          rintro ⟨⟩
          exact hplace ⟨rfl, rfl⟩
        rw [if_neg hplace, if_neg hne, ih]

theorem resultsOf_append (kept : Kept) (spot : Spot) (v : Value) (seat : Seat) :
    Kept.resultsOf (kept ++ [(spot, v)]) seat =
      kept.resultsOf seat ++
        if spot.seat = seat ∧ spot.item = none then [(spot.name, .ok v)] else [] := by
  unfold resultsOf
  rw [List.filterMap_append]
  congr 1
  by_cases h : spot.seat = seat ∧ spot.item = none <;> simp [h]

theorem resultsOf_eq_nil {seat : Seat} (h : ∀ name, (⟨seat, name, none⟩ : Spot) ∉ kept.spots) :
    kept.resultsOf seat = [] := by
  refine List.filterMap_eq_nil_iff.mpr fun entry hmem => ?_
  obtain ⟨⟨seat', name, item⟩, v⟩ := entry
  refine if_neg ?_
  rintro ⟨rfl, rfl⟩
  exact h name (List.mem_map.mpr ⟨_, hmem, rfl⟩)

end Kept

end ConfigLang
