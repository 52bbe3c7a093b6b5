import Mathlib
import ConfigLang.Proofs.Document.Nesting
import ConfigLang.Proofs.Document.Once
import ConfigLang.Proofs.Eval.Effects

/-!
# Cyclic references

Every query and every projection comes to an end, and a cyclic reference is reported
only where there is one (`detects_cycles`).

A query does what a schedule does, and no evaluation of an option gives a cyclic
reference by itself, so the schedule ends in that error.  Where it does, the fields
under evaluation lead to the one that is named, which is one of them.
-/

namespace ConfigLang

open Relation Resolution Running

/-! ## Evaluations -/

section

variable {m : Type → Type} [Monad m] {host : Host m} (p : Discipline host) (env : Environment)

mutual

theorem Discipline.evaluateNode [LawfulMonad m] : ∀ node : Node,
    p.Holds (evaluateNode host env node)
  | .option binding => by
    rw [Resolution.evaluateNode]
    exact p.evaluate binding.value env
  | .object _ => by
    rw [Resolution.evaluateNode]
    exact p.throw nofun
  | .list _ items => by
    rw [Resolution.evaluateNode]
    exact p.bind (Discipline.evaluateItems items) fun _ => p.pure _

theorem Discipline.evaluateItems [LawfulMonad m] : ∀ items : List Node,
    p.Holds (evaluateItems host env items)
  | [] => by
    rw [Resolution.evaluateItems]
    exact p.pure []
  | item :: items => by
    rw [Resolution.evaluateItems]
    exact p.bind (Discipline.evaluateNode item) fun _ =>
      p.bind (Discipline.evaluateItems items) fun _ => p.pure _

end

end

section

variable {σ : Type} {α : Type}

/-- No evaluation gives a cyclic reference. -/
def noCycleDiscipline (host : Host (StateM σ)) : Discipline host where
  Holds x := ∀ s, NoCycle (x.run.run s).1
  settled h _ := h
  bind {_ _ x _} hx hf s := by
    cases hrun : x.run.run s with
    | mk r s' =>
        have hr := hx s
        rw [hrun] at hr
        cases r with
        | ok a =>
            rw [run_bind_ok hrun]
            exact hf a s'
        | error e =>
            rw [run_bind_error hrun]
            exact NoCycle.error.mpr (NoCycle.error.mp hr)
  readText _ _ := nofun
  isFile _ _ := nofun
  isDirectory _ _ := nofun
  random _ _ := nofun

variable {host : Host (StateM σ)} {base : Frame} {kept : Kept} {before after : σ}
  {path : List String} {shown : String}

theorem Job.run_ne_cyclic (job : Job) :
    (job.run host base kept).run.run before ≠
      (.error (.eval path (.cyclicReference shown)), after) := by
  intro h
  unfold Job.run at h
  have hnode := (noCycleDiscipline host).evaluateNode ⟨base, [⟨kept.bindings job.reads⟩]⟩ job.node
    before
  cases hrun : (evaluateNode host ⟨base, [⟨kept.bindings job.reads⟩]⟩ job.node).run.run before with
  | mk r s' =>
      rw [hrun] at hnode
      have hadapt : ((evaluateNode host ⟨base, [⟨kept.bindings job.reads⟩]⟩ job.node).adapt
          (QueryError.eval job.path)).run.run before =
            (r.mapError (QueryError.eval job.path), s') := by
        rw [run_adapt, hrun]
        rfl
      cases r with
      | ok v =>
          rw [run_bind_ok hadapt] at h
          cases h
      | error e =>
          rw [run_bind_error hadapt] at h
          cases h
          exact hnode _ rfl

theorem runJobs_ne_cyclic (jobs : List Job) :
    (runJobs host base kept jobs).run.run before ≠
      (.error (.eval path (.cyclicReference shown)), after) := by
  induction jobs generalizing kept before with
  | nil => exact nofun
  | cons job jobs ih =>
      intro h
      rw [runJobs] at h
      cases hrun : (job.run host base kept).run.run before with
      | mk r s' =>
          cases r with
          | ok kept' =>
              rw [run_bind_ok hrun] at h
              exact ih h
          | error e =>
              rw [run_bind_error hrun] at h
              cases h
              exact job.run_ne_cyclic hrun

/-- Only the end of a schedule gives a cyclic reference. -/
theorem Schedule.ending_of_cyclic {s : Schedule}
    (h : (s.run host base kept).run.run before =
      (.error (.eval path (.cyclicReference shown)), after)) :
    s.ending = some (.eval path (.cyclicReference shown)) := by
  unfold Schedule.run at h
  cases hrun : (runJobs host base kept s.jobs).run.run before with
  | mk r s' =>
      cases r with
      | ok kept' =>
          rw [run_bind_ok hrun] at h
          cases hending : s.ending with
          | none =>
              rw [hending] at h
              cases h
          | some e =>
              rw [hending] at h
              cases h
              rfl
      | error e =>
          rw [run_bind_error hrun] at h
          cases h
          exact absurd hrun (runJobs_ne_cyclic s.jobs)

/-- What is made of the values does not matter for that. -/
theorem Schedule.ending_of_map_cyclic {s : Schedule} {f : Kept → α}
    (h : (f <$> s.run host base kept).run.run before =
      (.error (.eval path (.cyclicReference shown)), after)) :
    s.ending = some (.eval path (.cyclicReference shown)) := by
  rw [map_eq_pure_bind] at h
  cases hrun : (s.run host base kept).run.run before with
  | mk r s' =>
      cases r with
      | ok kept' =>
          rw [run_bind_ok hrun] at h
          cases h
      | error e =>
          rw [run_bind_error hrun] at h
          cases h
          exact Schedule.ending_of_cyclic hrun

end

/-! ## Documents -/

namespace Document

variable {d : Document}

theorem locateFrom_ne_eval {chain : List Object} {walked q path : List String} {o : Object}
    {e : EvalError} : locateFrom chain walked o q ≠ .error (.eval path e) := by
  have hmissing : ∀ here rest, missing here rest ≠ .eval path e := by
    intro here rest
    unfold missing
    split <;> nofun
  intro h
  fun_induction locateFrom chain walked o q with
  | case5 _ _ _ _ _ _ _ _ _ ih => exact ih h
  | case9 _ _ _ _ _ _ _ _ _ _ _ _ _ _ ih => exact ih h
  | case2 | case4 | case7 => exact hmissing _ _ (Except.error.inj h)
  | _ => cases h

/-- Evaluation comes to an end, and reports cycles where there are any. -/
structure DetectsCycles (d : Document) : Prop where
  /-- No query needs a way out: none goes into a field twice, or into more fields than there are. -/
  value_ends : ∀ (m : Type → Type) [Monad m] [LawfulMonad m] (host : Host m)
    (stuck : Resolution m Value) (path : List String),
      d.valueBy (evaluateOr stuck host d.base) path = d.value host path
  /-- Nor does the projection. -/
  toJson_ends : ∀ (m : Type → Type) [Monad m] [LawfulMonad m] (host : Host m)
    (stuck : Resolution m Value),
      d.toJsonBy (fieldOr stuck host d.base) (evaluateOr stuck host d.base) = d.toJson host
  /-- A cyclic reference names a field on a cycle that the node of the query leads to. -/
  value_cyclic : ∀ (σ : Type) (host : Host (StateM σ)) (before after : σ) (q path : List String)
    (shown : String),
      (d.value host q).run.run before = (.error (.eval path (.cyclicReference shown)), after) →
        path = q ∧ d.LeadsToCycle q shown
  /-- In the projection it is the node whose path is reported. -/
  toJson_cyclic : ∀ (σ : Type) (host : Host (StateM σ)) (before after : σ) (path : List String)
    (shown : String),
      (d.toJson host).run.run before = (.error (.eval path (.cyclicReference shown)), after) →
        d.LeadsToCycle path shown

/-- **Evaluation comes to an end**, however the options refer to each other, **and a cyclic
reference is reported only where there is one.** -/
theorem detects_cycles (hd : d.Obtained) : d.DetectsCycles where
  value_ends _ _ _ host stuck path := d.valueBy_evaluateOr host stuck path
  toJson_ends _ _ _ host stuck := d.toJsonBy_or host stuck
  value_cyclic σ host before after q path shown h := by
    obtain ⟨s, spot, hplan, hcyclic⟩ := exists_queryPlan hd.tidyAll q
    rw [hplan.run] at h
    rcases hcyclic _ (Schedule.ending_of_map_cyclic h) with ⟨name, heq, hleads⟩ | heq | heq
    · cases heq
      exact ⟨rfl, hleads⟩
    · exact absurd heq locateFrom_ne_eval
    · cases heq
  toJson_cyclic σ host before after path shown h := by
    obtain ⟨s, hplan, hcyclic⟩ := exists_projectionPlan hd.tidyAll
    rw [hplan.run] at h
    obtain ⟨path', name, heq, hleads⟩ := hcyclic _ (Schedule.ending_of_map_cyclic h)
    cases heq
    exact hleads

/-- Two options that refer to each other, and one that leads to them. -/
theorem detects_cycles_of_mutual :
    ∃ d : Document, d.Obtained ∧ d.DetectsCycles ∧ d.LeadsToCycle ["c"] "$b" := by
  let setting : Setting (StateM Unit) :=
    ⟨(FileTree.mk [] []).host, (FileTree.mk [] []).source, .empty, none⟩
  have hfound : ((ofText setting "a = $b\nb = $a\nc = $b + 1\n").run.run ()).1.toOption.any
      (fun d => match (d.value setting.host ["c"]).run.run () with
        | (.error e, _) => e = .eval ["c"] (.cyclicReference "$b")
        | (.ok _, _) => false) = true := by decide +kernel
  obtain ⟨d, _, hbuilt, hvalue⟩ := exists_of_any_run hfound
  have hd : d.Obtained := .built (.ofText setting _ hbuilt)
  have hcycles := detects_cycles hd
  refine ⟨d, hd, hcycles, ?_⟩
  split at hvalue
  · rename_i e _ hrun
    obtain rfl := of_decide_eq_true hvalue
    exact (hcycles.value_cyclic _ _ _ _ _ _ _ hrun).2
  · cases hvalue

end Document

end ConfigLang
