import Mathlib
import ConfigLang.Document.Projection
import ConfigLang.Proofs.Running

/-!
# Levels that answer alike

A query looks at the objects on its way for their values alone: for the node of a name,
if that has a value, and for how many of these there are.  Levels that are alike in this
give the same results, failures among them, and stay alike.

Two computations that go on like this are said to run together (`Together`).  The
relation is kept by sequencing, so it is shown step by step for the resolver
(`together_resolve`).

## Strategy

* **Running together.**  Besides sequences (`Together.bind`) there is a theorem for each
  thing that the resolver does with the levels: reading them (`Together.get_bind`),
  changing them alike (`Together.modify`), naming errors (`Together.adapt`) and turning a
  failure into a result (`Together.attempt`).
* **What is read of levels.**  Which object declares a name, what is kept of it and how
  many values there are is the same in both (`declares_eq`, `owner?_eq`,
  `environment_eq`, `valueCount_eq`).
* **The resolver.**  `together_resolveAll`, `together_evaluateAt` and `together_resolve`
  follow its recursion, by induction on the fuel that is left.
-/

namespace ConfigLang

open Running

/-- Two levels with the same values and the same results. -/
structure Level.Alike (l l' : Level) : Prop where
  results : l'.results = l.results
  valueNode? : ∀ name, l'.object.valueNode? name = l.object.valueNode? name
  valueCount : l'.object.valueCount = l.object.valueCount

/-- Two chains of levels that are alike. -/
abbrev LevelsAlike (levels levels' : List Level) : Prop :=
  List.Forall₂ Level.Alike levels levels'

/-- Two chains of levels, with a proof that they are alike. -/
structure AlikeLevels where
  left : List Level
  right : List Level
  alike : LevelsAlike left right

theorem Level.Alike.refl (l : Level) : l.Alike l :=
  ⟨rfl, fun _ => rfl, rfl⟩

theorem Level.Alike.symm {l l' : Level} (h : l.Alike l') : l'.Alike l :=
  ⟨h.results.symm, fun name => (h.valueNode? name).symm, h.valueCount.symm⟩

theorem LevelsAlike.refl (levels : List Level) : LevelsAlike levels levels :=
  List.forall₂_same.mpr fun l _ => .refl l

theorem LevelsAlike.symm {levels levels' : List Level} (h : LevelsAlike levels levels') :
    LevelsAlike levels' levels :=
  List.Forall₂.flip (h.imp fun _ _ hl => hl.symm)

/-! ## Running together -/

section Together

variable {m : Type → Type} [Monad m] {ε ε' ε₁ ε₁' α β : Type} {levels levels' : List Level}

/-- Two computations give the same results from two chains of levels, up to the naming of their
errors, and leave them alike. -/
def Together (f : ε → ε') (x : ExceptT ε (StateT (List Level) m) α)
    (x' : ExceptT ε' (StateT (List Level) m) α) (levels levels' : List Level) : Prop :=
  ∃ y : m (Except ε α × AlikeLevels),
    x.run.run levels = (fun out => (out.1, out.2.left)) <$> y ∧
      x'.run.run levels' = (fun out => (out.1.mapError f, out.2.right)) <$> y

namespace Together

variable [LawfulMonad m] {f : ε → ε'} {x : ExceptT ε (StateT (List Level) m) α}
  {x' : ExceptT ε' (StateT (List Level) m) α}

theorem of_run {r : Except ε α} {after after' : List Level} (hafter : LevelsAlike after after')
    (hrun : x.run.run levels = pure (r, after))
    (hrun' : x'.run.run levels' = pure (r.mapError f, after')) : Together f x x' levels levels' :=
  ⟨pure (r, ⟨after, after', hafter⟩), by rw [map_pure, hrun], by rw [map_pure, hrun']⟩

theorem pure (a : α) (h : LevelsAlike levels levels') :
    Together f (Pure.pure a : ExceptT ε (StateT (List Level) m) α) (Pure.pure a) levels levels' :=
  of_run (r := .ok a) h rfl rfl

theorem throw (e : ε) (h : LevelsAlike levels levels') :
    Together f (throw e : ExceptT ε (StateT (List Level) m) α) (throw (f e)) levels levels' :=
  of_run (r := .error e) h rfl rfl

private theorem run_bind_of_run {γ : Type} {s : γ → List Level} {g : ε → ε'}
    {x : ExceptT ε' (StateT (List Level) m) α} {k : α → ExceptT ε' (StateT (List Level) m) β}
    {y : m (Except ε α × γ)} {z : α → γ → m (Except ε β × γ)}
    (hx : x.run.run levels = (fun out => (out.1.mapError g, s out.2)) <$> y)
    (hk : ∀ a c, (k a).run.run (s c) = (fun out => (out.1.mapError g, s out.2)) <$> z a c) :
    (x >>= k).run.run levels = (fun out => (out.1.mapError g, s out.2)) <$> (y >>= fun out =>
      match out with
      | (.ok a, c) => z a c
      | (.error e, c) => Pure.pure (.error e, c)) := by
  rw [run_bind, hx, map_bind, bind_map_left]
  refine congrArg (y >>= ·) (funext fun out => ?_)
  obtain ⟨r, c⟩ := out
  cases r with
  | ok a => exact hk a c
  | error e =>
      dsimp only
      rw [map_pure]
      rfl

theorem mapError_id (r : Except ε α) : r.mapError id = r := by
  cases r <;> rfl

theorem bind {k : α → ExceptT ε (StateT (List Level) m) β}
    {k' : α → ExceptT ε' (StateT (List Level) m) β} (hx : Together f x x' levels levels')
    (hk : ∀ a after after', LevelsAlike after after' → Together f (k a) (k' a) after after') :
    Together f (x >>= k) (x' >>= k') levels levels' := by
  obtain ⟨y, hy, hy'⟩ := hx
  choose z hz hz' using fun a (c : AlikeLevels) => hk a c.left c.right c.alike
  refine ⟨_, ?_, run_bind_of_run hy' hz'⟩
  have hleft := run_bind_of_run (g := id) (s := AlikeLevels.left) (z := z)
    (by simpa only [mapError_id] using hy) (by simpa only [mapError_id] using hz)
  simpa only [mapError_id] using hleft

/-- What is done after the levels were read depends on levels that are alike. -/
theorem get_bind {k : List Level → ExceptT ε (StateT (List Level) m) β}
    {k' : List Level → ExceptT ε' (StateT (List Level) m) β}
    (hk : Together f (k levels) (k' levels') levels levels') :
    Together f (get >>= k) (get >>= k') levels levels' := by
  obtain ⟨y, hy, hy'⟩ := hk
  refine ⟨y, ?_, ?_⟩
  · rw [run_bind, run_get, pure_bind]
    exact hy
  · rw [run_bind, run_get, pure_bind]
    exact hy'

theorem modify {g g' : List Level → List Level} (h : LevelsAlike (g levels) (g' levels')) :
    Together f (modify g : ExceptT ε (StateT (List Level) m) PUnit) (modify g') levels levels' :=
  of_run h (run_modify g levels) (run_modify g' levels')

/-- Errors are named anew on either side. -/
theorem adapt {ε₁ ε₁' : Type} {g : ε → ε₁} {g' : ε' → ε₁'} {f₁ : ε₁ → ε₁'}
    (hx : Together f x x' levels levels') (hf : ∀ e, g' (f e) = f₁ (g e)) :
    Together f₁ (x.adapt g) (x'.adapt g') levels levels' := by
  obtain ⟨y, hy, hy'⟩ := hx
  refine ⟨(fun out => (out.1.mapError g, out.2)) <$> y, ?_, ?_⟩
  · rw [run_adapt, hy, bind_map_left, Functor.map_map, map_eq_pure_bind]
  · rw [run_adapt, hy', bind_map_left, Functor.map_map, map_eq_pure_bind]
    refine congrArg (y >>= ·) (funext fun out => ?_)
    obtain ⟨r, c⟩ := out
    cases r with
    | ok a => rfl
    | error e => exact congrArg (fun e => Pure.pure (Except.error e, c.right)) (hf e)

/-- A failure becomes a result. -/
theorem attempt {x x' : ExceptT ε (StateT (List Level) m) α}
    (hx : Together id x x' levels levels') :
    Together id (ExceptT.mk (do return .ok (← x.run)) :
        ExceptT ε (StateT (List Level) m) (Except ε α))
      (ExceptT.mk (do return .ok (← x'.run))) levels levels' := by
  obtain ⟨y, hy, hy'⟩ := hx
  refine ⟨(fun out => (.ok out.1, out.2)) <$> y, ?_, ?_⟩
  · rw [run_attempt, hy, bind_map_left, Functor.map_map, map_eq_pure_bind]
  · simp only [mapError_id] at hy'
    rw [run_attempt, hy', bind_map_left, Functor.map_map, map_eq_pure_bind]
    rfl

/-- What does not look at the levels gives the same results from all. -/
theorem lift (x : ExceptT EvalError m α) (h : LevelsAlike levels levels') :
    Together id (Resolution.lift x) (Resolution.lift x) levels levels' := by
  refine ⟨(fun r => (r, ⟨levels, levels', h⟩)) <$> x.run, ?_, ?_⟩
  · rw [Functor.map_map, map_eq_pure_bind]
    rfl
  · simp only [mapError_id]
    rw [Functor.map_map, map_eq_pure_bind]
    rfl

/-- The results of computations that run together. -/
theorem map_fst (hx : Together f x x' levels levels') :
    Prod.fst <$> x'.run.run levels' =
      (fun r => r.mapError f) <$> Prod.fst <$> x.run.run levels := by
  obtain ⟨y, hy, hy'⟩ := hx
  rw [hy, hy', Functor.map_map, Functor.map_map, Functor.map_map]

end Together

end Together

/-! ## The resolver -/

namespace LevelsAlike

variable {levels levels' : List Level}

theorem slot (h : LevelsAlike levels levels') (i : Nat) :
    (levels[i]? = none ∧ levels'[i]? = none) ∨
      ∃ l l', levels[i]? = some l ∧ levels'[i]? = some l' ∧ l.Alike l' := by
  induction h generalizing i with
  | nil => exact .inl ⟨rfl, rfl⟩
  | cons hl _ ih =>
      cases i with
      | zero => exact .inr ⟨_, _, rfl, rfl, hl⟩
      | succ i => exact ih i

theorem declares_eq (h : LevelsAlike levels levels') (i : Nat) (name : String) :
    (levels'.map (·.object))[i]?.map (·.declares name) =
      (levels.map (·.object))[i]?.map (·.declares name) := by
  rw [List.getElem?_map, List.getElem?_map]
  rcases h.slot i with ⟨hl, hl'⟩ | ⟨l, l', hl, hl', halike⟩
  · rw [hl, hl']
  · rw [hl, hl']
    refine congrArg some ?_
    change (l'.object.valueNode? name).isSome = (l.object.valueNode? name).isSome
    rw [halike.valueNode?]

theorem owner?_eq (h : LevelsAlike levels levels') (level : Nat) (own name : String) :
    owner? (levels'.map (·.object)) level own name =
      owner? (levels.map (·.object)) level own name := by
  unfold owner?
  simp only [h.declares_eq]

theorem environment_eq (h : LevelsAlike levels levels') (base : Frame) (level : Nat)
    (own : String) :
    Resolution.environment base levels' level own =
      Resolution.environment base levels level own := by
  have hframes : levels'.map Level.frame = levels.map Level.frame := by
    induction h with
    | nil => rfl
    | cons hl _ ih =>
        rw [List.map_cons, List.map_cons, ih, Level.frame, Level.frame, hl.results]
  unfold Resolution.environment
  rw [List.map_reverse, List.map_reverse, List.map_take, List.map_take, hframes]

theorem valueCount_eq (h : LevelsAlike levels levels') :
    Resolution.valueCount levels' = Resolution.valueCount levels := by
  unfold Resolution.valueCount
  induction h with
  | nil => rfl
  | cons hl _ ih =>
      rw [List.map_cons, List.map_cons, List.foldr_cons, List.foldr_cons, ih, hl.valueCount]

theorem record (h : LevelsAlike levels levels') (level : Nat) (name : String)
    (result : Except EvalError Value) :
    LevelsAlike (levels.modify level (Level.record name result))
      (levels'.modify level (Level.record name result)) := by
  induction h generalizing level with
  | nil => simp
  | cons hl hrest ih =>
      cases level with
      | zero =>
          refine .cons ⟨?_, hl.valueNode?, hl.valueCount⟩ hrest
          rw [Level.record, Level.record, hl.results]
      | succ level => exact .cons hl (ih level)

theorem enter (h : LevelsAlike levels levels') {o o' : Object}
    (ho : (Level.ofObject o).Alike (Level.ofObject o')) :
    LevelsAlike (levels ++ [Level.ofObject o]) (levels' ++ [Level.ofObject o']) :=
  List.rel_append h (.cons ho .nil)

theorem leave (h : LevelsAlike levels levels') :
    LevelsAlike levels.dropLast levels'.dropLast := by
  rw [List.dropLast_eq_take, List.dropLast_eq_take, ← List.Forall₂.length_eq h]
  exact List.forall₂_take _ h

end LevelsAlike

namespace Resolution

variable {m : Type → Type} [Monad m] [LawfulMonad m] (host : Host m) (base : Frame)
  {levels levels' : List Level}

theorem together_resolveAll {resolve : Nat → String → Resolution m Value}
    (hresolve : ∀ {levels levels'} level name, LevelsAlike levels levels' →
      Together id (resolve level name) (resolve level name) levels levels')
    (level : Nat) (own : String) (names : List String) (h : LevelsAlike levels levels') :
    Together id (resolveAll resolve level own names) (resolveAll resolve level own names) levels
      levels' := by
  induction names generalizing levels levels' with
  | nil => exact .pure () h
  | cons name names ih =>
      rw [resolveAll]
      refine .get_bind ?_
      rw [h.owner?_eq]
      split
      · exact (hresolve _ name h).bind fun _ _ _ h' => ih h'
      · exact ih h

theorem together_evaluateAt {resolve : Nat → String → Resolution m Value}
    (hresolve : ∀ {levels levels'} level name, LevelsAlike levels levels' →
      Together id (resolve level name) (resolve level name) levels levels')
    (level : Nat) (node : Node) (h : LevelsAlike levels levels') :
    Together id (evaluateAt host base resolve level node) (evaluateAt host base resolve level node)
      levels levels' := by
  unfold evaluateAt
  refine (together_resolveAll hresolve level node.name node.locals h).bind fun _ _ _ h' => ?_
  refine .get_bind ?_
  rw [h'.environment_eq]
  exact .lift _ h'

/-- **The value of a field is the same in levels that are alike.** -/
theorem together_resolve (left : Nat) (active : List (Nat × String)) (level : Nat) (name : String)
    (h : LevelsAlike levels levels') :
    Together id (resolve host base left active level name)
      (resolve host base left active level name) levels levels' := by
  induction left using Nat.strong_induction_on generalizing active level name levels levels' with
  | _ left ih =>
      unfold resolve
      refine .get_bind ?_
      rcases h.slot level with ⟨hslot, hslot'⟩ | ⟨slot, slot', hslot, hslot', halike⟩
      · rw [hslot, hslot']
        exact .throw _ h
      · rw [hslot, hslot']
        dsimp only
        rw [halike.results, halike.valueNode?]
        split
        · exact .of_run h rfl (by rw [Together.mapError_id]; rfl)
        · split
          · exact .throw _ h
          · split
            · exact .throw _ h
            · rename_i node _
              cases left with
              | zero => exact .throw _ h
              | succ left =>
                  have hnode := together_evaluateAt host base
                    (fun level' name' h' => ih left (Nat.lt_succ_self left)
                      ((level, name) :: active) level' name' h') level node h
                  refine hnode.attempt.bind fun result _ _ h' => ?_
                  refine .bind (.modify (h'.record level name result)) fun _ _ _ h'' => ?_
                  exact .of_run h'' rfl (by rw [Together.mapError_id]; rfl)

theorem together_field (name : String) (h : LevelsAlike levels levels') :
    Together id (field host base name) (field host base name) levels levels' := by
  unfold field
  refine .get_bind ?_
  rw [h.valueCount_eq, ← List.Forall₂.length_eq h]
  exact together_resolve host base _ _ _ _ h

/-- **A node has the same value in levels that are alike.** -/
theorem together_evaluate (node : Node) (h : LevelsAlike levels levels') :
    Together id (evaluate host base node) (evaluate host base node) levels levels' := by
  unfold evaluate
  refine .get_bind ?_
  rw [h.valueCount_eq, ← List.Forall₂.length_eq h]
  exact together_evaluateAt host base (fun _ _ h' => together_resolve host base _ _ _ _ h') _ node h

end Resolution

end ConfigLang
