import Mathlib

/-!
# Running computations that keep a state and may fail

The evaluator, the resolver and the projection are all computations in
`ExceptT ε (StateT σ m)`: what is done to the state before a failure stays done.
The lemmas below say what each way of building such a computation does when it
is run from a state, so that no proof has to open the transformers.

Parsers only fail; a sequence of them that succeeds is taken apart by `bind_eq_ok`.

Where the state is of no interest after a failure, `commit` takes it for a result that
a computation without a state gives.
-/

namespace ConfigLang.Running

theorem bind_eq_ok {ε α β : Type} {x : Except ε α} {f : α → Except ε β} {b : β}
    (h : x >>= f = .ok b) : ∃ a, x = .ok a ∧ f a = .ok b := by
  cases x with
  | error e => cases h
  | ok a => exact ⟨a, rfl, h⟩

theorem ok_bind {ε α β : Type} (a : α) (f : α → Except ε β) : (.ok a >>= f) = f a :=
  rfl

theorem map_eq_ok {ε α β : Type} {f : α → β} {x : Except ε α} {b : β} (h : x.map f = .ok b) :
    ∃ a, x = .ok a ∧ f a = b := by
  cases x with
  | error e => cases h
  | ok a =>
      cases h
      exact ⟨a, rfl, rfl⟩

/-- A computation whose result passes a test has a result. -/
theorem exists_of_any {ε α : Type} {x : Except ε α} {p : α → Bool}
    (h : x.toOption.any p = true) : ∃ a, x = .ok a ∧ p a = true := by
  cases x with
  | error e => cases h
  | ok a => exact ⟨a, rfl, h⟩

theorem exists_of_any_run {ε σ α : Type} {x : ExceptT ε (StateM σ) α} {p : α → Bool} {s : σ}
    (h : (x.run.run s).1.toOption.any p = true) :
    ∃ a s', x.run.run s = (.ok a, s') ∧ p a = true := by
  obtain ⟨a, ha, hp⟩ := exists_of_any h
  exact ⟨a, (x.run.run s).2, Prod.ext ha rfl, hp⟩

variable {ε σ : Type} {m : Type → Type} [Monad m] {α β : Type}

theorem run_bind (x : ExceptT ε (StateT σ m) α) (f : α → ExceptT ε (StateT σ m) β) (s : σ) :
    (x >>= f).run.run s = x.run.run s >>= fun out =>
      match out with
      | (.ok a, s') => (f a).run.run s'
      | (.error e, s') => pure (.error e, s') := by
  rw [ExceptT.run_bind, StateT.run_bind]
  congr 1
  funext out
  obtain ⟨r, s'⟩ := out
  cases r <;> rfl

theorem run_get [LawfulMonad m] (s : σ) :
    (get : ExceptT ε (StateT σ m) σ).run.run s = pure (.ok s, s) := by
  change (StateT.get s >>= fun out => pure (Except.ok out.1, out.2)) = _
  simp [StateT.get]

theorem run_modify [LawfulMonad m] (f : σ → σ) (s : σ) :
    (modify f : ExceptT ε (StateT σ m) PUnit).run.run s = pure (.ok ⟨⟩, f s) := by
  change (StateT.modifyGet (fun s => (PUnit.unit, f s)) s >>=
    fun out => pure (Except.ok out.1, out.2)) = _
  simp [StateT.modifyGet]

/-- A failure becomes a result. -/
theorem run_attempt (x : ExceptT ε (StateT σ m) α) (s : σ) :
    (ExceptT.mk (do return .ok (← x.run)) : ExceptT ε (StateT σ m) (Except ε α)).run.run s =
      x.run.run s >>= fun out => pure (.ok out.1, out.2) := rfl

theorem run_adapt [LawfulMonad m] {ε' : Type} (f : ε → ε') (x : ExceptT ε (StateT σ m) α) (s : σ) :
    (x.adapt f).run.run s = x.run.run s >>= fun out => pure (out.1.mapError f, out.2) := by
  change (Except.mapError f <$> x.run).run s = _
  rw [StateT.run_map, map_eq_pure_bind]

/-! ## Naming errors anew -/

section

variable {ε' : Type} [LawfulMonad m]

theorem adapt_pure (f : ε → ε') (a : α) :
    (pure a : ExceptT ε m α).adapt f = pure a := by
  apply ExceptT.ext
  exact map_pure (f := m) (Except.mapError f) (Except.ok a)

theorem adapt_throw (f : ε → ε') (e : ε) :
    (throw e : ExceptT ε m α).adapt f = throw (f e) := by
  apply ExceptT.ext
  exact map_pure (f := m) (Except.mapError f) (Except.error e)

theorem adapt_bind (f : ε → ε') (x : ExceptT ε m α) (k : α → ExceptT ε m β) :
    (x >>= k).adapt f = x.adapt f >>= fun a => (k a).adapt f := by
  apply ExceptT.ext
  change Except.mapError f <$> (x >>= k).run = (x.adapt f >>= fun a => (k a).adapt f).run
  rw [ExceptT.run_bind, ExceptT.run_bind, map_bind]
  change _ = Except.mapError f <$> x.run >>= _
  rw [bind_map_left]
  refine congrArg (x.run >>= ·) (funext fun r => ?_)
  cases r with
  | ok a => rfl
  | error e => exact map_pure _ _

end

/-! ## What every result has -/

/-- Every result of a computation has a property: the computation may as well give its results
together with a proof. -/
def Ensures (x : ExceptT ε m α) (P : α → Prop) : Prop :=
  ∃ y : ExceptT ε m {a // P a}, x = Subtype.val <$> y

namespace Ensures

variable [LawfulMonad m] {x : ExceptT ε m α} {P P' : α → Prop} {Q : β → Prop}

theorem pure {a : α} (h : P a) : Ensures (Pure.pure a : ExceptT ε m α) P :=
  ⟨Pure.pure ⟨a, h⟩, by simp⟩

theorem throw (e : ε) : Ensures (throw e : ExceptT ε m α) P :=
  ⟨ExceptT.mk (Pure.pure (.error e)), by
    apply ExceptT.ext
    simp⟩

theorem intro (h : ∀ a, P a) : Ensures x P :=
  ⟨(fun a => ⟨a, h a⟩) <$> x, by simp⟩

theorem bind {f : α → ExceptT ε m β} (hx : Ensures x P) (hf : ∀ a, P a → Ensures (f a) Q) :
    Ensures (x >>= f) Q := by
  obtain ⟨y, rfl⟩ := hx
  choose z hz using hf
  refine ⟨y >>= fun a => z a.1 a.2, ?_⟩
  rw [bind_map_left, map_bind]
  exact congrArg (y >>= ·) (funext fun a => hz a.1 a.2)

/-- What follows a computation matters for the results that it has. -/
theorem bind_congr {f g : α → ExceptT ε m β} (hx : Ensures x P) (h : ∀ a, P a → f a = g a) :
    x >>= f = x >>= g := by
  obtain ⟨y, rfl⟩ := hx
  rw [bind_map_left, bind_map_left]
  exact congrArg (y >>= ·) (funext fun a => h a.1 a.2)

/-- Nothing need be known of the first of two computations. -/
theorem bind_of {f : α → ExceptT ε m β} (hf : ∀ a, Ensures (f a) Q) : Ensures (x >>= f) Q :=
  (intro fun _ => True.intro).bind fun a _ => hf a

theorem mono (hx : Ensures x P) (h : ∀ a, P a → P' a) : Ensures x P' := by
  obtain ⟨y, rfl⟩ := hx
  exact ⟨(fun a => ⟨a.1, h a.1 a.2⟩) <$> y, by simp⟩

theorem of_except {r : Except ε α} (h : ∀ a, r = .ok a → P a) :
    Ensures (ExceptT.mk (Pure.pure r) : ExceptT ε m α) P := by
  cases r with
  | ok a => exact pure (h a rfl)
  | error e => exact throw e

theorem adapt {ε' : Type} (f : ε → ε') (hx : Ensures x P) : Ensures (x.adapt f) P := by
  obtain ⟨y, rfl⟩ := hx
  refine ⟨y.adapt f, ?_⟩
  apply ExceptT.ext
  change Except.mapError f <$> (Subtype.val <$> y).run = (Subtype.val <$> y.adapt f).run
  rw [ExceptT.run_map, ExceptT.run_map, Functor.map_map]
  change _ = Except.map Subtype.val <$> (Except.mapError f <$> y.run)
  rw [Functor.map_map]
  refine congrArg (· <$> y.run) (funext fun r => ?_)
  cases r <;> rfl

end Ensures

theorem Ensures.of_run {x : ExceptT ε (StateM σ) α} {P : α → Prop} {a : α} {s s' : σ}
    (hx : Ensures x P) (h : x.run.run s = (.ok a, s')) : P a := by
  obtain ⟨y, rfl⟩ := hx
  rw [ExceptT.run_map, StateT.run_map] at h
  change ((fun out => (Except.map Subtype.val out.1, out.2)) (y.run.run s)) = _ at h
  cases hy : y.run.run s with
  | mk r after =>
      rw [hy] at h
      cases r with
      | error e => cases h
      | ok b =>
          cases h
          exact b.2

/-! ## Runs of a sequence -/

/-- Without a state only the failure is left. -/
theorem run_bind_id (x : ExceptT ε Id α) (f : α → ExceptT ε Id β) :
    (x >>= f).run.run = x.run.run >>= fun a => (f a).run.run := by
  rw [ExceptT.run_bind, Id.run_bind]
  cases x.run.run <;> rfl

theorem run_bind_id_ok {x : ExceptT ε Id α} {f : α → ExceptT ε Id β} {a : α}
    (h : x.run.run = .ok a) : (x >>= f).run.run = (f a).run.run := by
  rw [run_bind_id, h]
  rfl

theorem run_adapt_id {ε' : Type} (f : ε → ε') (x : ExceptT ε Id α) :
    (x.adapt f).run.run = x.run.run.mapError f :=
  rfl

/-- Every result is one that there is. -/
theorem ensures_run (x : ExceptT ε Id α) : Ensures x fun a => x.run.run = .ok a :=
  .of_except fun _ h => h

theorem Ensures.of_run_id {x : ExceptT ε Id α} {P : α → Prop} {a : α} (hx : Ensures x P)
    (h : x.run.run = .ok a) : P a := by
  obtain ⟨y, rfl⟩ := hx
  rw [ExceptT.run_map] at h
  obtain ⟨b, -, rfl⟩ := map_eq_ok h
  exact b.2

section

variable {x : ExceptT ε (StateM σ) α} {f : α → ExceptT ε (StateM σ) β} {s s' : σ}

theorem run_bind_ok {a : α} (h : x.run.run s = (.ok a, s')) :
    (x >>= f).run.run s = (f a).run.run s' := by
  rw [run_bind, h]
  rfl

theorem run_bind_error {e : ε} (h : x.run.run s = (.error e, s')) :
    (x >>= f).run.run s = (.error e, s') := by
  rw [run_bind, h]
  rfl

theorem run_bind_eq_ok {b : β} (h : (x >>= f).run.run s = (.ok b, s')) :
    ∃ a s₁, x.run.run s = (.ok a, s₁) ∧ (f a).run.run s₁ = (.ok b, s') := by
  cases hx : x.run.run s with
  | mk r s₁ =>
      cases r with
      | error e =>
          rw [run_bind_error hx] at h
          cases h
      | ok a =>
          rw [run_bind_ok hx] at h
          exact ⟨a, s₁, rfl, h⟩

theorem run_ext {y : ExceptT ε (StateM σ) α} (h : ∀ s, x.run.run s = y.run.run s) : x = y :=
  ExceptT.ext (funext h)

theorem run_liftM_eq_ok {y : StateM σ α} {a : α} :
    (liftM y : ExceptT ε (StateM σ) α).run.run s = (.ok a, s') ↔ y.run s = (a, s') := by
  have hlift : (liftM y : ExceptT ε (StateM σ) α).run.run s = (.ok (y.run s).1, (y.run s).2) := by
    change (Except.ok <$> y).run s = _
    rw [StateT.run_map]
    rfl
  rw [hlift, Prod.mk.injEq, Except.ok.injEq, Prod.ext_iff]

end

/-! ## Runs that fail as a whole -/

section

/-- Runs a computation from a state, which it gives back unless it fails. -/
def commit (x : ExceptT ε (StateT σ m) α) (s : σ) : ExceptT ε m (α × σ) :=
  ExceptT.mk do
    let out ← x.run.run s
    return out.1.map (·, out.2)

variable [LawfulMonad m]

theorem throw_bind (e : ε) (f : α → ExceptT ε m β) : (throw e : ExceptT ε m α) >>= f = throw e := by
  apply ExceptT.ext
  exact pure_bind _ _

theorem commit_pure (a : α) (s : σ) :
    commit (pure a : ExceptT ε (StateT σ m) α) s = pure (a, s) := by
  apply ExceptT.ext
  exact pure_bind _ _

theorem commit_bind (x : ExceptT ε (StateT σ m) α) (f : α → ExceptT ε (StateT σ m) β) (s : σ) :
    commit (x >>= f) s = commit x s >>= fun out => commit (f out.1) out.2 := by
  apply ExceptT.ext
  rw [ExceptT.run_bind]
  unfold commit
  rw [ExceptT.run_mk, ExceptT.run_mk, run_bind, bind_assoc, bind_assoc]
  refine congrArg (_ >>= ·) (funext fun out => ?_)
  obtain ⟨r, s'⟩ := out
  cases r with
  | ok a =>
      rw [pure_bind]
      rfl
  | error e =>
      rw [pure_bind, pure_bind]
      rfl

theorem commit_get (s : σ) : commit (get : ExceptT ε (StateT σ m) σ) s = pure (s, s) := by
  apply ExceptT.ext
  unfold commit
  rw [ExceptT.run_mk, run_get, pure_bind]
  rfl

theorem commit_modify (f : σ → σ) (s : σ) :
    commit (modify f : ExceptT ε (StateT σ m) PUnit) s = pure (⟨⟩, f s) := by
  apply ExceptT.ext
  unfold commit
  rw [ExceptT.run_mk, run_modify, pure_bind]
  rfl

theorem commit_adapt {ε' : Type} (f : ε → ε') (x : ExceptT ε (StateT σ m) α) (s : σ) :
    commit (x.adapt f) s = (commit x s).adapt f := by
  apply ExceptT.ext
  change _ = Except.mapError f <$> (commit x s).run
  unfold commit
  rw [ExceptT.run_mk, ExceptT.run_mk, run_adapt, bind_assoc, map_bind]
  refine congrArg (_ >>= ·) (funext fun out => ?_)
  rw [pure_bind, map_pure]
  obtain ⟨r, s'⟩ := out
  cases r <;> rfl

theorem commit_of_run {x : ExceptT ε (StateT σ m) α} {r : Except ε α} {before after : σ}
    (h : x.run.run before = pure (r, after)) :
    commit x before = ExceptT.mk (pure (r.map (·, after))) := by
  apply ExceptT.ext
  unfold commit
  rw [ExceptT.run_mk, h, pure_bind]
  rfl

/-- What is done to the state after a failure is lost with it. -/
theorem commit_of_run_bind {x y : ExceptT ε (StateT σ m) α} {s : σ} (g : Except ε α → σ → σ)
    (h : x.run.run s = y.run.run s >>= fun out => pure (out.1, g out.1 out.2)) :
    commit x s = commit y s >>= fun out => pure (out.1, g (.ok out.1) out.2) := by
  apply ExceptT.ext
  rw [ExceptT.run_bind]
  unfold commit
  rw [ExceptT.run_mk, ExceptT.run_mk, h, bind_assoc, bind_assoc]
  refine congrArg (_ >>= ·) (funext fun out => ?_)
  obtain ⟨r, s'⟩ := out
  rw [pure_bind, pure_bind]
  cases r <;> rfl

/-- The result of a run is the result of the whole. -/
theorem fst_commit (x : ExceptT ε (StateT σ m) α) (s : σ) :
    ExceptT.mk (do return (← x.run.run s).1) = Prod.fst <$> commit x s := by
  apply ExceptT.ext
  unfold commit
  rw [ExceptT.run_map, ExceptT.run_mk, ExceptT.run_mk, map_bind]
  refine congrArg (_ >>= ·) (funext fun out => ?_)
  rw [map_pure]
  obtain ⟨r, s'⟩ := out
  cases r <;> rfl

end

end ConfigLang.Running
