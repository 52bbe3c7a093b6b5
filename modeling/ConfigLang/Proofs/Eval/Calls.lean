import Mathlib
import ConfigLang.Proofs.Expand.Convention

/-!
# Expressions whose parts have values

The value of an expression is found from the values of its parts: an operator is applied to those of
its operands (`Expr.result_unary`, `Expr.result_binary`), and a function runs in a scope where its
parameters are bound to those of its arguments, one by one (`Expr.result_call_plain`) or all
together (`Expr.result_call_rest`).
-/

namespace ConfigLang

open Running

/-! ## Functions in a scope of their own -/

namespace Builtin

variable {m : Type → Type} [Monad m] [LawfulMonad m] {arguments : Frame}

/-- Parameters that are bound need no defaults. -/
theorem fillDefaults_of_bound (function : String) {params : List Parameter}
    (hall : ∀ p ∈ params, arguments.contains p.name = true) (env : Environment) :
    (fillDefaults (m := m) function params).run.run (env.push arguments) =
      pure (.ok (), env.push arguments) := by
  induction params with
  | nil => rfl
  | cons p params ih =>
      obtain ⟨hp, hparams⟩ := List.forall_mem_cons.mp hall
      have hcurrent : (env.push arguments).current = arguments := rfl
      rw [fillDefaults, run_bind, run_get, pure_bind]
      simp only [hcurrent, hp, ↓reduceIte]
      exact ih hparams

/-- A call that binds all parameters runs the function in a scope of them. -/
theorem run_call_of_bound (b : Builtin) (host : Host m)
    (hall : ∀ p ∈ b.params, arguments.contains p.name = true) (env : Environment) :
    (b.call host arguments).run.run env =
      (·, env) <$> (b.run host ⟨b.name, env.push arguments⟩).run := by
  rw [call, Evaluation.run_inScope, run_bind, fillDefaults_of_bound b.name hall, pure_bind]
  simp only [run_bind, run_get, pure_bind, Evaluation.run_lift, map_bind, map_pure]
  rw [map_eq_pure_bind]
  rfl

end Builtin

namespace Expr

variable {host : Host Id} {env : Environment} {e e₁ e₂ : Expr} {a b : Value}

/-- What an expression comes to in an environment, with a host whose answers do not change. -/
def result (host : Host Id) (env : Environment) (e : Expr) : Except EvalError Value :=
  Id.run (e.evaluate host env).run

theorem result_of_run {r : Except EvalError Value}
    (h : (e.eval host).run.run env = pure (r, env)) : e.result host env = r := by
  rw [result, evaluate, h]
  rfl

/-! ## Operators -/

theorem result_unary (h : e.result host env = .ok a) (op : UnaryOp) :
    (unary op e).result host env = a.unary op := by
  refine result_of_run ?_
  rw [eval, run_bind, run_eval_of_ok h, pure_bind]
  rfl

/-- The operators that look at both operands, whatever the first is. -/
theorem result_binary (h₁ : e₁.result host env = .ok a) (h₂ : e₂.result host env = .ok b)
    {op : BinaryOp} (hand : op ≠ .and) (hor : op ≠ .or) :
    (binary op e₁ e₂).result host env = a.binary op b := by
  refine result_of_run ?_
  rw [eval, run_bind, run_eval_of_ok h₁, pure_bind]
  dsimp only
  split
  · contradiction
  · contradiction
  · rw [run_bind, run_eval_of_ok h₂, pure_bind]
    rfl

/-! ## Arguments -/

/-- Expressions have these values, one by one. -/
def HaveValues (host : Host Id) (env : Environment) (es : List Expr) (vs : List Value) : Prop :=
  List.Forall₂ (fun e v => e.result host env = .ok v) es vs

/-- The value of an expression that has one. -/
def value (host : Host Id) (env : Environment) (e : Expr) : Value :=
  (e.result host env).toOption.getD .null

section

variable {es : List Expr} {vs : List Value}

theorem HaveValues.values (h : HaveValues host env es vs) :
    (∀ e ∈ es, e.result host env = .ok (e.value host env)) ∧ es.map (value host env) = vs := by
  have hvalue {e : Expr} {v : Value} (h : e.result host env = .ok v) : e.value host env = v := by
    rw [value, h]
    rfl
  induction h with
  | nil => exact ⟨nofun, rfl⟩
  | cons he _ ih =>
      refine ⟨List.forall_mem_cons.mpr ⟨by rw [hvalue he, he], ih.1⟩, ?_⟩
      rw [List.map_cons, hvalue he, ih.2]

theorem HaveValues.run_evaluated (h : HaveValues host env es vs) :
    (ArgumentList.evaluated host ⟨es, []⟩).run.run env = pure (.ok ⟨vs, []⟩, env) := by
  obtain ⟨hes, hvs⟩ := h.values
  have hall : ∀ e ∈ ArgumentList.values ⟨es, []⟩,
      Id.run (e.evaluate host env).run = .ok (e.value host env) :=
    List.forall_mem_append.mpr ⟨hes, nofun⟩
  rw [run_evaluated_of_ok hall, ArgumentList.map, hvs]
  rfl

/-- Of two computations with like results, one gives what is like the result of the other. -/
theorem exists_run_of_map_eq {α β γ : Type} {x : Evaluation Id α} {y : Evaluation Id β}
    {f : α → γ} {g : β → γ} {b : β} (h : f <$> x = g <$> y)
    (hy : y.run.run env = pure (.ok b, env)) :
    ∃ a, x.run.run env = pure (.ok a, env) ∧ f a = g b := by
  have hrun := congrArg (fun z : Evaluation Id γ => Id.run (z.run.run env)) h
  simp only [ExceptT.run_map, StateT.run_map, hy] at hrun
  generalize x.run.run env = out at hrun ⊢
  obtain ⟨r, after⟩ := out
  obtain ⟨hr, rfl⟩ := Prod.mk.inj hrun
  obtain ⟨a, rfl, ha⟩ := map_eq_ok hr
  exact ⟨a, rfl, ha⟩

/-! ## Calls -/

/-- A call that binds all parameters of a function runs it in a scope of these. -/
theorem result_call {f : Builtin} {args : List (Argument Expr)} {frame : Frame}
    (hname : Builtin.ofName? f.name = some f)
    (hbind : ∃ bound : Binder,
      (bindArgs host f.name f.params args.length .empty args).run.run env = pure (.ok bound, env) ∧
        bound.toFrame = frame)
    (hall : ∀ p ∈ f.params, p.name ∈ Keyed.keys frame.bindings) (pos : Position) :
    (call f.name args pos).result host env =
      Id.run (f.run host ⟨f.name, env.push frame⟩).run := by
  obtain ⟨bound, hbound, rfl⟩ := hbind
  have hrun : ((call f.name args pos).eval host).run.run env =
      (·, env) <$> (f.run host ⟨f.name, env.push bound.toFrame⟩).run := by
    rw [eval]
    simp only [hname]
    rw [run_bind_ok hbound]
    exact Builtin.run_call_of_bound f host (fun p hp => Keyed.contains_iff.mpr (hall p hp)) env
  rw [result, evaluate, hrun]
  rfl

theorem toList_positional (es : List Expr) :
    ArgumentList.toList ⟨es, []⟩ = es.map (⟨none, ·⟩) :=
  List.append_nil _

variable {name : String} {run : Call → Except EvalError Value}

/-- Arguments without keywords are bound to the parameters of a function one by one. -/
theorem result_call_plain {params : List Parameter}
    (hname : Builtin.ofName? name = some (.plain name params run))
    (hnames : (params.map (·.name)).Nodup) (hplain : ∀ p ∈ params, p.variadic = false)
    (hes : HaveValues host env es vs) (hlength : es.length = params.length) (pos : Position) :
    (call name (es.map (⟨none, ·⟩)) pos).result host env =
      run ⟨name, env.push ⟨(params.map (·.name)).zip vs⟩⟩ := by
  have hvs : (params.map (·.name)).length ≤ vs.length := by
    rw [List.length_map, ← hlength, hes.length_eq]
  have hfits : ArgumentList.Fits (params.map (·.name)) ⟨es, []⟩ :=
    ⟨open_nil, by rw [List.length_map]; exact hlength.le⟩
  refine result_call (f := .plain name params run) hname ?_ ?_ pos
  · obtain ⟨bound, hbound, hframe⟩ :=
      exists_run_of_map_eq (bindArgs_of_fits hnames hplain hfits) hes.run_evaluated
    rw [toList_positional] at hbound
    exact ⟨bound, hbound, hframe.trans (congrArg Frame.mk (List.append_nil _))⟩
  · intro p hp
    rw [Keyed.keys_zip, List.take_of_length_le hvs]
    exact List.mem_map_of_mem hp

/-- The arguments of a call give these values to a variadic parameter, one by one or in a slice
under its name. -/
inductive Gathers (host : Host Id) (env : Environment) (rest : String) :
    List (Argument Expr) → List Value → Prop where
  | each {es : List Expr} {vs : List Value} (h : HaveValues host env es vs) :
      Gathers host env rest (es.map (⟨none, ·⟩)) vs
  | slice {e : Expr} {vs : List Value} (h : e.result host env = .ok (.slice vs)) :
      Gathers host env rest [⟨some rest, e⟩] vs

theorem Gathers.exists_bindArgs {rest : String} {args : List (Argument Expr)}
    (h : Gathers host env rest args vs) (hne : vs ≠ []) (function : String) :
    ∃ bound : Binder,
      (bindArgs host function [.rest rest] args.length .empty args).run.run env =
        pure (.ok bound, env) ∧ bound.toFrame = ⟨[(rest, .slice vs)]⟩ := by
  cases h with
  | @each es _ hes =>
      have hnames : (([] ++ [Parameter.rest rest]).map Parameter.name).Nodup :=
        List.nodup_singleton _
      obtain ⟨bound, hbound, hframe⟩ := exists_run_of_map_eq
        (bindArgs_of_open (a := ⟨es, []⟩) hnames nofun rfl open_nil) hes.run_evaluated
      rw [toList_positional] at hbound
      refine ⟨bound, hbound, ?_⟩
      rw [hframe, ArgumentList.collected]
      simp [Parameter.rest, List.length_pos_iff.mpr hne]
  | @slice e _ he =>
      have hbind : Binder.bind [.rest rest] 1 (some rest) (.slice vs) .empty =
          .ok ⟨⟨[(rest, .slice vs)]⟩, 0, none⟩ := by
        simp [Binder.bind, Binder.keyword, Parameter.rest]
        rfl
      refine ⟨⟨⟨[(rest, .slice vs)]⟩, 0, none⟩, ?_, rfl⟩
      rw [List.length_singleton, bindArgs, run_bind, run_eval_of_ok he, pure_bind]
      simp only [hbind]
      rfl

/-- A variadic parameter is bound to all the values that it is given, if there is one. -/
theorem result_call_rest {rest : String} {args : List (Argument Expr)}
    (hname : Builtin.ofName? name = some (.plain name [.rest rest] run))
    (hargs : Gathers host env rest args vs) (hne : vs ≠ []) (pos : Position) :
    (call name args pos).result host env = run ⟨name, env.push ⟨[(rest, .slice vs)]⟩⟩ :=
  result_call (f := .plain name [.rest rest] run) hname (hargs.exists_bindArgs hne name)
    (List.forall_mem_singleton.mpr List.mem_cons_self) pos

end

end Expr

end ConfigLang
