import Mathlib
import ConfigLang.Proofs.Eval.Parameters
import ConfigLang.Proofs.Keyed

/-!
# What an expression reads

`Expr.eval_sameIn` says that evaluating an expression looks at nothing but the
variables that the expression names, and leaves the environment as it was.  Both
halves are one statement, `Evaluation.SameIn`, about a computation in two
environments: it has the same outcome in both, and gives each of them back.  The
relation is kept by sequencing, so the induction over an expression has one step
for each construct.

Two things make a call fit in.  Its arguments are evaluated in the scope of the
caller, where the induction applies; and what follows runs in a scope of its own,
of which filling in defaults reads and changes the innermost frame alone
(`fillDefaults_push`).  The function looks names up in all frames, but then its
parameters are all bound in the innermost one (`agree_push`).
-/

namespace ConfigLang

namespace Evaluation

variable {m : Type → Type} [Monad m] {α β : Type} {env env' : Environment}

/-- The outcome of a computation is the same in two environments, and it leaves each of them as
it was. -/
def SameIn (env env' : Environment) (x : Evaluation m α) : Prop :=
  ∃ y : m (Except EvalError α),
    x.run.run env = (·, env) <$> y ∧ x.run.run env' = (·, env') <$> y

theorem run_settled (r : Except EvalError α) (env : Environment) :
    (settled r : Evaluation m α).run.run env = pure (r, env) := rfl

theorem run_lift (x : ExceptT EvalError m α) (env : Environment) :
    (lift x : Evaluation m α).run.run env = x.run >>= fun r => pure (r, env) := rfl

variable [LawfulMonad m]

theorem run_inScope (frame : Frame) (x : Evaluation m α) (env : Environment) :
    (inScope frame x).run.run env =
      (fun out => (out.1, out.2.pop.2)) <$> x.run.run (env.push frame) := by
  simp [inScope]

theorem SameIn.settled (r : Except EvalError α) : SameIn (m := m) env env' (.settled r) :=
  ⟨Pure.pure r, by simp [Evaluation.settled], by simp [Evaluation.settled]⟩

theorem SameIn.pure (a : α) : SameIn (m := m) env env' (pure a) :=
  .settled (.ok a)

theorem SameIn.throw (e : EvalError) : SameIn (m := m) (α := α) env env' (throw e) :=
  .settled (.error e)

theorem SameIn.read {f : Environment → Except EvalError α} (h : f env = f env') :
    SameIn (m := m) env env' (.read f) :=
  ⟨Pure.pure (f env), by simp [Evaluation.read], by simp [Evaluation.read, h]⟩

private theorem run_bind_of_run {x : Evaluation m α} {f : α → Evaluation m β}
    {y : m (Except EvalError α)} {z : α → m (Except EvalError β)}
    (hx : x.run.run env = (·, env) <$> y) (hf : ∀ a, (f a).run.run env = (·, env) <$> z a) :
    (x >>= f).run.run env = (·, env) <$> (y >>= fun r =>
      match r with
      | .ok a => z a
      | .error e => Pure.pure (.error e)) := by
  rw [Running.run_bind, hx, map_bind, bind_map_left]
  congr 1
  funext r
  cases r with
  | ok a => exact hf a
  | error e => simp

theorem SameIn.bind {x : Evaluation m α} {f : α → Evaluation m β} (hx : SameIn env env' x)
    (hf : ∀ a, SameIn env env' (f a)) : SameIn env env' (x >>= f) := by
  obtain ⟨y, hy, hy'⟩ := hx
  choose z hz hz' using hf
  exact ⟨_, run_bind_of_run hy hz, run_bind_of_run hy' hz'⟩

end Evaluation

open Evaluation Running

/-! ## Calls -/

theorem Frame.contains_define {name key : String} {value : Value} {f : Frame} :
    (f.define key value).contains name = true ↔ name = key ∨ f.contains name = true := by
  change (Keyed.get? (Keyed.put key value f.bindings) name).isSome = true ↔ _
  rw [Keyed.get?_put]
  split
  · exact iff_of_true rfl (.inl (by assumption))
  · rename_i hne
    exact (or_iff_right hne).symm

namespace Builtin

variable {m : Type → Type} [Monad m] [LawfulMonad m] {env env' : Environment}

/-- Filling in defaults reads and changes the innermost frame alone, where all parameters are bound
if that has no error. -/
theorem fillDefaults_push (function : String) (params : List Parameter) (frame : Frame) :
    ∃ (r : Except EvalError Unit) (filled : Frame),
      (∀ name, frame.contains name = true → filled.contains name = true) ∧
      (r = .ok () → ∀ p ∈ params, filled.contains p.name = true) ∧
      ∀ env : Environment, (fillDefaults (m := m) function params).run.run (env.push frame) =
        pure (r, env.push filled) := by
  induction params generalizing frame with
  | nil => exact ⟨.ok (), frame, fun _ => id, fun _ => nofun, fun env => rfl⟩
  | cons p params ih =>
      have hcurrent : ∀ env : Environment, (env.push frame).current = frame := fun env => rfl
      have hdefine : ∀ (env : Environment) (value : Value),
          (env.push frame).define p.name value = env.push (frame.define p.name value) :=
        fun env value => rfl
      by_cases hbound : frame.contains p.name = true
      · -- an argument was given
        obtain ⟨r, filled, hkeeps, hall, h⟩ := ih frame
        refine ⟨r, filled, hkeeps, ?_, ?_⟩
        · intro hr
          exact List.forall_mem_cons.mpr ⟨hkeeps _ hbound, hall hr⟩
        · intro env
          rw [← h env, fillDefaults, run_bind, run_get, pure_bind]
          simp only [hcurrent, hbound, ↓reduceIte]
      · cases hvalue : p.fallback function with
        | error e =>
            refine ⟨.error e, frame, fun _ => id, nofun, ?_⟩
            intro env
            rw [fillDefaults, run_bind, run_get, pure_bind]
            simp only [hcurrent, hbound, hvalue, run_bind, run_settled, pure_bind,
              Bool.false_eq_true, ↓reduceIte]
        | ok value =>
            obtain ⟨r, filled, hkeeps, hall, h⟩ := ih (frame.define p.name value)
            have hdefined {name : String} (hname : name = p.name ∨ frame.contains name = true) :
                filled.contains name = true :=
              hkeeps name (Frame.contains_define.mpr hname)
            refine ⟨r, filled, fun name hname => hdefined (.inr hname), ?_, ?_⟩
            · intro hr
              exact List.forall_mem_cons.mpr ⟨hdefined (.inl rfl), hall hr⟩
            · intro env
              rw [← h env, fillDefaults, run_bind, run_get, pure_bind]
              simp only [hcurrent, hbound, hvalue, run_bind, run_settled, run_modify, hdefine,
                pure_bind, Bool.false_eq_true, ↓reduceIte]

/-- What the innermost scope binds is found there. -/
theorem resolve_push {filled : Frame} {name : String} {value : Value}
    (h : filled.get? name = some value) (env : Environment) :
    (env.push filled).resolve name = .ok value := by
  rw [Environment.resolve, Environment.lookup, Environment.push, List.cons_append,
    List.findSome?_cons, h]

/-- Calls with the same arguments agree on the parameters, if all of them are bound. -/
theorem agree_push {b : Builtin} {filled : Frame}
    (hall : ∀ p ∈ b.params, filled.contains p.name = true) (env env' : Environment) :
    Call.Agree (b.params.map Parameter.name) ⟨b.name, env.push filled⟩
      ⟨b.name, env'.push filled⟩ := by
  refine ⟨rfl, ?_⟩
  intro name hname
  obtain ⟨p, hp, rfl⟩ := List.mem_map.mp hname
  obtain ⟨value, hvalue⟩ := Option.isSome_iff_exists.mp (hall p hp)
  exact (resolve_push hvalue env).trans (resolve_push hvalue env').symm

/-- A call reads nothing of the scope that it is made in. -/
theorem call_sameIn {b : Builtin} (hb : b ∈ table) (host : Host m) (arguments : Frame) :
    SameIn env env' (b.call host arguments) := by
  obtain ⟨r, filled, -, hall, h⟩ := fillDefaults_push (m := m) b.name b.params arguments
  let outcome : m (Except EvalError Value) :=
    match r with
    | .ok () => (b.run host ⟨b.name, env.push filled⟩).run
    | .error e => pure (.error e)
  have hrun (env₀ : Environment) :
      (b.call host arguments).run.run env₀ = (·, env₀) <$> outcome := by
    have hbody : (do
        fillDefaults b.name b.params
        Evaluation.lift (b.run host ⟨b.name, ← get⟩)).run.run (env₀.push arguments) =
        (·, env₀.push filled) <$> outcome := by
      rw [run_bind, h env₀, pure_bind]
      cases r with
      | error e => simp [outcome]
      | ok u =>
          have hown := readsOwn_of_mem_table b hb host _ _ (agree_push (hall rfl) env₀ env)
          simp only [run_bind, run_get, pure_bind, run_lift, map_eq_pure_bind, hown]
          rfl
    rw [call, run_inScope, hbody]
    simp [Environment.push, Environment.pop]
  exact ⟨outcome, hrun env, hrun env'⟩

end Builtin

/-! ## The variables of an expression -/

namespace Expr

mutual

/-- Whether an expression names a variable of a scope. -/
def Reads (scope : VarScope) (name : String) : Expr → Prop
  | literal .. => False
  | var s n _ => s = scope ∧ n = name
  | unary _ operand => operand.Reads scope name
  | binary _ left right => left.Reads scope name ∨ right.Reads scope name
  | ternary condition yes no =>
    condition.Reads scope name ∨ yes.Reads scope name ∨ no.Reads scope name
  | array items => ReadsList scope name items
  | index target i => target.Reads scope name ∨ i.Reads scope name
  | call _ args _ => ReadsArgs scope name args

/-- Whether one of some expressions names a variable of a scope. -/
def ReadsList (scope : VarScope) (name : String) : List Expr → Prop
  | [] => False
  | item :: items => item.Reads scope name ∨ ReadsList scope name items

/-- Whether one of some arguments names a variable of a scope. -/
def ReadsArgs (scope : VarScope) (name : String) : List (Argument Expr) → Prop
  | [] => False
  | ⟨_, value⟩ :: args => value.Reads scope name ∨ ReadsArgs scope name args

end

theorem mem_addName {name new : String} {names : List String} :
    name ∈ addName new names ↔ name ∈ names ∨ new = name := by
  unfold addName
  split
  · rename_i hmem
    constructor
    · exact Or.inl
    · rintro (h | rfl)
      · exact h
      · exact hmem
  · simp [eq_comm]

mutual

theorem mem_collectLocals {name : String} {names : List String} : ∀ e : Expr,
    name ∈ e.collectLocals names ↔ name ∈ names ∨ e.Reads .enclosing name
  | literal .. => by simp [collectLocals, Reads]
  | var .enclosing _ _ => by simp [collectLocals, Reads, mem_addName]
  | var .base _ _ => by simp [collectLocals, Reads]
  | unary _ operand => by rw [collectLocals, mem_collectLocals operand, Reads]
  | binary _ left right => by
    rw [collectLocals, mem_collectLocals right, mem_collectLocals left, Reads, or_assoc]
  | ternary condition yes no => by
    rw [collectLocals, mem_collectLocals no, mem_collectLocals yes, mem_collectLocals condition,
      Reads, or_assoc, or_assoc]
  | array items => by rw [collectLocals, mem_collectLocalsList items, Reads]
  | index target i => by
    rw [collectLocals, mem_collectLocals i, mem_collectLocals target, Reads, or_assoc]
  | call _ args _ => by rw [collectLocals, mem_collectLocalsArgs args, Reads]

theorem mem_collectLocalsList {name : String} {names : List String} : ∀ items : List Expr,
    name ∈ collectLocalsList names items ↔ name ∈ names ∨ ReadsList .enclosing name items
  | [] => by simp [collectLocalsList, ReadsList]
  | item :: items => by
    rw [collectLocalsList, mem_collectLocalsList items, mem_collectLocals item, ReadsList, or_assoc]

theorem mem_collectLocalsArgs {name : String} {names : List String} :
    ∀ args : List (Argument Expr),
      name ∈ collectLocalsArgs names args ↔ name ∈ names ∨ ReadsArgs .enclosing name args
  | [] => by simp [collectLocalsArgs, ReadsArgs]
  | ⟨_, value⟩ :: args => by
    rw [collectLocalsArgs, mem_collectLocalsArgs args, mem_collectLocals value, ReadsArgs, or_assoc]

end

/-- The local variables of an expression are those that it names. -/
theorem mem_locals {name : String} {e : Expr} : name ∈ e.locals ↔ e.Reads .enclosing name := by
  simp [locals, mem_collectLocals]

end Expr

/-! ## Evaluation -/

/-- What an environment answers for a variable of a scope. -/
def Environment.answer (env : Environment) : VarScope → String → Except EvalError Value
  | .enclosing, name => env.resolveLocal name
  | .base, name => env.resolveBase name

namespace Expr

variable {m : Type → Type} [Monad m] [LawfulMonad m] {env env' : Environment} (host : Host m)

mutual

/-- **An expression depends on the variables that it names**, and evaluating it leaves the
environment as it was. -/
theorem eval_sameIn : ∀ e : Expr,
    (∀ scope name, e.Reads scope name → env.answer scope name = env'.answer scope name) →
      SameIn env env' (e.eval host)
  | literal _ value unit, _ => by
    cases unit with
    | none => exact .pure value
    | some unit => exact .settled _
  | var .enclosing name _, h => .read (h .enclosing name ⟨rfl, rfl⟩)
  | var .base name _, h => .read (h .base name ⟨rfl, rfl⟩)
  | unary op operand, h =>
    (eval_sameIn operand fun scope name hreads => h scope name hreads).bind fun _ => .settled _
  | binary op left right, h => by
    have hleft := eval_sameIn left fun scope name hreads => h scope name (.inl hreads)
    have hright := eval_sameIn right fun scope name hreads => h scope name (.inr hreads)
    rw [eval]
    refine hleft.bind fun a => ?_
    -- the logical operators may not come to their right operand
    split
    · split
      · exact hright.bind fun _ => .pure _
      · exact .pure _
    · split
      · exact .pure _
      · exact hright.bind fun _ => .pure _
    · exact hright.bind fun _ => .settled _
  | ternary condition yes no, h => by
    have hcondition := eval_sameIn condition fun scope name hreads => h scope name (.inl hreads)
    have hyes := eval_sameIn yes fun scope name hreads => h scope name (.inr (.inl hreads))
    have hno := eval_sameIn no fun scope name hreads => h scope name (.inr (.inr hreads))
    rw [eval]
    refine hcondition.bind fun a => ?_
    split
    · exact hyes
    · exact hno
  | array items, h =>
    (evalList_sameIn items fun scope name hreads => h scope name hreads).bind fun _ => .pure _
  | index target i, h =>
    (eval_sameIn target fun scope name hreads => h scope name (.inl hreads)).bind fun _ =>
      (eval_sameIn i fun scope name hreads => h scope name (.inr hreads)).bind fun _ => .settled _
  | call name args _, h => by
    rw [eval]
    split
    · exact .throw _
    · rename_i b hb
      have hmem : b ∈ Builtin.table := List.mem_of_find?_eq_some hb
      exact (bindArgs_sameIn b.name b.params args.length .empty args
        fun scope name hreads => h scope name hreads).bind fun bound =>
          Builtin.call_sameIn hmem host _

theorem evalList_sameIn : ∀ items : List Expr,
    (∀ scope name, ReadsList scope name items → env.answer scope name = env'.answer scope name) →
      SameIn env env' (evalList host items)
  | [], _ => .pure []
  | item :: items, h =>
    (eval_sameIn item fun scope name hreads => h scope name (.inl hreads)).bind fun _ =>
      (evalList_sameIn items fun scope name hreads => h scope name (.inr hreads)).bind fun _ =>
        .pure _

theorem bindArgs_sameIn (function : String) (params : List Parameter) (count : Nat)
    (bound : Binder) : ∀ args : List (Argument Expr),
      (∀ scope name, ReadsArgs scope name args → env.answer scope name = env'.answer scope name) →
        SameIn env env' (bindArgs host function params count bound args)
  | [], _ => .pure bound
  | ⟨name?, value⟩ :: args, h => by
    rw [bindArgs]
    refine (eval_sameIn value fun scope name hreads => h scope name (.inl hreads)).bind fun v => ?_
    split
    · exact bindArgs_sameIn function params count _ args
        fun scope name hreads => h scope name (.inr hreads)
    · exact .throw _

end

/-- Two environments that answer alike for the variables of an expression give it the same
value. -/
theorem evaluate_congr {e : Expr}
    (h : ∀ scope name, e.Reads scope name → env.answer scope name = env'.answer scope name) :
    e.evaluate host env = e.evaluate host env' := by
  obtain ⟨y, hy, hy'⟩ := eval_sameIn host e h
  unfold evaluate
  rw [hy, hy']
  simp

end Expr

end ConfigLang
