import Mathlib
import ConfigLang.Proofs.Eval.Locality

/-!
# What evaluation does beside giving a value

An expression asks the host, and computes the rest by itself.  Nothing that it computes is
a cyclic reference: that error comes from whoever looks for what an expression refers to
(`NoCycle`).  So whatever can be said of a cyclic reference aside, of the answers of a host
and of sequences can be said of every evaluation (`Discipline.evaluate`): for instance that
it leaves a record of other requests as it was.

## Strategy

* **Results.**  `NoCycle` is kept by `bind` and `map`, so the operators are gone through case
  by case, from arithmetic (`noCycle_arith`) to `noCycle_binary`, `noCycle_unary` and
  `noCycle_index`.
* **Functions.**  Whatever a function does with its arguments ends in a value or in an error
  of its own, such as `Call.wrongKind_ne` tells apart from a cyclic reference.
* **Disciplines.**  A `Discipline` is what may be said of computations against a host: it
  holds of results, of answers and of sequences.  `Discipline.run` goes through the table of
  functions, of which some ask the host before they give a result.
* **Evaluation.**  The environment changes during a call, so the induction over the
  expression is about its outcome, which is what it gives together with the environment
  that it leaves (`Expr.evaluate_eq_outcome`).  `Covers.eval`, `Covers.evalList` and
  `Covers.bindArgs` follow the recursion of the evaluator, and `Covers.call` enters the
  scope of a function and leaves it.
-/

namespace ConfigLang

/-! ## Results -/

/-- A result is anything but a cyclic reference. -/
def NoCycle {α : Type} (r : Except EvalError α) : Prop :=
  ∀ name, r ≠ .error (.cyclicReference name)

namespace NoCycle

variable {α β : Type}

@[simp] theorem ok (a : α) : NoCycle (.ok a) :=
  nofun

@[simp] theorem error {e : EvalError} :
    NoCycle (α := α) (.error e) ↔ ∀ name, e ≠ .cyclicReference name := by
  simp [NoCycle]

@[simp] theorem pure (a : α) : NoCycle (Pure.pure a) :=
  nofun

@[simp] theorem throw {e : EvalError} (h : ∀ name, e ≠ .cyclicReference name) :
    NoCycle (α := α) (throw e) :=
  error.mpr h

theorem bind {x : Except EvalError α} {f : α → Except EvalError β} (hx : NoCycle x)
    (hf : ∀ a, NoCycle (f a)) : NoCycle (x >>= f) := by
  cases x with
  | ok a => exact hf a
  | error e => exact fun name h => hx name (congrArg Except.error (Except.error.inj h))

theorem map {x : Except EvalError α} (hx : NoCycle x) (f : α → β) : NoCycle (x.map f) := by
  cases x with
  | ok a => exact nofun
  | error e => exact fun name h => hx name (congrArg Except.error (Except.error.inj h))

end NoCycle

/-! ## Operators -/

namespace Value

variable (a b : Value)

@[simp] theorem noCycle_exact (op : Operation) (n : Int) : NoCycle (exact op n) := by
  unfold exact
  split <;> simp

@[simp] theorem noCycle_intPower (m n : Int64) : NoCycle (intPower m n) := by
  fun_cases intPower <;> simp [*]

@[simp] theorem noCycle_intArith (op : Arith) (m n : Int64) : NoCycle (intArith op m n) := by
  fun_cases intArith with
  | case7 => exact (noCycle_exact _ _).bind fun _ => noCycle_exact _ _
  | _ => simp

@[simp] theorem noCycle_floatArith (op : Arith) (x y : Float) : NoCycle (floatArith op x y) := by
  fun_cases floatArith <;> simp

@[simp] theorem noCycle_arith (op : Arith) : NoCycle (arith op a b) := by
  fun_cases arith <;> simp

@[simp] theorem noCycle_shifted (op : Bitwise) (m n : Int64) : NoCycle (shifted op m n) := by
  fun_cases shifted <;> simp

@[simp] theorem noCycle_bitwise (op : Bitwise) : NoCycle (bitwise op a b) := by
  fun_cases bitwise <;> simp

@[simp] theorem noCycle_numberOrder (x y : Float) : NoCycle (numberOrder x y) := by
  fun_cases numberOrder <;> simp

@[simp] theorem noCycle_order : NoCycle (order a b) := by
  fun_cases order <;> simp

@[simp] theorem noCycle_equals : NoCycle (equals a b) := by
  unfold equals
  split <;> first | exact (noCycle_order _ _).bind fun _ => .ok _ | simp

@[simp] theorem noCycle_binary (op : BinaryOp) : NoCycle (a.binary op b) := by
  fun_cases binary <;> simp [NoCycle.map]

@[simp] theorem noCycle_unary (op : UnaryOp) : NoCycle (a.unary op) := by
  fun_cases unary <;> simp

@[simp] theorem noCycle_place (i : Int64) (n : Nat) : NoCycle (place i n) := by
  fun_cases place <;> simp [*]

@[simp] theorem noCycle_index : NoCycle (a.index b) := by
  fun_cases index with
  | case1 | case2 => exact (noCycle_place _ _).bind fun _ => .ok _
  | _ => simp

end Value

/-! ## Functions -/

namespace Environment

variable (env : Environment) (name : String)

theorem noCycle_lookup (frames : List Frame) (shown : String) :
    NoCycle (lookup frames name shown) := by
  unfold lookup
  split <;> simp

theorem noCycle_answer (scope : VarScope) : NoCycle (env.answer scope name) := by
  cases scope <;> exact noCycle_lookup _ _ _

end Environment

namespace Call

variable (c : Call) (parameter : String)

@[simp] theorem invalid_ne (fault : ArgumentFault) (name : String) :
    c.invalid fault ≠ .cyclicReference name := nofun

@[simp] theorem missing_ne (name : String) : c.missing parameter ≠ .cyclicReference name := nofun

@[simp] theorem wrongKind_ne (wanted : Wanted) (found : Value) (name : String) :
    c.wrongKind parameter wanted found ≠ .cyclicReference name := nofun

@[simp] theorem noCycle_get : NoCycle (c.get parameter) :=
  Environment.noCycle_lookup _ _ _

@[simp] theorem noCycle_int : NoCycle (c.int parameter) :=
  (c.noCycle_get parameter).bind fun v => by split <;> simp

@[simp] theorem noCycle_number : NoCycle (c.number parameter) :=
  (c.noCycle_get parameter).bind fun v => by split <;> simp

@[simp] theorem noCycle_text : NoCycle (c.text parameter) :=
  (c.noCycle_get parameter).bind fun v => by split <;> simp

@[simp] theorem noCycle_bool : NoCycle (c.bool parameter) :=
  (c.noCycle_get parameter).bind fun v => by split <;> simp

@[simp] theorem noCycle_slice : NoCycle (c.slice parameter) :=
  (c.noCycle_get parameter).bind fun v => by split <;> simp

@[simp] theorem noCycle_flattened : NoCycle (c.flattened parameter) :=
  (c.noCycle_slice parameter).bind fun _ => .ok _

end Call

namespace Builtin

variable (c : Call)

theorem noCycle_extremeOf (keep : Ordering) (best : Value) (values : List Value) :
    NoCycle (extremeOf keep best values) := by
  induction values generalizing best with
  | nil => exact .ok _
  | cons v values ih => exact (Value.noCycle_order v best).bind fun _ => ih _

theorem noCycle_extreme (keep : Ordering) : NoCycle (extreme keep c) := by
  refine (c.noCycle_flattened _).bind fun values => ?_
  split
  · simp
  · exact noCycle_extremeOf _ _ _

theorem noCycle_total (sum : Decimal.Fixed) (values : List Value) :
    NoCycle (total c sum values) := by
  induction values generalizing sum with
  | nil => exact .ok _
  | cons v values ih =>
      have hsummand : NoCycle (summand c v) := by
        unfold summand
        (repeat' split) <;> simp
      refine hsummand.bind fun d => ?_
      split
      · exact ih _
      · simp

end Builtin

/-! ## Disciplines -/

variable {m : Type → Type} [Monad m]

/-- What can be said of every evaluation against a host: it holds of results that need no host, of
what the host answers, and of sequences of computations of which it holds. -/
structure Discipline (host : Host m) where
  Holds {α : Type} (x : ExceptT EvalError m α) : Prop
  settled {α : Type} {r : Except EvalError α} (h : NoCycle r) : Holds (Builtin.settled r)
  bind {α β : Type} {x : ExceptT EvalError m α} {f : α → ExceptT EvalError m β} (hx : Holds x)
    (hf : ∀ a, Holds (f a)) : Holds (x >>= f)
  readText (path : String) : Holds (liftM (host.readText path))
  isFile (path : String) : Holds (liftM (host.isFile path))
  isDirectory (path : String) : Holds (liftM (host.isDirectory path))
  random (bound : Nat) : Holds (liftM (host.random bound))

namespace Discipline

variable {host : Host m} (p : Discipline host) {α β : Type}

theorem pure (a : α) : p.Holds (Pure.pure a) :=
  p.settled (.ok a)

theorem throw {e : EvalError} (h : ∀ name, e ≠ .cyclicReference name) :
    p.Holds (throw e : ExceptT EvalError m α) :=
  p.settled (r := .error e) (NoCycle.error.mpr h)

theorem readAll (c : Call) (files : List Value) : p.Holds (Builtin.readAll host c files) := by
  induction files with
  | nil => exact p.pure _
  | cons file files ih =>
      cases file <;> simp only [Builtin.readAll]
      case text path =>
        refine p.bind (p.readText path) fun r => ?_
        split
        · exact p.bind ih fun _ => p.pure _
        · exact p.throw (c.invalid_ne _)
      all_goals exact p.throw (c.wrongKind_ne _ _ _)

/-- **No function of the table does anything else.** -/
theorem run (c : Call) : ∀ b ∈ Builtin.table, p.Holds (b.run host c) := by
  have plain {name : String} {params : List Parameter} {run : Call → Except EvalError Value}
      (h : NoCycle (run c)) : p.Holds ((Builtin.plain name params run).run host c) :=
    p.settled h
  simp only [Builtin.table, List.forall_mem_cons]
  refine ⟨plain ?typeOf, plain ?length, plain ?first, plain ?last, plain ?seq, ?random, plain ?abs,
    plain ?sqrt, plain ?min, plain ?max, plain ?all, plain ?any, plain ?average, plain ?upper,
    plain ?lower, plain ?split, plain ?join, plain ?contains, plain ?substr, plain ?trim,
    plain ?replace, plain ?dirname, plain ?dir, plain ?basename, plain ?base, ?isFile,
    ?isDirectory, ?read, plain ?encodeBase64, plain ?decodeBase64,
    fun _ hmem => absurd hmem List.not_mem_nil⟩
  case typeOf => exact (c.noCycle_get _).bind fun _ => .ok _
  case length =>
    refine (c.noCycle_get _).bind fun v => ?_
    split <;> simp
  case first | last =>
    refine (c.noCycle_slice _).bind fun items => ?_
    split <;> simp
  case seq =>
    refine (c.noCycle_int _).bind fun _ => (c.noCycle_int _).bind fun _ =>
      (c.noCycle_int _).bind fun step => ?_
    by_cases hzero : step = 0
    · rw [if_pos hzero]
      exact .throw (c.invalid_ne _)
    · rw [if_neg hzero]
      exact .ok _
  case random =>
    refine p.bind (p.settled (c.noCycle_int _)) fun n => ?_
    have answer := p.bind (p.random n.toInt.toNat) fun k => p.pure (Value.int (Int64.ofNat k))
    split
    · exact p.bind (p.throw (c.invalid_ne _)) fun _ => answer
    · exact answer
  case abs =>
    refine (c.noCycle_get _).bind fun v => ?_
    split <;> simp
  case sqrt =>
    refine (c.noCycle_number _).bind fun x => ?_
    split
    · exact .throw (c.invalid_ne _)
    · exact .ok _
  case min | max => exact Builtin.noCycle_extreme c _
  case all | any => exact (c.noCycle_flattened _).bind fun _ => .ok _
  case average =>
    refine (c.noCycle_flattened _).bind fun values => ?_
    split
    · simp
    · exact (Builtin.noCycle_total c _ _).bind fun _ => .ok _
  case upper | lower => exact (c.noCycle_text _).bind fun _ => .ok _
  case split =>
    refine (c.noCycle_text _).bind fun _ => (c.noCycle_text _).bind fun separator => ?_
    split
    · exact .throw (c.invalid_ne _)
    · exact .ok _
  case join => exact (c.noCycle_slice _).bind fun _ => (c.noCycle_text _).bind fun _ => .ok _
  case contains =>
    refine (c.noCycle_get _).bind fun part => (c.noCycle_get _).bind fun v => ?_
    split
    · simp
    · exact (c.noCycle_text _).bind fun _ => .ok _
    · simp
  case substr =>
    refine (c.noCycle_text _).bind fun s => (c.noCycle_int _).bind fun pos =>
      (c.noCycle_int _).bind fun len => ?_
    dsimp only
    split
    · exact .throw (c.invalid_ne _)
    · split
      · exact .ok _
      · exact (Value.noCycle_place _ _).bind fun _ => .ok _
  case trim => exact (c.noCycle_text _).bind fun _ => (c.noCycle_text _).bind fun _ => .ok _
  case replace =>
    refine (c.noCycle_text _).bind fun _ => (c.noCycle_text _).bind fun _ =>
      (c.noCycle_text _).bind fun _ => (c.noCycle_int _).bind fun count => ?_
    dsimp only
    split
    · exact .throw (c.invalid_ne _)
    · exact .ok _
  case dirname | dir =>
    refine (c.noCycle_text _).bind fun path => ?_
    split <;> simp
  case basename | base => exact (c.noCycle_text _).bind fun _ => .ok _
  case isFile =>
    exact p.bind (p.settled (c.noCycle_text _)) fun _ => p.bind (p.isFile _) fun _ => p.pure _
  case isDirectory =>
    exact p.bind (p.settled (c.noCycle_text _)) fun _ => p.bind (p.isDirectory _) fun _ => p.pure _
  case read =>
    refine p.bind (p.settled (c.noCycle_slice _)) fun files =>
      p.bind (p.readAll c files) fun texts => ?_
    split
    · exact p.throw (c.missing_ne _)
    · exact p.pure _
    · exact p.pure _
  case encodeBase64 =>
    exact (c.noCycle_text _).bind fun _ => ((c.noCycle_bool _).bind fun _ => .ok _).bind fun _ =>
      .ok _
  case decodeBase64 =>
    refine (c.noCycle_text _).bind fun _ =>
      ((c.noCycle_bool _).bind fun _ => .ok _).bind fun _ => ?_
    split
    · simp
    · split <;> simp

end Discipline

/-! ## Outcomes -/

namespace Evaluation

/-- What a computation gives in an environment, with the environment that it leaves. -/
def outcome {α : Type} (x : Evaluation m α) (env : Environment) :
    ExceptT EvalError m (α × Environment) :=
  ExceptT.mk ((fun out => out.1.map (·, out.2)) <$> x.run.run env)

variable [LawfulMonad m] {α β : Type} (env : Environment)

theorem outcome_settled (r : Except EvalError α) :
    (settled r : Evaluation m α).outcome env = Builtin.settled (r.map (·, env)) := by
  unfold outcome
  rw [run_settled, map_pure]
  rfl

theorem outcome_read (f : Environment → Except EvalError α) :
    (read f : Evaluation m α).outcome env = Builtin.settled ((f env).map (·, env)) := by
  simp [outcome, read, Builtin.settled]

theorem outcome_bind (x : Evaluation m α) (f : α → Evaluation m β) :
    (x >>= f).outcome env = x.outcome env >>= fun out => (f out.1).outcome out.2 := by
  apply ExceptT.ext
  rw [ExceptT.run_bind]
  simp only [outcome, ExceptT.run_mk, Running.run_bind, map_bind, bind_map_left]
  congr 1
  funext out
  obtain ⟨r, s⟩ := out
  cases r with
  | ok a => rfl
  | error e => exact map_pure _ _

theorem outcome_get :
    (get : Evaluation m Environment).outcome env = Builtin.settled (.ok (env, env)) := by
  unfold outcome
  rw [Running.run_get, map_pure]
  rfl

theorem outcome_modify (f : Environment → Environment) :
    (modify f : Evaluation m PUnit).outcome env = Builtin.settled (.ok (⟨⟩, f env)) := by
  unfold outcome
  rw [Running.run_modify, map_pure]
  rfl

theorem outcome_lift (x : ExceptT EvalError m α) :
    (lift x).outcome env = (·, env) <$> x := by
  apply ExceptT.ext
  simp only [outcome, run_lift, ExceptT.run_mk, ExceptT.run_map, map_bind, map_pure]
  exact (map_eq_pure_bind _ _).symm

theorem outcome_inScope (frame : Frame) (x : Evaluation m α) :
    (inScope frame x).outcome env =
      (fun out => (out.1, out.2.pop.2)) <$> x.outcome (env.push frame) := by
  apply ExceptT.ext
  simp only [outcome, run_inScope, ExceptT.run_mk, ExceptT.run_map, Functor.map_map]
  congr 1
  funext out
  obtain ⟨r, s⟩ := out
  cases r <;> rfl

end Evaluation

theorem Expr.evaluate_eq_outcome [LawfulMonad m] (host : Host m) (e : Expr) (env : Environment) :
    e.evaluate host env = Prod.fst <$> (e.eval host).outcome env := by
  apply ExceptT.ext
  simp only [evaluate, Evaluation.outcome, ExceptT.run_mk, ExceptT.run_map, Functor.map_map,
    bind_pure_comp]
  refine congrArg (· <$> (e.eval host).run.run env) (funext fun out => ?_)
  obtain ⟨r, s⟩ := out
  cases r <;> rfl

/-! ## Evaluation -/

namespace Discipline

open Evaluation

variable [LawfulMonad m] {host : Host m} (p : Discipline host) {α β : Type}

/-- A discipline holds of an evaluation, in every environment. -/
def Covers (x : Evaluation m α) : Prop :=
  ∀ env, p.Holds (x.outcome env)

variable {p}

theorem map {x : ExceptT EvalError m α} (hx : p.Holds x) (f : α → β) : p.Holds (f <$> x) := by
  rw [map_eq_pure_bind]
  exact p.bind hx fun a => p.pure (f a)

namespace Covers

theorem settled {r : Except EvalError α} (h : NoCycle r) : p.Covers (.settled r) := by
  intro env
  rw [outcome_settled]
  exact p.settled (h.map _)

theorem pure (a : α) : p.Covers (Pure.pure a) :=
  settled (.ok a)

theorem throw {e : EvalError} (h : ∀ name, e ≠ .cyclicReference name) :
    p.Covers (MonadExcept.throw e : Evaluation m α) :=
  settled (r := .error e) (NoCycle.error.mpr h)

theorem read {f : Environment → Except EvalError α} (h : ∀ env, NoCycle (f env)) :
    p.Covers (Evaluation.read f) := by
  intro env
  rw [outcome_read]
  exact p.settled ((h env).map _)

theorem bind {x : Evaluation m α} {f : α → Evaluation m β} (hx : p.Covers x)
    (hf : ∀ a, p.Covers (f a)) : p.Covers (x >>= f) := by
  intro env
  rw [outcome_bind]
  exact p.bind (hx env) fun out => hf out.1 out.2

theorem fillDefaults (function : String) (params : List Parameter) :
    p.Covers (Builtin.fillDefaults function params) := by
  have hget : p.Covers (get : Evaluation m Environment) := by
    intro env
    rw [outcome_get]
    exact p.settled (.ok _)
  have hmodify (f : Environment → Environment) : p.Covers (modify f : Evaluation m PUnit) := by
    intro env
    rw [outcome_modify]
    exact p.settled (.ok _)
  induction params with
  | nil => exact pure _
  | cons param params ih =>
      have hfallback : NoCycle (param.fallback function) := by
        unfold Parameter.fallback
        (repeat' split) <;> simp
      refine bind hget fun env => ?_
      dsimp only
      split
      · exact ih
      · exact bind (settled hfallback) fun value => bind (hmodify _) fun _ => ih

theorem call {b : Builtin} (hb : b ∈ Builtin.table) (arguments : Frame) :
    p.Covers (b.call host arguments) := by
  intro env
  rw [Builtin.call, outcome_inScope, outcome_bind]
  refine map (p.bind (fillDefaults _ _ _) fun out => ?_) _
  rw [outcome_bind, outcome_get]
  refine p.bind (p.settled (.ok _)) fun out => ?_
  rw [outcome_lift]
  exact map (p.run _ b hb) _

mutual

theorem eval : ∀ e : Expr, p.Covers (e.eval host)
  | .literal _ value unit => by
    cases unit with
    | none => exact pure value
    | some unit => exact settled (Value.noCycle_arith _ _ _)
  | .var scope name _ => by
    have hanswer := fun env : Environment => env.noCycle_answer name scope
    cases scope <;> exact read hanswer
  | .unary op operand => (eval operand).bind fun _ => settled (Value.noCycle_unary _ _)
  | .binary op left right => by
    rw [Expr.eval]
    refine (eval left).bind fun a => ?_
    split
    · split
      · exact (eval right).bind fun _ => pure _
      · exact pure _
    · split
      · exact pure _
      · exact (eval right).bind fun _ => pure _
    · exact (eval right).bind fun _ => settled (Value.noCycle_binary _ _ _)
  | .ternary condition yes no => by
    rw [Expr.eval]
    refine (eval condition).bind fun a => ?_
    split
    · exact eval yes
    · exact eval no
  | .array items => (evalList items).bind fun _ => pure _
  | .index target i =>
    (eval target).bind fun _ => (eval i).bind fun _ => settled (Value.noCycle_index _ _)
  | .call name args _ => by
    rw [Expr.eval]
    split
    · exact throw nofun
    · rename_i b hb
      exact (bindArgs b.name b.params args.length .empty args).bind fun bound =>
        call (List.mem_of_find?_eq_some hb) _

theorem evalList : ∀ items : List Expr, p.Covers (Expr.evalList host items)
  | [] => pure []
  | item :: items => (eval item).bind fun _ => (evalList items).bind fun _ => pure _

theorem bindArgs (function : String) (params : List Parameter) (count : Nat) (bound : Binder) :
    ∀ args : List (Argument Expr), p.Covers (Expr.bindArgs host function params count bound args)
  | [] => pure bound
  | ⟨name?, value⟩ :: args => by
    rw [Expr.bindArgs]
    refine (eval value).bind fun v => ?_
    split
    · exact bindArgs function params count _ args
    · exact throw nofun

end

end Covers

/-- **What holds of results, of what the host answers and of sequences holds of every
evaluation.** -/
theorem evaluate (p : Discipline host) (e : Expr) (env : Environment) :
    p.Holds (e.evaluate host env) := by
  rw [Expr.evaluate_eq_outcome]
  exact map (Covers.eval e env) _

end Discipline

end ConfigLang
