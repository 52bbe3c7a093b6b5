import Mathlib
import ConfigLang.Proofs.Eval.Locality

/-!
# Evaluation and the environment

Evaluating an expression leaves the environment as it was, whether it has a value or an
error (`Expr.eval_restores`), and depends on nothing but what the environment answers for
the variables that the expression names (`Expr.evaluate_agrees`).  In particular no
variable is taken for a parameter of a function that has the same name.

Both are read off `Expr.eval_sameIn`, the induction over the expression.
-/

namespace ConfigLang

/-! ## Binding a name -/

namespace Environment

variable {name key shown : String} {value : Value}

theorem lookup_define (hne : name ≠ key) (inner outer : List Frame) (frame : Frame) :
    lookup (inner ++ frame.define key value :: outer) name shown =
      lookup (inner ++ frame :: outer) name shown := by
  have hget : (frame.define key value).get? name = frame.get? name := by
    change Keyed.get? (Keyed.put key value frame.bindings) name = _
    rw [Keyed.get?_put, if_neg hne]
    rfl
  rw [lookup, lookup, List.findSome?_append, List.findSome?_append, List.findSome?_cons,
    List.findSome?_cons, hget]

end Environment

/-! ## Expressions -/

namespace Expr

variable {m : Type → Type} [Monad m] [LawfulMonad m]

/-- **Evaluation leaves the environment as it was**, with a value and with an error. -/
theorem eval_restores (host : Host m) (e : Expr) (env : Environment) :
    (e.eval host).run.run env = (·, env) <$> (e.evaluate host env).run := by
  -- one environment, taken twice
  have hsame : Evaluation.SameIn env env (e.eval host) := eval_sameIn host e fun _ _ _ => rfl
  obtain ⟨y, hy, -⟩ := hsame
  rw [evaluate, hy]
  simp

/-- `len(first($obj))` with `$obj` null leaves the environment as it was: `first` has an error, in
the middle of the arguments of `len`. -/
theorem eval_restores_of_fault :
    let host : Host Id := ⟨fun _ => .error .notFound, fun _ => false, fun _ => false, fun _ => 0⟩
    let env : Environment := ⟨.empty, [.ofList [("obj", .null)]]⟩
    let e : Expr :=
      .call "len" [⟨none, .call "first" [⟨none, .var .enclosing "obj" .start⟩] .start⟩] .start
    (e.evaluate host env).run =
        .error (.invalidArgument "first" (.wrongKind "arr" .slice .null)) ∧
      ((e.eval host).run.run env).2 = env := by
  intro host env e
  have hrestores := eval_restores (m := Id) host e env
  refine ⟨rfl, ?_⟩
  rw [hrestores]
  rfl

/-- **An expression depends only on the variables that it names.** Two environments that answer
alike for these give it the same value or error.  So a variable of the base frame or an option of
another name has no influence, whether or not a parameter of a function is called so. -/
theorem evaluate_agrees (host : Host m) {e : Expr} {env env' : Environment}
    (hlocals : ∀ name ∈ e.locals, env.resolveLocal name = env'.resolveLocal name)
    (hbase : ∀ name, e.Reads .base name → env.resolveBase name = env'.resolveBase name) :
    e.evaluate host env = e.evaluate host env' ∧
    (∀ name value, ¬e.Reads .base name →
      e.evaluate host { env with base := env.base.define name value } = e.evaluate host env) ∧
    ∀ name value inner frame outer, env.frames = inner ++ frame :: outer → name ∉ e.locals →
      e.evaluate host { env with frames := inner ++ frame.define name value :: outer } =
        e.evaluate host env := by
  refine ⟨?agree, ?base, ?frame⟩
  case agree =>
    refine evaluate_congr host fun scope name hreads => ?_
    cases scope with
    | enclosing => exact hlocals name (mem_locals.mpr hreads)
    | base => exact hbase name hreads
  case base =>
    intro name value hname
    refine evaluate_congr host fun scope read hreads => ?_
    cases scope with
    | enclosing => rfl
    | base =>
        have hne : read ≠ name := fun h => hname (h ▸ hreads)
        exact Environment.lookup_define hne [] [] env.base
  case frame =>
    intro name value inner frame outer hframes hname
    refine evaluate_congr host fun scope read hreads => ?_
    cases scope with
    | enclosing =>
        -- the binding is of a name that the expression does not read
        have hne : read ≠ name := fun h => hname (h ▸ mem_locals.mpr hreads)
        change Environment.lookup _ read _ = Environment.lookup env.frames read _
        rw [hframes]
        exact Environment.lookup_define hne inner outer frame
    | base => rfl

/-- `join($items)` is the same beside options and base variables that are called like the parameters
of `join`, whether they are there from the start or come to be bound. -/
theorem evaluate_agrees_of_separator :
    let host : Host Id := ⟨fun _ => .error .notFound, fun _ => false, fun _ => false, fun _ => 0⟩
    let items : Value := .slice [.text "a", .text "b"]
    let inner : Frame := .ofList [("items", items)]
    let env : Environment := ⟨.empty, [inner]⟩
    let env' : Environment :=
      ⟨.ofList [("sep", .text "-")], [.ofList [("items", items), ("arr", .null), ("sep", .null)]]⟩
    let e : Expr := .call "join" [⟨none, .var .enclosing "items" .start⟩] .start
    e.evaluate host env = e.evaluate host env' ∧
      e.evaluate host ⟨Frame.empty.define "sep" (.text "-"), [inner]⟩ = e.evaluate host env ∧
      e.evaluate host ⟨.empty, [inner.define "arr" .null]⟩ = e.evaluate host env ∧
      (e.evaluate host env).run = .ok (.text "a b") := by
  intro host items inner env env' e
  have hlocals : ∀ name ∈ e.locals, env.resolveLocal name = env'.resolveLocal name := by
    intro name hname
    obtain rfl : name = "items" := List.mem_singleton.mp hname
    rfl
  have hnone : ∀ name, ¬e.Reads .base name := by
    rintro name (⟨hscope, -⟩ | hnone)
    · cases hscope
    · cases hnone
  have hbase : ∀ name, e.Reads .base name → env.resolveBase name = env'.resolveBase name :=
    fun name hreads => absurd hreads (hnone name)
  have harr : "arr" ∉ e.locals := by
    intro hmem
    exact absurd (List.mem_singleton.mp hmem) (by decide)
  obtain ⟨hagree, hbound, hframe⟩ := evaluate_agrees host hlocals hbase
  exact ⟨hagree, hbound "sep" _ (hnone "sep"), hframe "arr" .null [] inner [] rfl harr, rfl⟩

end Expr

end ConfigLang
