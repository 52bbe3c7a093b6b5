import Mathlib
import ConfigLang.Eval.Evaluate
import ConfigLang.Parse.Document
import ConfigLang.Proofs.Running

/-!
# What a function reads

A function looks its parameters up in all frames of the environment of a call, not in the
innermost alone.  Every function of the table asks for no name but those of its parameters
(`Builtin.readsOwn_of_mem_table`).  So it does not matter what else the environment holds,
as long as all parameters are bound in the innermost frame.

The text of a default is an expression that has the same value in every scope, which is the
value that the parameter is bound to (`Builtin.exists_eval_of_default`).
-/

namespace ConfigLang

/-! ## Calls that agree on some names -/

/-- Two calls of a function answer alike for some names. -/
structure Call.Agree (names : List String) (c c' : Call) : Prop where
  function : c.function = c'.function
  get : ∀ name ∈ names, c.get name = c'.get name

namespace Call.Agree

variable {names : List String} {c c' : Call} {name : String}

theorem invalid (h : Agree names c c') : c.invalid = c'.invalid := by
  funext fault
  rw [Call.invalid, Call.invalid, h.function]

theorem missing (h : Agree names c c') : c.missing = c'.missing := by
  funext name
  rw [Call.missing, Call.missing, h.function]

theorem wrongKind (h : Agree names c c') : c.wrongKind = c'.wrongKind := by
  funext name wanted found
  rw [Call.wrongKind, Call.wrongKind, h.invalid]

theorem int (h : Agree names c c') (hname : name ∈ names) : c.int name = c'.int name := by
  rw [Call.int, Call.int, h.get name hname, h.wrongKind]

theorem number (h : Agree names c c') (hname : name ∈ names) : c.number name = c'.number name := by
  rw [Call.number, Call.number, h.get name hname, h.wrongKind]

theorem text (h : Agree names c c') (hname : name ∈ names) : c.text name = c'.text name := by
  rw [Call.text, Call.text, h.get name hname, h.wrongKind]

theorem bool (h : Agree names c c') (hname : name ∈ names) : c.bool name = c'.bool name := by
  rw [Call.bool, Call.bool, h.get name hname, h.wrongKind]

theorem slice (h : Agree names c c') (hname : name ∈ names) : c.slice name = c'.slice name := by
  rw [Call.slice, Call.slice, h.get name hname, h.wrongKind]

theorem flattened (h : Agree names c c') (hname : name ∈ names) :
    c.flattened name = c'.flattened name := by
  rw [Call.flattened, Call.flattened, h.slice hname]

end Call.Agree

/-! ## The functions of the table -/

namespace Builtin

/-- A function asks for no name but those of its parameters. -/
def ReadsOwn (b : Builtin) : Prop :=
  ∀ {m : Type → Type} [Monad m] (host : Host m) (c c' : Call),
    Call.Agree (b.params.map Parameter.name) c c' → b.run host c = b.run host c'

theorem readsOwn_plain {name : String} {params : List Parameter}
    {run : Call → Except EvalError Value}
    (h : ∀ c c', Call.Agree (params.map Parameter.name) c c' → run c = run c') :
    (plain name params run).ReadsOwn :=
  fun _ c c' hagree => congrArg settled (h c c' hagree)

section

variable {names : List String} {c c' : Call}

theorem summand_congr (h : Call.Agree names c c') : summand c = summand c' := by
  funext v
  cases v <;> simp only [summand, h.invalid, h.wrongKind]

theorem total_congr (h : Call.Agree names c c') (sum : Decimal.Fixed) (values : List Value) :
    total c sum values = total c' sum values := by
  induction values generalizing sum with
  | nil => rfl
  | cons v values ih => simp only [total, summand_congr h, ih]

theorem readAll_congr {m : Type → Type} [Monad m] (h : Call.Agree names c c') (host : Host m)
    (values : List Value) : readAll host c values = readAll host c' values := by
  induction values with
  | nil => rfl
  | cons v values ih => cases v <;> simp only [readAll, h.invalid, h.wrongKind, ih]

end

/-- **No function reads more than its parameters.** -/
theorem readsOwn_of_mem_table : ∀ b ∈ table, b.ReadsOwn := by
  simp only [table, List.forall_mem_cons]
  refine ⟨?typeOf, ?length, ?first, ?last, ?seq, ?random, ?abs, ?sqrt, ?min, ?max, ?all, ?any,
    ?average, ?upper, ?lower, ?split, ?join, ?contains, ?substr, ?trim, ?replace, ?dirname, ?dir,
    ?basename, ?base, ?isFile, ?isDirectory, ?read, ?encodeBase64, ?decodeBase64, nofun⟩
  case typeOf =>
    refine readsOwn_plain fun c c' h => ?_
    simp (disch := decide) only [typeOf, h.get]
  case length =>
    refine readsOwn_plain fun c c' h => ?_
    simp (disch := decide) only [length, h.get, h.wrongKind]
  case first =>
    refine readsOwn_plain fun c c' h => ?_
    simp (disch := decide) only [first, h.slice]
  case last =>
    refine readsOwn_plain fun c c' h => ?_
    simp (disch := decide) only [last, h.slice]
  case seq =>
    refine readsOwn_plain fun c c' h => ?_
    simp (disch := decide) only [seq, h.int, h.invalid]
  case random =>
    intro m _ host c c' h
    simp (disch := decide) only [random, h.int, h.invalid]
  case abs =>
    refine readsOwn_plain fun c c' h => ?_
    simp (disch := decide) only [abs, h.get, h.wrongKind]
  case sqrt =>
    refine readsOwn_plain fun c c' h => ?_
    simp (disch := decide) only [sqrt, h.number, h.invalid]
  case min =>
    refine readsOwn_plain fun c c' h => ?_
    simp (disch := decide) only [extreme, h.flattened, h.missing]
  case max =>
    refine readsOwn_plain fun c c' h => ?_
    simp (disch := decide) only [extreme, h.flattened, h.missing]
  case all =>
    refine readsOwn_plain fun c c' h => ?_
    simp (disch := decide) only [all, h.flattened]
  case any =>
    refine readsOwn_plain fun c c' h => ?_
    simp (disch := decide) only [any, h.flattened]
  case average =>
    refine readsOwn_plain fun c c' h => ?_
    simp (disch := decide) only [average, h.flattened, h.missing, total_congr h]
  case upper =>
    refine readsOwn_plain fun c c' h => ?_
    simp (disch := decide) only [upper, h.text]
  case lower =>
    refine readsOwn_plain fun c c' h => ?_
    simp (disch := decide) only [lower, h.text]
  case split =>
    refine readsOwn_plain fun c c' h => ?_
    simp (disch := decide) only [split, h.text, h.invalid]
  case join =>
    refine readsOwn_plain fun c c' h => ?_
    simp (disch := decide) only [join, h.slice, h.text]
  case contains =>
    refine readsOwn_plain fun c c' h => ?_
    simp (disch := decide) only [contains, h.get, h.text, h.wrongKind]
  case substr =>
    refine readsOwn_plain fun c c' h => ?_
    simp (disch := decide) only [substr, h.text, h.int, h.invalid]
  case trim =>
    refine readsOwn_plain fun c c' h => ?_
    simp (disch := decide) only [trim, h.text]
  case replace =>
    refine readsOwn_plain fun c c' h => ?_
    simp (disch := decide) only [replace, h.text, h.int, h.invalid]
  case dirname =>
    refine readsOwn_plain fun c c' h => ?_
    simp (disch := decide) only [dirname, h.text]
  case dir =>
    refine readsOwn_plain fun c c' h => ?_
    simp (disch := decide) only [dirname, h.text]
  case basename =>
    refine readsOwn_plain fun c c' h => ?_
    simp (disch := decide) only [basename, h.text]
  case base =>
    refine readsOwn_plain fun c c' h => ?_
    simp (disch := decide) only [basename, h.text]
  case isFile =>
    intro m _ host c c' h
    simp (disch := decide) only [isFile, h.text]
  case isDirectory =>
    intro m _ host c c' h
    simp (disch := decide) only [isDirectory, h.text]
  case read =>
    intro m _ host c c' h
    simp (disch := decide) only [read, h.slice, readAll_congr h, h.missing]
  case encodeBase64 =>
    refine readsOwn_plain fun c c' h => ?_
    simp (disch := decide) only [encodeBase64, alphabet, h.text, h.bool]
  case decodeBase64 =>
    refine readsOwn_plain fun c c' h => ?_
    simp (disch := decide) only [decodeBase64, alphabet, h.text, h.bool, h.invalid]

/-! ## The texts of defaults -/

/-- Whether two values are the same truth value, integer or text. -/
def isSame : Value → Value → Bool
  | .bool a, .bool b => a == b
  | .int a, .int b => a == b
  | .text a, .text b => a == b
  | _, _ => false

theorem eq_of_isSame {v w : Value} (h : isSame v w = true) : v = w := by
  cases v <;> cases w <;>
    first | exact congrArg _ (beq_iff_eq.mp h) | exact absurd h Bool.false_ne_true

/-- Whether the text of the default of a parameter is a literal of its value. -/
def writesDefault (p : Parameter) : Bool :=
  p.default?.all fun d => (parseExpression d.source).toOption.any fun
    | .literal _ value none => isSame value d.value
    | _ => false

theorem writesDefault_of_mem_table : (table.all fun b => b.params.all writesDefault) = true := by
  decide +kernel

/-- **The text of a default has the value of the default**, in every scope. -/
theorem exists_eval_of_default {b : Builtin} {p : Parameter} {d : Default} (hb : b ∈ table)
    (hp : p ∈ b.params) (hd : p.default? = some d) :
    ∃ e, parseExpression d.source = .ok e ∧
      ∀ {m : Type → Type} [Monad m] (host : Host m) (function : String),
        e.eval host = .settled (p.fallback function) := by
  have hwrites := List.all_eq_true.mp (List.all_eq_true.mp writesDefault_of_mem_table b hb) p hp
  rw [writesDefault, hd, Option.all_some] at hwrites
  obtain ⟨e, he, hliteral⟩ := Running.exists_of_any hwrites
  refine ⟨e, he, ?_⟩
  intro m _ host function
  split at hliteral
  · cases eq_of_isSame hliteral
    rw [Expr.eval, Parameter.fallback, hd]
    rfl
  · cases hliteral

end Builtin

end ConfigLang
