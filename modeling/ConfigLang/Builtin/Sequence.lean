import ConfigLang.Builtin.Basic
import ConfigLang.Decimal.Mean
import ConfigLang.Value.Arithmetic
import ConfigLang.Value.Integer

/-!
# Functions on numbers and slices
-/

namespace ConfigLang.Builtin

/-- The name of the kind of a value. -/
def typeOf (c : Call) : Except EvalError Value := do
  return .text (← c.get "obj").kind.name

/-- The number of characters of a text or of items of a slice. -/
def length (c : Call) : Except EvalError Value := do
  match ← c.get "obj" with
  | .text s => return .int (Int64.ofNat s.toList.length)
  | .slice items => return .int (Int64.ofNat items.length)
  | v => throw (c.wrongKind "obj" .textOrSlice v)

/-- The first item of a slice. -/
def first (c : Call) : Except EvalError Value := do
  match (← c.slice "arr").head? with
  | some v => return v
  | none => throw (.indexOutOfRange 0 0)

/-- The last item of a slice. -/
def last (c : Call) : Except EvalError Value := do
  match (← c.slice "arr").getLast? with
  | some v => return v
  | none => throw (.indexOutOfRange (-1) 0)

/-- The integers from `i` on in steps of `step`, as far as they stay before `stop` and fit. `done`
holds those so far, read backwards. -/
def progression (step stop : Int64) (done : List Int64) (i : Int64) : List Int64 :=
  if 0 < step ∧ i < stop ∨ step < 0 ∧ stop < i then
    match _h : Integer.ofInt? (i.toInt + step.toInt) with
    | some next => progression step stop (i :: done) next
    | none => (i :: done).reverse
  else done.reverse
termination_by if 0 < step then (stop.toInt - i.toInt).toNat else (i.toInt - stop.toInt).toNat
decreasing_by
  have hnext := (Integer.toInt_of_ofInt? _h).1
  simp only [Int64.lt_iff_toInt_lt, Int64.toInt_zero] at *
  split <;> omega

/-- The progression from one integer toward another. The sign of the step does not matter; the
least integer has no magnitude of its own and counts as the greatest. -/
def seq (c : Call) : Except EvalError Value := do
  let start ← c.int "first"
  let stop ← c.int "last"
  let step ← c.int "step"
  if step = 0 then throw (c.invalid .zeroStep)
  let size := Integer.magnitude step
  let step := if stop < start then -size else size
  return .slice ((progression step stop [] start).map .int)

/-- A random integer from zero to below a bound. -/
def random {m : Type → Type} [Monad m] (host : Host m) (c : Call) :
    ExceptT EvalError m Value := do
  let n ← settled (c.int "num")
  if n ≤ 0 then throw (c.invalid (.notPositive n))
  return .int (Int64.ofNat (← host.random n.toInt.toNat))

/-- The magnitude of a number. -/
def abs (c : Call) : Except EvalError Value := do
  match ← c.get "num" with
  | .int n => Value.exact .abs n.toInt.natAbs
  | .double x => return .double x.abs
  | v => throw (c.wrongKind "num" .number v)

/-- The square root of a number. -/
def sqrt (c : Call) : Except EvalError Value := do
  let x ← c.number "num"
  if x < 0.0 then throw (c.invalid (.negativeRoot x))
  return .double x.sqrt

/-- The value that comes first among those that nothing surpasses. -/
def extremeOf (keep : Ordering) (best : Value) : List Value → Except EvalError Value
  | [] => .ok best
  | v :: vs => do
    let o ← v.order best
    extremeOf keep (if o = keep then v else best) vs

/-- The extreme of the arguments, where a later value surpasses the best one so far if it
compares as `keep`. -/
def extreme (keep : Ordering) (c : Call) : Except EvalError Value := do
  match ← c.flattened "args" with
  | [] => throw (c.missing "args")
  | v :: vs => extremeOf keep v vs

/-- Whether all arguments count as true. -/
def all (c : Call) : Except EvalError Value := do
  return .bool ((← c.flattened "args").all Value.isTruthy)

/-- Whether some argument counts as true. -/
def any (c : Call) : Except EvalError Value := do
  return .bool ((← c.flattened "args").any Value.isTruthy)

/-- The decimal number of an argument of an average. -/
def summand (c : Call) : Value → Except EvalError Decimal.Fixed
  | .int n => .ok (.ofInt n.toInt)
  | .double x =>
    match Decimal.Fixed.ofFloat? x with
    | some d => .ok d
    | none => .error (c.invalid (.notAveraged x))
  | v => .error (c.wrongKind "args" .numbers v)

/-- Adds the arguments of an average. -/
def total (c : Call) (sum : Decimal.Fixed) : List Value → Except EvalError Decimal.Fixed
  | [] => .ok sum
  | v :: vs => do
    let d ← summand c v
    match sum.add? d with
    | some sum => total c sum vs
    | none => throw (.overflow .average)

/-- The average of the arguments. -/
def average (c : Call) : Except EvalError Value := do
  match ← c.flattened "args" with
  | [] => throw (c.missing "args")
  | vs =>
    let sum ← total c .zero vs
    return .double (sum.divide vs.length).toFloat

end ConfigLang.Builtin
