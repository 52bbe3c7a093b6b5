import ConfigLang.Eval.Error

/-!
# Comparing values

Numbers compare with numbers, and otherwise only values of one kind with each other: truth
values, texts by code points, moments by instant. Slices and null have no order, but slices are
equal item by item, and null may be tested for equality against everything.
-/

namespace ConfigLang.Value

/-- The order of two doubles; none if one of them is not a number. -/
def floatOrder? (a b : Float) : Option Ordering :=
  if a < b then some .lt
  else if a == b then some .eq
  else if b < a then some .gt
  else none

/-- The order of two numbers as doubles. -/
def numberOrder (a b : Float) : Except EvalError Ordering :=
  match floatOrder? a b with
  | some o => .ok o
  | none => .error (.unsupported .compare .nan)

/-- The order of two values. -/
def order (a b : Value) : Except EvalError Ordering :=
  match a, b with
  | int m, int n => .ok (compare m.toInt n.toInt)
  | int m, double y => numberOrder m.toFloat y
  | double x, int n => numberOrder x n.toFloat
  | double x, double y => numberOrder x y
  | bool p, bool q => .ok (compare p.toNat q.toNat)
  | text s, text t => .ok (if s < t then .lt else if s = t then .eq else .gt)
  | moment m, moment n =>
    match m.order? n with
    | some o => .ok o
    | none => .error (.incompatible .compare .moment .moment)
  | null, _ => .error (.unsupported .compare (.value .null))
  | slice _, _ => .error (.unsupported .compare (.value .slice))
  | a, b => .error (.incompatible .compare a.kind b.kind)

mutual

/-- Whether two values are equal. -/
def equals (a b : Value) : Except EvalError Bool :=
  match a, b with
  | null, b => .ok (b.kind == .null)
  | a, null => .ok (a.kind == .null)
  | int m, int n => .ok (m == n)
  | int m, double y => .ok (m.toFloat == y)
  | double x, int n => .ok (x == n.toFloat)
  | double x, double y => .ok (x == y)
  | bool p, bool q => .ok (p == q)
  | text s, text t => .ok (s == t)
  | moment m, moment n => do return (← order (moment m) (moment n)) == .eq
  | slice xs, slice ys => .ok (equalItems xs ys)
  | a, b => .error (.incompatible (.binary .eq) a.kind b.kind)

/-- Whether two lists have one length and equal items throughout; items that cannot be compared
are not equal. -/
def equalItems : List Value → List Value → Bool
  | [], [] => true
  | x :: xs, y :: ys =>
    (match equals x y with
      | .ok same => same
      | .error _ => false) && equalItems xs ys
  | _, _ => false

end

end ConfigLang.Value
