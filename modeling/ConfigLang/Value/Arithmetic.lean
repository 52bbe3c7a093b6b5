import ConfigLang.Value.Integer
import ConfigLang.Value.Order

/-!
# Operators on values

Every operator applied to values. Arithmetic on integers is exact or an error; an integer beside
a double becomes a double; powers are computed in doubles. Bit operations take integers only.
-/

namespace ConfigLang.Value

/-- An exact integer result. -/
def exact (op : Operation) (n : Int) : Except EvalError Value :=
  match Integer.ofInt? n with
  | some n => .ok (int n)
  | none => .error (.overflow op)

/-- The bounds of the 64-bit integers as doubles. -/
def floatBound : Float := 9223372036854775808.0

/-- A power of integers, computed in doubles. A negative exponent gives a double. -/
def intPower (a b : Int64) : Except EvalError Value :=
  let r := Float.pow a.toFloat b.toFloat
  if b < 0 then .ok (double r)
  else if !r.isFinite || floatBound ≤ r || r < -floatBound then .error (.overflow (.binary .pow))
  else .ok (int r.toInt64)

/-- The arithmetic operators. -/
inductive Arith where
  | add
  | sub
  | mul
  | div
  | mod
  | pow
deriving DecidableEq, Repr

/-- The infix operator. -/
def Arith.op : Arith → BinaryOp
  | add => .add
  | sub => .sub
  | mul => .mul
  | div => .div
  | mod => .mod
  | pow => .pow

/-- Arithmetic on integers. Quotients are cut toward zero, and a remainder belongs to a quotient
that has to fit. -/
def intArith (op : Arith) (a b : Int64) : Except EvalError Value :=
  let x := a.toInt
  let y := b.toInt
  let binary := Operation.binary op.op
  match op with
  | .add => exact binary (x + y)
  | .sub => exact binary (x - y)
  | .mul => exact binary (x * y)
  | .div => if y = 0 then .error .zeroDivision else exact binary (x.tdiv y)
  | .mod =>
    if y = 0 then .error .zeroDivision
    else do
      let _ ← exact binary (x.tdiv y)
      exact binary (x.tmod y)
  | .pow => intPower a b

/-- Arithmetic on doubles. -/
def floatArith (op : Arith) (x y : Float) : Except EvalError Value :=
  match op with
  | .add => .ok (double (x + y))
  | .sub => .ok (double (x - y))
  | .mul => .ok (double (x * y))
  | .div => if y == 0.0 then .error .zeroDivision else .ok (double (x / y))
  | .mod => if y == 0.0 then .error .zeroDivision else .ok (double (Decimal.remainder x y))
  | .pow => .ok (double (Float.pow x y))

/-- Arithmetic on values. -/
def arith (op : Arith) (a b : Value) : Except EvalError Value :=
  match a, b with
  | int m, int n => intArith op m n
  | int m, double y => floatArith op m.toFloat y
  | double x, int n => floatArith op x n.toFloat
  | double x, double y => floatArith op x y
  | int _, b => .error (.incompatible (.binary op.op) .int b.kind)
  | double _, b => .error (.incompatible (.binary op.op) .double b.kind)
  | a, _ => .error (.unsupported (.binary op.op) (.value a.kind))

/-- The bit operators. -/
inductive Bitwise where
  | and
  | or
  | xor
  | shl
  | shr
deriving DecidableEq, Repr

/-- The infix operator. -/
def Bitwise.op : Bitwise → BinaryOp
  | and => .bitAnd
  | or => .bitOr
  | xor => .bitXor
  | shl => .shl
  | shr => .shr

/-- The integer shifted by an amount below 64. -/
def shifted (op : Bitwise) (amount : Int64) (result : Int64) : Except EvalError Value :=
  if amount < 0 ∨ 64 ≤ amount then
    .error (.invalidArgument op.op.symbol (.shiftAmount amount))
  else .ok (int result)

/-- Bit operations on values. A right shift keeps the sign. -/
def bitwise (op : Bitwise) (a b : Value) : Except EvalError Value :=
  match a, b with
  | int m, int n =>
    match op with
    | .and => .ok (int (m &&& n))
    | .or => .ok (int (m ||| n))
    | .xor => .ok (int (m ^^^ n))
    | .shl => shifted op n (m <<< n)
    | .shr => shifted op n (m >>> n)
  | int _, double _ => .error (.unsupported (.binary op.op) (.value .double))
  | int _, b => .error (.incompatible (.binary op.op) .int b.kind)
  | a, _ => .error (.unsupported (.binary op.op) (.value a.kind))

/-- An infix operator applied to two values. The logical ones look at both. -/
def binary (op : BinaryOp) (a b : Value) : Except EvalError Value :=
  match op with
  | .or => .ok (bool (a.isTruthy || b.isTruthy))
  | .and => .ok (bool (a.isTruthy && b.isTruthy))
  | .eq => (equals a b).map bool
  | .ne => (equals a b).map fun same => bool !same
  | .lt => (order a b).map fun o => bool o.isLT
  | .le => (order a b).map fun o => bool o.isLE
  | .gt => (order a b).map fun o => bool o.isGT
  | .ge => (order a b).map fun o => bool o.isGE
  | .bitOr => bitwise .or a b
  | .bitXor => bitwise .xor a b
  | .bitAnd => bitwise .and a b
  | .shl => bitwise .shl a b
  | .shr => bitwise .shr a b
  | .add => arith .add a b
  | .sub => arith .sub a b
  | .mul => arith .mul a b
  | .div => arith .div a b
  | .mod => arith .mod a b
  | .pow => arith .pow a b

/-- A prefix operator applied to a value. -/
def unary (op : UnaryOp) (a : Value) : Except EvalError Value :=
  match op, a with
  | .neg, int n => exact (.unary .neg) (-n.toInt)
  | .neg, double x => .ok (double (-x))
  | .not, a => .ok (bool !a.isTruthy)
  | .bitNot, int n => .ok (int (~~~n))
  | op, a => .error (.unsupported (.unary op) (.value a.kind))

/-- The place in a sequence of a given length that an index denotes; a negative one counts from
the end. -/
def place (index : Int64) (length : Nat) : Except EvalError Nat :=
  let i := if index < 0 then length + index.toInt else index.toInt
  if i < 0 ∨ length ≤ i then .error (.indexOutOfRange index length) else .ok i.toNat

/-- One item of a slice or one character of a text. -/
def index (a i : Value) : Except EvalError Value :=
  match i with
  | int i =>
    match a with
    | slice items => do return items.getD (← place i items.length) null
    | text s => do
      let cs := s.toList
      return text (String.ofList ((cs.drop (← place i cs.length)).take 1))
    | a => .error (.unsupported .index (.value a.kind))
  | i => .error (.incompatible .index a.kind i.kind)

end ConfigLang.Value
