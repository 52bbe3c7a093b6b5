import ConfigLang.Decimal.Binary64

/-!
# The fewest digits that read back

Among the decimals that a double is nearest to, `Decimal.shortest` finds one with the fewest
digits, and of those the nearest to the double. The doubles between which a decimal reads back
as `m · 2 ^ q` are the midpoints to its neighbours, and these belong to the interval when `m` is
even.
-/

namespace ConfigLang.Decimal

/-- The number `0.d₁d₂… · 10 ^ (point)` for the digits `d₁ d₂ …` of `digits`. -/
structure Digits where
  digits : List Nat
  point : Int
deriving DecidableEq, Repr

/-- Which of two equally near decimals is taken. -/
inductive Tie where
  | up
  | even
deriving DecidableEq, Repr

/-- The decimal digits of a number, most significant first, in front of `rest`. -/
def digitsOf (n : Nat) (rest : List Nat) : List Nat :=
  if h : n = 0 then rest else digitsOf (n / 10) (n % 10 :: rest)
termination_by n
decreasing_by exact Nat.div_lt_self (Nat.pos_of_ne_zero h) (by decide)

/-- The number of decimal digits; none for zero. -/
def digitCount (n : Nat) : Nat :=
  (digitsOf n []).length

/-- The greatest `e` with `10 ^ e ≤ numerator / denominator`, both positive. -/
def decimalMagnitude (numerator denominator : Nat) : Int :=
  let e : Int := (digitCount numerator : Int) - digitCount denominator
  if numerator * Nat.pow 10 (-e).toNat < denominator * Nat.pow 10 e.toNat then e - 1 else e

/-- The interval of numbers that read back as a double, over one denominator. -/
structure Interval where
  low : Nat
  value : Nat
  high : Nat
  denominator : Nat
  closed : Bool
deriving DecidableEq, Repr

/-- The interval of `m · 2 ^ q`. Below a power of two the doubles lie twice as close. -/
def Interval.ofScaled (s : Scaled) : Interval :=
  let m := 4 * s.mantissa
  let low := if s.mantissa = Nat.pow 2 52 ∧ leastExponent < s.exponent then m - 1 else m - 2
  let up := s.exponent.toNat
  ⟨low <<< up, m <<< up, (m + 2) <<< up, 4 <<< (-s.exponent).toNat, s.mantissa % 2 == 0⟩

/-- Whether `n · 10 ^ e` lies in the interval. -/
def Interval.holds (i : Interval) (n : Nat) (e : Int) : Bool :=
  let x := n * Nat.pow 10 e.toNat * i.denominator
  let unit := Nat.pow 10 (-e).toNat
  if i.closed then i.low * unit ≤ x && x ≤ i.high * unit
  else i.low * unit < x && x < i.high * unit

/-- The nearer of the two neighbours of the value on the grid of the multiples of `10 ^ e`, if
one of them lies in the interval. -/
def Interval.onGrid? (i : Interval) (tie : Tie) (e : Int) : Option Nat :=
  let numerator := i.value * Nat.pow 10 (-e).toNat
  let denominator := i.denominator * Nat.pow 10 e.toNat
  let n := numerator / denominator
  let twice := 2 * (numerator % denominator)
  let below := i.holds n e
  let above := i.holds (n + 1) e
  let takeAbove := denominator < twice ||
    (twice == denominator && (tie == .up || n % 2 == 1))
  if below && above then some (if takeAbove then n + 1 else n)
  else if below then some n
  else if above then some (n + 1)
  else none

/-- The first grid with a hit, from `count` digits on; seventeen digits always suffice. -/
def Interval.search (i : Interval) (tie : Tie) (magnitude : Int) : Nat → Nat → Nat × Int
  | _, 0 => (i.value / i.denominator, 0)
  | count, fuel + 1 =>
    let e := magnitude - count
    match i.onGrid? tie e with
    | some n => (n, e)
    | none => i.search tie magnitude (count + 1) fuel

/-- The digits without the zeros at their end. -/
def dropTrailingZeros (digits : List Nat) : List Nat :=
  (digits.reverse.dropWhile (· == 0)).reverse

/-- The shortest digits of a double other than zero. -/
def shortest (tie : Tie) (s : Scaled) : Digits :=
  let i := Interval.ofScaled s
  let (n, e) := i.search tie (decimalMagnitude i.value i.denominator) 0 18
  let digits := digitsOf n []
  ⟨dropTrailingZeros digits, e + digits.length⟩

end ConfigLang.Decimal
