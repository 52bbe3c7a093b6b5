import ConfigLang.Decimal.Binary64

/-!
# Averages in decimal arithmetic

An average is taken in decimal numbers with a mantissa of 96 bits and up to 28 places, so that
decimals such as 0.1 and 0.2 add up exactly. Sums and quotients are exact where the mantissa has
room for them, and are otherwise rounded to the most places that fit, a tie going to the even
digit.
-/

namespace ConfigLang.Decimal

/-- The number `mantissa / 10 ^ scale`. -/
structure Fixed where
  mantissa : Int
  scale : Nat
deriving DecidableEq, Repr

namespace Fixed

/-- The bound of a mantissa. -/
def bound : Nat := Nat.pow 2 96

/-- The most places of a number. -/
def maxScale : Nat := 28

/-- Zero. -/
def zero : Fixed := ⟨0, 0⟩

/-- A magnitude with a sign. -/
def signed (negative : Bool) (mantissa scale : Nat) : Fixed :=
  ⟨if negative then -(mantissa : Int) else mantissa, scale⟩

/-! ## From a double

A mantissa `m · 2 ^ q` becomes `m' / 10 ^ scale` in steps, each of which trades one factor. -/

/-- Multiplies by `2 ^ (-n)`, as `5 / 10` while the mantissa has room for it and by halving
otherwise; an even mantissa is halved at once. The places stay those of `n` fives. -/
def halve : Nat → Nat × Nat → Nat × Nat
  | 0, state => state
  | n + 1, (m, scale) =>
    if m % 2 = 0 then halve n (m / 2, scale - 1)
    else if 5 * m < bound then halve n (5 * m, scale)
    else halve n (m / 2, scale - 1)

/-- Divides by `5 ^ n`, as `2 / 10` while the mantissa has room for it and with a cut remainder
otherwise. The second component counts the tens that are still to be multiplied. -/
def divideByFives : Nat → Nat × Nat → Nat × Nat
  | 0, state => state
  | n + 1, (m, tens) =>
    if m < bound / 2 then divideByFives n (2 * m, tens - 1) else divideByFives n (m / 5, tens)

/-- Drops places by rounding half up, one at a time, down to `maxScale`. A mantissa that vanishes
is zero. -/
def dropPlaces : Nat → Nat × Nat → Nat × Nat
  | 0, state => state
  | n + 1, (m, scale) =>
    if m / 10 = 0 then (0, 0)
    else dropPlaces n (if 5 ≤ m % 10 then m / 10 + 1 else m / 10, scale - 1)

/-- Drops places by rounding half up while the mantissa takes more than 52 bits. -/
def dropPrecision (m : Nat) : Nat → Nat × Nat
  | 0 => (m, 0)
  | scale + 1 =>
    if Nat.pow 2 52 ≤ m then dropPrecision (if 5 ≤ m % 10 then m / 10 + 1 else m / 10) scale
    else (m, scale + 1)

/-- Drops the places that hold a zero. -/
def dropZeros (m : Nat) : Nat → Nat × Nat
  | 0 => (m, 0)
  | scale + 1 => if m % 10 = 0 then dropZeros (m / 10) scale else (m, scale + 1)

/-- The decimal number that stands for a double; none for one that is not finite or has too
large a magnitude. -/
def ofFloat? (x : Float) : Option Fixed := do
  let s ← Scaled.ofFloat? x
  if 0 ≤ s.exponent then
    let n := s.exponent.toNat
    let (m, tens) := divideByFives n (s.mantissa, n)
    let m := m * Nat.pow 10 tens
    guard (m < bound)
    some (signed s.negative m 0)
  else
    let n := (-s.exponent).toNat
    let (m, scale) := halve n (s.mantissa, n)
    let (m, scale) := dropPlaces (scale - maxScale) (m, scale)
    let (m, scale) := dropPrecision m scale
    let (m, scale) := dropZeros m scale
    some (signed s.negative m scale)

/-- The decimal number of an integer. -/
def ofInt (n : Int) : Fixed := ⟨n, 0⟩

/-! ## Sums and quotients -/

/-- The fraction `numerator / denominator` with the most places up to `scale` for which the
mantissa has room. -/
def fit? (numerator denominator : Nat) (scale : Nat) : Option (Nat × Nat) :=
  let m := divideToEven (numerator * Nat.pow 10 scale) denominator
  if m < bound then some (m, scale)
  else
    match scale with
    | 0 => none
    | scale + 1 => fit? numerator denominator scale
termination_by scale

/-- The sum of two numbers; none when it has no room. -/
def add? (a b : Fixed) : Option Fixed :=
  let scale := max a.scale b.scale
  let sum := a.mantissa * Nat.pow 10 (scale - a.scale) + b.mantissa * Nat.pow 10 (scale - b.scale)
  (fit? sum.natAbs (Nat.pow 10 scale) scale).map fun (m, scale) => signed (decide (sum < 0)) m scale

/-- The quotient by a positive number. A quotient that comes out even keeps the places of the
dividend. -/
def divide (a : Fixed) (n : Nat) : Fixed :=
  let m := a.mantissa.natAbs
  if m = 0 then zero
  else if m % n = 0 then signed (decide (a.mantissa < 0)) (m / n) a.scale
  else
    let (m, scale) := (fit? m (n * Nat.pow 10 a.scale) maxScale).getD (m / n, a.scale)
    let (m, scale) := dropZeros m scale
    signed (decide (a.mantissa < 0)) m scale

/-! ## To a double -/

/-- The power of a double by repeated squaring. -/
def power (base : Float) (n : Nat) (result : Float) : Float :=
  let result := if n % 2 = 1 then result * base else result
  if h : n / 2 = 0 then result else power (base * base) (n / 2) result
termination_by n
decreasing_by omega

/-- The double that stands for a number. The fraction is added to the whole part and the sum is
rounded to the places of the number. -/
def toFloat (a : Fixed) : Float :=
  let m := a.mantissa.natAbs
  let negate (x : Float) : Float := if a.mantissa < 0 then -x else x
  let whole (n : Nat) : Float := nearestFloat false n 1
  if a.scale = 0 then negate (whole m)
  else
    let unit := Nat.pow 10 a.scale
    let fraction := whole (m % unit) / whole unit
    if fraction == 0.0 then negate (whole (m / unit))
    else
      let places := power 10.0 a.scale 1.0
      negate (((whole (m / unit) + fraction) * places).round / places)

end Fixed

end ConfigLang.Decimal
