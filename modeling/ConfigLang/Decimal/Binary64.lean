/-!
# Binary floating point as exact numbers

A finite double is `± m · 2 ^ q`. This file reads that form off the bits, rounds a fraction to
the nearest double with ties to the even mantissa, and computes the remainder of a division,
which is exact.
-/

namespace ConfigLang.Decimal

/-- The number `± mantissa · 2 ^ exponent`. -/
structure Scaled where
  negative : Bool
  mantissa : Nat
  exponent : Int
deriving DecidableEq, Repr

/-- The exponent of the last mantissa bit of the smallest doubles. -/
def leastExponent : Int := -1074

/-- The sign, mantissa and exponent of a double; none for infinities and NaN. -/
def Scaled.ofFloat? (x : Float) : Option Scaled :=
  let bits : Nat := x.toBits.toNat
  let negative := decide (Nat.pow 2 63 ≤ bits)
  let biased : Nat := bits / Nat.pow 2 52 % Nat.pow 2 11
  let fraction : Nat := bits % Nat.pow 2 52
  if biased = 2047 then none
  else if biased = 0 then some ⟨negative, fraction, leastExponent⟩
  else some ⟨negative, fraction + Nat.pow 2 52, leastExponent + (biased - 1 : Nat)⟩

/-- The quotient of two natural numbers rounded to the nearest, a tie going to the even one. -/
def divideToEven (numerator denominator : Nat) : Nat :=
  let q := numerator / denominator
  let twice := 2 * (numerator % denominator)
  if denominator < twice ∨ (twice = denominator ∧ q % 2 = 1) then q + 1 else q

/-- The greatest `e` with `2 ^ e ≤ numerator / denominator`, both positive. -/
def binaryMagnitude (numerator denominator : Nat) : Int :=
  let e : Int := (numerator.log2 : Int) - denominator.log2
  if numerator <<< (-e).toNat < denominator <<< e.toNat then e - 1 else e

/-- The double nearest to a fraction, infinity beyond the greatest. The bits of a double are the
mantissa plus the exponent steps above the least one, times the weight of the hidden bit, so a
mantissa that rounds up to the next power of two carries into the exponent. -/
def nearestFloat (negative : Bool) (numerator denominator : Nat) : Float :=
  let magnitude : Nat :=
    if numerator = 0 then 0
    else
      let exponent := max (binaryMagnitude numerator denominator - 52) leastExponent
      let mantissa :=
        divideToEven (numerator <<< (-exponent).toNat) (denominator <<< exponent.toNat)
      min ((exponent - leastExponent).toNat * Nat.pow 2 52 + mantissa)
        (2047 * Nat.pow 2 52)
  Float.ofBits (UInt64.ofNat (magnitude + if negative then Nat.pow 2 63 else 0))

/-- The double that is exactly `± m · 2 ^ q`, if there is one, and the nearest otherwise. -/
def Scaled.toFloat (s : Scaled) : Float :=
  nearestFloat s.negative (s.mantissa <<< s.exponent.toNat) (1 <<< (-s.exponent).toNat)

/-- The nearest double to `digits · 10 ^ exponent`. Numbers far outside the range of doubles are
settled by their count of digits alone. -/
def floatOfDecimal (digits : Nat) (exponent : Int) : Float :=
  if digits = 0 then 0.0
  else
    -- `2 ^ b ≤ digits < 2 ^ (b + 1)`, and ten lies between the third and the fourth power of two
    let b : Int := digits.log2
    if 1100 < b + 3 * exponent ∧ 0 ≤ exponent then 1.0 / 0.0
    else if b + 3 * exponent < -1200 ∧ exponent < 0 then 0.0
    else nearestFloat false (digits * Nat.pow 10 exponent.toNat) (Nat.pow 10 (-exponent).toNat)

/-- The remainder of dividing `a` by `b` with the quotient cut toward zero; it has the sign of
`a`. Dividing an infinity or by zero gives NaN, and dividing by an infinity gives `a`. -/
def remainder (a b : Float) : Float :=
  match Scaled.ofFloat? a, Scaled.ofFloat? b with
  | some x, some y =>
    if y.mantissa = 0 then 0.0 / 0.0
    else
      let exponent := min x.exponent y.exponent
      let m := (x.mantissa <<< (x.exponent - exponent).toNat) %
        (y.mantissa <<< (y.exponent - exponent).toNat)
      Scaled.toFloat ⟨x.negative, m, exponent⟩
  | some _, none => if b.isNaN then b else a
  | none, _ => 0.0 / 0.0

end ConfigLang.Decimal
