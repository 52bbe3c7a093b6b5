import ConfigLang.Decimal.Shortest

/-!
# Layouts of decimal numbers

How the digits of a double are set: which magnitudes are written out and which get an exponent,
whether a whole number shows a fraction, and which way a tie between two shortest decimals goes.
-/

namespace ConfigLang.Decimal

/-- The choices of one number format. -/
structure Layout where
  /-- Magnitudes `10 ^ e` that are written out in full; `none` writes out every one. -/
  plain : Option (Int × Int)
  /-- Whether a whole number ends in `.0`. -/
  wholeFraction : Bool
  tie : Tie
deriving Repr

private def digitText (digits : List Nat) : List Char :=
  digits.map fun d => Char.ofNat (48 + d)

private def zeros (n : Nat) : List Char :=
  List.replicate n '0'

/-- The digits with the point set in its place. -/
def Digits.positional (wholeFraction : Bool) (d : Digits) : List Char :=
  let count := d.digits.length
  if d.point ≤ 0 then '0' :: '.' :: zeros (-d.point).toNat ++ digitText d.digits
  else
    let whole := d.point.toNat
    if whole < count then
      digitText (d.digits.take whole) ++ '.' :: digitText (d.digits.drop whole)
    else
      digitText d.digits ++ zeros (whole - count) ++ if wholeFraction then ['.', '0'] else []

/-- One digit before the point, and a signed exponent. -/
def Digits.scientific (d : Digits) : List Char :=
  let exponent := d.point - 1
  let fraction := d.digits.drop 1
  digitText (d.digits.take 1) ++ (if fraction.isEmpty then [] else '.' :: digitText fraction) ++
    ('e' :: (if exponent < 0 then '-' else '+') :: (toString exponent.natAbs).toList)

/-- The text of a finite number. -/
def Layout.finite (l : Layout) (s : Scaled) : String :=
  let sign := if s.negative then ['-'] else []
  String.ofList <| sign ++
    if s.mantissa = 0 then '0' :: if l.wholeFraction then ['.', '0'] else []
    else
      let d := shortest l.tie s
      let plain := match l.plain with
        | none => true
        | some (least, greatest) => least ≤ d.point - 1 && d.point - 1 ≤ greatest
      if plain then d.positional l.wholeFraction else d.scientific

/-- The layout of a shown double: always written out, without a needless fraction, a tie going
to the greater digit. -/
def Layout.shown : Layout := ⟨none, false, .up⟩

/-- The layout of a double in JSON: written out from `10 ^ -5` up to below `10 ^ 16`, a whole
number ending in `.0`, a tie going to the even digit. -/
def Layout.json : Layout := ⟨some (-5, 15), true, .even⟩

/-- The text of a double as a value. -/
def floatText (x : Float) : String :=
  match Scaled.ofFloat? x with
  | some s => Layout.shown.finite s
  | none => if x.isNaN then "NaN" else if x < 0 then "-inf" else "inf"

end ConfigLang.Decimal
