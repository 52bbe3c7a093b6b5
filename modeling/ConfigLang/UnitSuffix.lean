/-!
# Units

A number may be followed by a unit, which multiplies it: sizes in bytes and durations in
seconds.
-/

namespace ConfigLang

/-- The units of sizes and durations. -/
inductive UnitSuffix where
  | kilobyte
  | megabyte
  | gigabyte
  | terabyte
  | second
  | minute
  | hour
  | day
  | week
deriving DecidableEq, Repr

namespace UnitSuffix

/-- Every unit. -/
def all : List UnitSuffix :=
  [kilobyte, megabyte, gigabyte, terabyte, second, minute, hour, day, week]

/-- How a unit is written. -/
def text : UnitSuffix → String
  | kilobyte => "KB"
  | megabyte => "MB"
  | gigabyte => "GB"
  | terabyte => "TB"
  | second => "s"
  | minute => "m"
  | hour => "h"
  | day => "d"
  | week => "w"

/-- What a unit multiplies a number by. -/
def factor : UnitSuffix → Nat
  | kilobyte => Nat.pow 2 10
  | megabyte => Nat.pow 2 20
  | gigabyte => Nat.pow 2 30
  | terabyte => Nat.pow 2 40
  | second => 1
  | minute => 60
  | hour => 3600
  | day => 86400
  | week => 604800

/-- The unit of a spelling. -/
def ofText? (s : String) : Option UnitSuffix :=
  all.find? (·.text = s)

/-- Splits the unit off a number. The letters at the end of the text must be a unit as a whole,
and a hexadecimal number has none, since its digits may be letters. -/
def split (text : String) : String × Option UnitSuffix :=
  let cs := text.toList
  match cs.dropWhile (· == '-') with
  | '0' :: 'x' :: _ | '0' :: 'X' :: _ => (text, none)
  | _ =>
    let letters := (cs.reverse.takeWhile Char.isAlpha).reverse
    match ofText? (String.ofList letters) with
    | some unit => (String.ofList (cs.take (cs.length - letters.length)), some unit)
    | none => (text, none)

end UnitSuffix

end ConfigLang
