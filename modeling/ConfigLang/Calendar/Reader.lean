import ConfigLang.Calendar.Moment
import ConfigLang.Text.Blank
import ConfigLang.Text.Utf8

/-!
# Reading moments

`Moment.ofText?` reads a date `2024-03-01`, a time `10:30`, `10:30:00` or `10:30:00.5` with an
optional zone `Z` or `+02:00`, or a date and a time with one character between them. A text is
taken to begin with a date when its fifth byte is a hyphen; a date takes ten bytes, a zone the
last six.

Numbers may have blanks before them and fewer digits than their place, and a year a sign.
-/

namespace ConfigLang.Calendar

open ConfigLang.Text (isBlank byteLength splitAtByte?)

/-- The value of a list of decimal digits. -/
def digitsValue (cs : List Char) : Nat :=
  cs.foldl (fun n c => n * 10 + (c.toNat - '0'.toNat)) 0

/-- Reads one to `width` digits. -/
def readDigits? (width : Nat) (cs : List Char) : Option (Nat × List Char) :=
  let run := (cs.take width).takeWhile Char.isDigit
  if run.isEmpty then none else some (digitsValue run, cs.drop run.length)

/-- Reads one to `width` digits behind any blanks. -/
def readNumber? (width : Nat) (cs : List Char) : Option (Nat × List Char) :=
  readDigits? width (cs.dropWhile isBlank)

/-- Reads a year: up to four digits behind any blanks, or a sign and any number of digits. -/
def readYear? (cs : List Char) : Option (Int × List Char) :=
  match cs.dropWhile isBlank with
  | '-' :: r => (readDigits? r.length r).map fun (n, r) => (-(n : Int), r)
  | '+' :: r => (readDigits? r.length r).map fun (n, r) => ((n : Int), r)
  | r => (readDigits? 4 r).map fun (n, r) => ((n : Int), r)

/-- Reads one given character. -/
def readChar? (c : Char) : List Char → Option (List Char)
  | d :: r => if d = c then some r else none
  | [] => none

/-- Reads a whole text as a date. -/
def Date.ofChars? (cs : List Char) : Option Date := do
  let (year, r) ← readYear? cs
  let (month, r) ← readNumber? 2 (← readChar? '-' r)
  let (day, r) ← readNumber? 2 (← readChar? '-' r)
  guard r.isEmpty
  Date.ofFields? year month day

/-- Reads an optional fraction of a second as nanoseconds; digits past the ninth are dropped. -/
def readFraction? : List Char → Option (Nat × List Char)
  | '.' :: r => do
    let (n, rest) ← readDigits? 9 r
    some (n * Nat.pow 10 (9 - (r.length - rest.length)), rest.dropWhile Char.isDigit)
  | r => some (0, r)

/-- Reads a whole text as a clock reading; in five bytes there is no room for seconds. -/
def Clock.ofChars? (cs : List Char) : Option Clock := do
  let (hour, r) ← readNumber? 2 cs
  let (minute, r) ← readNumber? 2 (← readChar? ':' r)
  if byteLength cs = 5 then
    guard r.isEmpty
    Clock.ofFields? hour minute 0 0
  else
    let (second, r) ← readNumber? 2 (← readChar? ':' r)
    let (nano, r) ← readFraction? r
    guard r.isEmpty
    Clock.ofFields? hour minute second nano

/-- Reads a whole text as a number with an optional sign. -/
def readSigned? (cs : List Char) : Option Int :=
  let (negative, digits) := match cs with
    | '-' :: r => (true, r)
    | '+' :: r => (false, r)
    | r => (false, r)
  if digits.isEmpty || !digits.all Char.isDigit then none
  else
    let n : Int := digitsValue digits
    some (if negative then -n else n)

/-- Reads a zone of six bytes: a sign, two bytes of hours, one byte, two bytes of minutes. -/
def Offset.ofChars? (zone : List Char) : Option Offset := do
  let (sign, r) ← splitAtByte? 1 zone
  let (hours, r) ← splitAtByte? 2 r
  let (_, minutes) ← splitAtByte? 1 r
  let total := (← readSigned? hours) * 60 + (← readSigned? minutes)
  Offset.ofMinutes? (if sign = ['-'] then -total else total)

/-- The text before a zone of six bytes, and the zone. -/
def splitZone? (cs : List Char) : Option (List Char × List Char) := do
  let front := byteLength cs - 6
  guard (0 < front)
  let (clock, zone) ← splitAtByte? front cs
  guard (zone.head? = some '+' ∨ zone.head? = some '-')
  some (clock, zone)

/-- Reads a clock reading and its zone. -/
def readTime? (cs : List Char) : Option (Clock × Option Offset) :=
  if cs.getLast? = some 'Z' then
    (Clock.ofChars? cs.dropLast).map fun clock => (clock, some Offset.utc)
  else
    match splitZone? cs with
    | some (clock, zone) => do
      let offset ← Offset.ofChars? zone
      let clock ← Clock.ofChars? clock
      some (clock, some offset)
    | none => (Clock.ofChars? cs).map fun clock => (clock, none)

/-- Whether the fifth byte is a hyphen, and there are the bytes of a date. -/
def startsWithDate (cs : List Char) : Bool :=
  decide (10 ≤ byteLength cs) &&
    match splitAtByte? 4 cs with
    | some (_, '-' :: _) => true
    | _ => false

/-- Reads a moment. -/
def Moment.ofText? (text : String) : Option Moment :=
  let cs := text.toList
  if startsWithDate cs then do
    let (front, r) ← splitAtByte? 10 cs
    let date ← Date.ofChars? front
    if r.isEmpty then some (.date date)
    else
      let (_, r) ← splitAtByte? 11 cs
      let (clock, offset) ← readTime? r
      some (.dateTime date clock offset)
  else (readTime? cs).map fun (clock, offset) => .time clock offset

end ConfigLang.Calendar
