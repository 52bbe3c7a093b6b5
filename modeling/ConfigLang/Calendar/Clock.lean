import ConfigLang.Calendar.Date

/-!
# Times of day

A clock reading to the nanosecond, in which any minute may have a second 60, and the distance
of a zone from UTC in whole minutes.
-/

namespace ConfigLang.Calendar

/-- A reading of a clock. -/
structure Clock where
  hour : Nat
  minute : Nat
  second : Nat
  nano : Nat
  hour_lt : hour < 24
  minute_lt : minute < 60
  second_le : second ≤ 60
  nano_lt : nano < 1000000000
deriving DecidableEq, Repr

/-- The reading with these fields, if they are in range. -/
def Clock.ofFields? (hour minute second nano : Nat) : Option Clock :=
  if h : hour < 24 ∧ minute < 60 ∧ second ≤ 60 ∧ nano < 1000000000 then
    some ⟨hour, minute, second, nano, h.1, h.2.1, h.2.2.1, h.2.2.2⟩
  else none

/-- Whether the reading lies in an inserted second. -/
def Clock.isLeap (c : Clock) : Bool :=
  c.second == 60

/-- The seconds since midnight; an inserted second counts as the one before it. -/
def Clock.secondOfDay (c : Clock) : Nat :=
  c.hour * 3600 + c.minute * 60 + min c.second 59

/-- The fraction in the fewest groups of three digits, none when it is zero. -/
def fractionText (nano : Nat) : String :=
  if nano = 0 then ""
  else if nano % 1000000 = 0 then "." ++ padded 3 (nano / 1000000)
  else if nano % 1000 = 0 then "." ++ padded 6 (nano / 1000)
  else "." ++ padded 9 nano

/-- The form `10:30:00`, with the fraction behind it. -/
def Clock.toText (c : Clock) : String :=
  padded 2 c.hour ++ ":" ++ padded 2 c.minute ++ ":" ++ padded 2 c.second ++ fractionText c.nano

/-- How far a zone is ahead of UTC, less than a day either way. -/
structure Offset where
  minutes : Int
  abs_lt : minutes.natAbs < 1440
deriving DecidableEq, Repr

/-- The offset of so many minutes, if it is less than a day. -/
def Offset.ofMinutes? (minutes : Int) : Option Offset :=
  if h : minutes.natAbs < 1440 then some ⟨minutes, h⟩ else none

/-- No distance from UTC. -/
def Offset.utc : Offset := ⟨0, by decide⟩

/-- The form `+02:00`, and `Z` for UTC itself. -/
def Offset.toText (o : Offset) : String :=
  if o.minutes = 0 then "Z"
  else
    let n := o.minutes.natAbs
    (if o.minutes < 0 then "-" else "+") ++ padded 2 (n / 60) ++ ":" ++ padded 2 (n % 60)

end ConfigLang.Calendar
