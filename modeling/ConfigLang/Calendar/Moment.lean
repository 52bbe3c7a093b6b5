import ConfigLang.Calendar.Clock

/-!
# Moments

A moment is a date, a time of day, or both; the latter two may carry an offset from UTC. Moments
are ordered by the instant that they denote, where a missing offset counts as UTC and a date
counts as its midnight. Times of day compare only with one another.

An inserted second keeps its place after the second before it as long as no offset moves the
reading; a move ahead takes it for the second 59, a move back for the second that follows.
-/

namespace ConfigLang.Calendar

/-- A calendar value. -/
inductive Moment where
  | date (date : Date)
  | time (clock : Clock) (offset : Option Offset)
  | dateTime (date : Date) (clock : Clock) (offset : Option Offset)
deriving DecidableEq, Repr

/-- A point on the time line: whole seconds and nanoseconds, the latter beyond a full second in
an inserted second. -/
structure Instant where
  seconds : Int
  nanos : Nat
deriving DecidableEq, Repr

/-- Instants are ordered by their seconds and then by their nanoseconds. -/
def Instant.order (a b : Instant) : Ordering :=
  (compare a.seconds b.seconds).then (compare a.nanos b.nanos)

/-- The instant of a clock reading on the day of number `day`, in UTC. -/
def Instant.ofReading (day : Int) (clock : Clock) (offset : Option Offset) : Instant :=
  let seconds := day * 86400 + clock.secondOfDay
  let ahead := match offset with
    | some o => o.minutes * 60
    | none => 0
  -- the seconds of an inserted second count as those of the one before it
  if clock.isLeap then
    if ahead = 0 then ⟨seconds, clock.nano + 1000000000⟩
    else if ahead < 0 then ⟨seconds - ahead, clock.nano⟩
    else ⟨seconds + 1 - ahead, clock.nano⟩
  else ⟨seconds - ahead, clock.nano⟩

/-- The instant of a moment. Times of day are placed on one common day. -/
def Moment.instant : Moment → Instant
  | .date d => ⟨d.dayNumber * 86400, 0⟩
  | .time clock offset => Instant.ofReading 0 clock offset
  | .dateTime d clock offset => Instant.ofReading d.dayNumber clock offset

/-- Whether the moment has no date. -/
def Moment.isTime : Moment → Bool
  | .time .. => true
  | _ => false

/-- The order of two moments, if they compare. -/
def Moment.order? (a b : Moment) : Option Ordering :=
  if a.isTime = b.isTime then some (a.instant.order b.instant) else none

private def offsetText : Option Offset → String
  | some o => o.toText
  | none => ""

/-- The ISO 8601 form of a moment. -/
def Moment.toText : Moment → String
  | .date d => d.toText
  | .time clock offset => clock.toText ++ offsetText offset
  | .dateTime d clock offset => d.toText ++ "T" ++ clock.toText ++ offsetText offset

end ConfigLang.Calendar
