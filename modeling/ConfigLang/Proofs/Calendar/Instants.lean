import Mathlib
import ConfigLang.Proofs.Calendar.Days
import ConfigLang.Proofs.Calendar.Literals
import ConfigLang.Proofs.Calendar.Printing

/-!
# Moments written with other offsets

A moment may be written with another offset, if its clock and its offset are moved by the same
number of minutes and its date is carried over the midnights in between (`Moment.moved?`).  What is
written then is a literal of the same kind, which is at the same instant and compares with every
other moment as the first one does (`order_of_literal`); and what is left out of a moment counts as
`Z` and as midnight (`Moment.filled`).

An inserted second is an exception.  It is on its own in UTC only: for an offset that is behind it
is taken for the second 59, and for one that is ahead it is taken for the second that follows
(`ofReading_of_isLeap`).  So it has to stay on its side of UTC.
-/

namespace ConfigLang

open Calendar

namespace Calendar

/-! ## Moving the clock and the offset -/

/-- The minutes since midnight. -/
def Clock.minuteOfDay (c : Clock) : Nat :=
  c.hour * 60 + c.minute

/-- The reading of a clock that is `k` minutes ahead of this one. -/
def Clock.moved (c : Clock) (k : Int) : Clock :=
  let minutes := ((c.minuteOfDay + k) % 1440).toNat
  { c with
    hour := minutes / 60
    minute := minutes % 60
    hour_lt := by omega
    minute_lt := by omega }

@[simp] theorem Clock.second_moved (c : Clock) (k : Int) : (c.moved k).second = c.second := rfl

@[simp] theorem Clock.nano_moved (c : Clock) (k : Int) : (c.moved k).nano = c.nano := rfl

/-- How many midnights lie between the two readings. -/
def Clock.midnights (c : Clock) (k : Int) : Int :=
  (c.minuteOfDay + k) / 1440

/-- The minutes by which an offset is ahead of UTC, where none counts as UTC. -/
def aheadOf (offset : Option Offset) : Int :=
  offset.elim 0 Offset.minutes

/-- A moment as it is written with an offset that is `k` minutes further ahead.  A clock without a
date must not pass midnight. -/
def Moment.moved? (k : Int) : Moment → Option Moment
  | .date _ => none
  | .time clock offset =>
    if clock.midnights k = 0 then
      (Offset.ofMinutes? (aheadOf offset + k)).map fun offset => .time (clock.moved k) (some offset)
    else none
  | .dateTime d clock offset =>
    (Offset.ofMinutes? (aheadOf offset + k)).map fun offset =>
      .dateTime (d.carry (clock.midnights k)) (clock.moved k) (some offset)

/-- The minutes by which a moment is written ahead of UTC. -/
def Moment.ahead : Moment → Int
  | .date _ => 0
  | .time _ offset => aheadOf offset
  | .dateTime _ _ offset => aheadOf offset

/-- Whether a moment lies in an inserted second. -/
def Moment.isLeap : Moment → Bool
  | .date _ => false
  | .time clock _ => clock.isLeap
  | .dateTime _ clock _ => clock.isLeap

/-- A moment with everything that it leaves out: the offset `Z`, and midnight for a date. -/
def Moment.filled : Moment → Moment
  | .date d =>
    .dateTime d ⟨0, 0, 0, 0, by decide, by decide, by decide, by decide⟩ (some .utc)
  | .time clock offset => .time clock (some (offset.getD .utc))
  | .dateTime d clock offset => .dateTime d clock (some (offset.getD .utc))

/-! ## The instants of readings -/

section

variable {day day' : Int} {clock clock' : Clock} {offset offset' : Option Offset}

/-- Whole seconds since the first day, as if there were no inserted ones. -/
def utcSecond (day : Int) (clock : Clock) (offset : Option Offset) : Int :=
  day * 86400 + clock.secondOfDay - aheadOf offset * 60

theorem ofReading_eq (day : Int) (clock : Clock) (offset : Option Offset) :
    Instant.ofReading day clock offset =
      if clock.isLeap then
        if aheadOf offset * 60 = 0 then
          ⟨day * 86400 + clock.secondOfDay, clock.nano + 1000000000⟩
        else if aheadOf offset * 60 < 0 then
          ⟨day * 86400 + clock.secondOfDay - aheadOf offset * 60, clock.nano⟩
        else ⟨day * 86400 + clock.secondOfDay + 1 - aheadOf offset * 60, clock.nano⟩
      else ⟨day * 86400 + clock.secondOfDay - aheadOf offset * 60, clock.nano⟩ := by
  cases offset <;> rfl

theorem ofReading_of_not_isLeap (h : clock.isLeap = false) :
    Instant.ofReading day clock offset = ⟨utcSecond day clock offset, clock.nano⟩ := by
  rw [ofReading_eq, h]
  rfl

/-- An inserted second is taken for one of three, according to the side of UTC that it is written
for. -/
theorem ofReading_of_isLeap (h : clock.isLeap = true) :
    Instant.ofReading day clock offset =
      if aheadOf offset = 0 then ⟨utcSecond day clock offset, clock.nano + 1000000000⟩
      else if aheadOf offset < 0 then ⟨utcSecond day clock offset, clock.nano⟩
      else ⟨utcSecond day clock offset + 1, clock.nano⟩ := by
  rw [ofReading_eq, if_pos h, utcSecond]
  generalize aheadOf offset = ahead
  split_ifs <;> simp only [Instant.mk.injEq, and_true] <;> omega

theorem sign_eq_iff {a b : Int} : a.sign = b.sign ↔ (a = 0 ↔ b = 0) ∧ (a < 0 ↔ b < 0) := by
  rcases Int.lt_trichotomy a 0 with ha | rfl | ha <;>
    rcases Int.lt_trichotomy b 0 with hb | rfl | hb <;>
    simp [Int.sign_eq_neg_one_of_neg, Int.sign_eq_one_of_pos, *] <;>
    omega

/-- Clocks that show the same second, at the same UTC time. -/
theorem ofReading_eq_iff (hsecond : clock'.second = clock.second) (hnano : clock'.nano = clock.nano)
    (hutc : utcSecond day' clock' offset' = utcSecond day clock offset) :
    Instant.ofReading day' clock' offset' = Instant.ofReading day clock offset ↔
      (clock.isLeap = true → (aheadOf offset').sign = (aheadOf offset).sign) := by
  have hleap : clock'.isLeap = clock.isLeap := by rw [Clock.isLeap, Clock.isLeap, hsecond]
  by_cases h : clock.isLeap = true
  · have hlt := clock.nano_lt
    rw [ofReading_of_isLeap (hleap.trans h), ofReading_of_isLeap h, hutc, hnano, imp_iff_right h,
      sign_eq_iff]
    generalize aheadOf offset = ahead, aheadOf offset' = ahead'
    split_ifs <;> simp only [Instant.mk.injEq, true_and, and_true, true_iff] <;> omega
  · have hplain := Bool.eq_false_of_not_eq_true h
    rw [ofReading_of_not_isLeap (hleap.trans hplain), ofReading_of_not_isLeap hplain, hutc, hnano]
    exact iff_of_true rfl fun hleap => absurd hleap h

/-- The UTC time stays where the clock and the offset move together. -/
theorem utcSecond_moved {k : Int} {o : Offset} (hoffset : o.minutes = aheadOf offset + k)
    (hday : day' = day + clock.midnights k) :
    utcSecond day' (clock.moved k) (some o) = utcSecond day clock offset := by
  have hsecond : ((clock.moved k).secondOfDay : Int) =
      clock.secondOfDay + k * 60 - clock.midnights k * 86400 := by
    simp only [Clock.secondOfDay, Clock.moved, Clock.midnights, Clock.minuteOfDay]
    omega
  have hahead : aheadOf (some o) = o.minutes := rfl
  rw [utcSecond, utcSecond, hsecond, hahead, hoffset, hday]
  omega

end

theorem Instant.order_eq_iff {a b : Instant} : a.order b = .eq ↔ a = b := by
  obtain ⟨s, n⟩ := a
  obtain ⟨s', n'⟩ := b
  rw [Instant.order, Ordering.then_eq_eq, compare_eq_iff_eq, compare_eq_iff_eq, Instant.mk.injEq]

namespace Moment

variable {m m' : Moment} {k : Int}

/-- Moving a moment moves its clock and its offset, and a date along with them. -/
theorem moved?_cases (h : m.moved? k = some m') :
    (∃ clock offset o, m = .time clock offset ∧ m' = .time (clock.moved k) (some o) ∧
      clock.midnights k = 0 ∧ o.minutes = aheadOf offset + k) ∨
    ∃ d clock offset o, m = .dateTime d clock offset ∧
      m' = .dateTime (d.carry (clock.midnights k)) (clock.moved k) (some o) ∧
      o.minutes = aheadOf offset + k := by
  cases m with
  | date d => cases h
  | time clock offset =>
      rw [moved?] at h
      split at h
      · rename_i hmidnights
        obtain ⟨o, ho, rfl⟩ := Option.map_eq_some_iff.mp h
        exact .inl ⟨clock, offset, o, rfl, rfl, hmidnights, Offset.ofMinutes?_eq_some.mp ho⟩
      · cases h
  | dateTime d clock offset =>
      obtain ⟨o, ho, rfl⟩ := Option.map_eq_some_iff.mp h
      exact .inr ⟨d, clock, offset, o, rfl, rfl, Offset.ofMinutes?_eq_some.mp ho⟩

theorem kind_moved (h : m.moved? k = some m') : m'.kind = m.kind := by
  obtain ⟨_, _, _, rfl, rfl, -⟩ | ⟨_, _, _, _, rfl, rfl, -⟩ := moved?_cases h
  · rfl
  · rfl

theorem isTime_moved (h : m.moved? k = some m') : m'.isTime = m.isTime := by
  obtain ⟨_, _, _, rfl, rfl, -⟩ | ⟨_, _, _, _, rfl, rfl, -⟩ := moved?_cases h
  · rfl
  · rfl

/-- A moment that is written with another offset is the same instant, except that an inserted second
has to be on the same side of UTC. -/
theorem instant_moved_iff (h : m.moved? k = some m') :
    m'.instant = m.instant ↔ (m.isLeap = true → m'.ahead.sign = m.ahead.sign) := by
  obtain ⟨clock, offset, o, rfl, rfl, hmidnights, ho⟩ | ⟨d, clock, offset, o, rfl, rfl, ho⟩ :=
    moved?_cases h
  · have hutc : utcSecond 0 (clock.moved k) (some o) = utcSecond 0 clock offset :=
      utcSecond_moved ho (by rw [hmidnights]; rfl)
    exact ofReading_eq_iff (clock.second_moved k) (clock.nano_moved k) hutc
  · have hutc : utcSecond (d.carry (clock.midnights k)).dayNumber (clock.moved k) (some o) =
        utcSecond d.dayNumber clock offset := utcSecond_moved ho (d.dayNumber_carry _)
    exact ofReading_eq_iff (clock.second_moved k) (clock.nano_moved k) hutc

theorem instant_filled (m : Moment) : m.filled.instant = m.instant := by
  cases m with
  | date d => simp [filled, instant, Instant.ofReading, Clock.isLeap, Clock.secondOfDay, Offset.utc]
  | time clock offset => cases offset <;> rfl
  | dateTime d clock offset => cases offset <;> rfl

theorem isTime_filled (m : Moment) : m.filled.isTime = m.isTime := by
  cases m <;> rfl

/-- Moments at one instant compare alike. -/
theorem order?_congr (htime : m'.isTime = m.isTime) (hinstant : m'.instant = m.instant)
    (other : Moment) : m'.order? other = m.order? other ∧ other.order? m' = other.order? m := by
  unfold order?
  rw [htime, hinstant]
  exact ⟨rfl, rfl⟩

theorem order?_moved_iff (h : m.moved? k = some m') :
    m.order? m' = some .eq ↔ (m.isLeap = true → m'.ahead.sign = m.ahead.sign) := by
  rw [order?, if_pos (isTime_moved h).symm, Option.some.injEq, Instant.order_eq_iff, eq_comm]
  exact instant_moved_iff h

end Moment

end Calendar

/-! ## Literals -/

/-- **Moments compare by instant, whatever offset they are written with**, as long as an inserted
second stays on its side of UTC. -/
theorem order_of_literal {text : String} {token : Token} {m : Moment}
    (hmem : token ∈ Lexer.tokens text)
    (hliteral : Parse.literal token = .ok (.literal token (.moment m) none)) :
    (∀ k m', m.moved? k = some m' →
      (m'.InYears →
        let token' : Token := ⟨token.kind, m'.toText, .start⟩
        (∃ stop, Lexer.tokens m'.toText = [token', ⟨.eof, "", stop⟩]) ∧
          Parse.literal token' = .ok (.literal token' (.moment m') none)) ∧
      (m.order? m' = some .eq ↔ (m.isLeap = true → m'.ahead.sign = m.ahead.sign)) ∧
      ((m.isLeap = true → m'.ahead.sign = m.ahead.sign) →
        ∀ other, m'.order? other = m.order? other ∧ other.order? m' = other.order? m)) ∧
    ∀ other, m.filled.order? other = m.order? other ∧ other.order? m.filled = other.order? m := by
  obtain ⟨hkind, hm⟩ := calendar_of_literal hliteral
  obtain ⟨t, htoken, htext⟩ := Lexer.exists_of_calendar hmem hkind
  rw [htext] at hm
  have hwrites := Lexeme.CalendarText.ofText?_eq_some.mp hm
  refine ⟨fun k m' hmoved => ⟨fun hyears => ?_, m.order?_moved_iff hmoved, fun hside => ?_⟩, ?_⟩
  · obtain ⟨t', hchars, hwrites', hkind', hlength⟩ := Lexeme.exists_calendarText hyears
    have hprinted : m'.toText = String.ofList t'.chars :=
      String.toList_injective (hchars.trans String.toList_ofList.symm)
    have hsame : token.kind = t'.kind := by
      rw [htoken, hwrites.kind_eq, hkind', Moment.kind_moved hmoved]
    have hread : Moment.ofText? (String.ofList t'.chars) = some m' :=
      Lexeme.CalendarText.ofText?_eq_some.mpr hwrites'
    rw [hprinted]
    exact ⟨hsame ▸ Lexer.tokens_chars hlength, literal_of_moment hkind hread⟩
  · exact Moment.order?_congr (Moment.isTime_moved hmoved)
      ((Moment.instant_moved_iff hmoved).mpr hside)
  · exact Moment.order?_congr m.isTime_filled m.instant_filled

/-- Half an hour to midnight of the last day of a year, and half an hour later than midnight. -/
theorem order_of_literal_new_year :
    let token : Token := ⟨.dateTime, "2016-12-31T23:30:00.5-00:30", .start⟩
    let m : Moment := .dateTime ⟨2016, 12, 31, by decide, by decide⟩
      ⟨23, 30, 0, 500000000, by decide, by decide, by decide, by decide⟩ (some ⟨-30, by decide⟩)
    let m' : Moment := .dateTime ⟨2017, 1, 1, by decide, by decide⟩
      ⟨0, 30, 0, 500000000, by decide, by decide, by decide, by decide⟩ (some ⟨30, by decide⟩)
    token ∈ Lexer.tokens "2016-12-31T23:30:00.5-00:30" ∧
      Parse.literal token = .ok (.literal token (.moment m) none) ∧ m.moved? 60 = some m' ∧
      m'.toText = "2017-01-01T00:30:00.500+00:30" ∧ m.order? m' = some .eq ∧
      ∀ other, m'.order? other = m.order? other ∧ other.order? m' = other.order? m := by
  intro token m m'
  have hmem : token ∈ Lexer.tokens "2016-12-31T23:30:00.5-00:30" :=
    Lexer.mem_tokens_of_next (by decide +kernel) nofun
  have hliteral : Parse.literal token = .ok (.literal token (.moment m) none) :=
    literal_of_moment rfl (by decide +kernel)
  have hmoved : m.moved? 60 = some m' := by decide +kernel
  have hside : m.isLeap = true → m'.ahead.sign = m.ahead.sign := fun h => by cases h
  obtain ⟨hothers, -⟩ := order_of_literal hmem hliteral
  obtain ⟨-, horder, halike⟩ := hothers 60 m' hmoved
  exact ⟨hmem, hliteral, hmoved, by decide +kernel, horder.mpr hside, halike hside⟩

/-- The second that was inserted at the end of a year is taken for the one that follows an hour
further east. -/
theorem order_of_inserted_second :
    let token : Token := ⟨.dateTime, "2016-12-31T23:59:60Z", .start⟩
    let m : Moment := .dateTime ⟨2016, 12, 31, by decide, by decide⟩
      ⟨23, 59, 60, 0, by decide, by decide, by decide, by decide⟩ (some .utc)
    let m' : Moment := .dateTime ⟨2017, 1, 1, by decide, by decide⟩
      ⟨0, 59, 60, 0, by decide, by decide, by decide, by decide⟩ (some ⟨60, by decide⟩)
    token ∈ Lexer.tokens "2016-12-31T23:59:60Z" ∧
      Parse.literal token = .ok (.literal token (.moment m) none) ∧ m.moved? 60 = some m' ∧
      m'.toText = "2017-01-01T00:59:60+01:00" ∧ Moment.ofText? m'.toText = some m' ∧
      m.order? m' = some .lt := by
  intro token m m'
  refine ⟨Lexer.mem_tokens_of_next (by decide +kernel) nofun,
    literal_of_moment rfl (by decide +kernel), ?_⟩
  exact ⟨by decide +kernel, by decide +kernel, by decide +kernel, by decide +kernel⟩

end ConfigLang
