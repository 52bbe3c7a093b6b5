import Mathlib
import ConfigLang.Parse.Expr
import ConfigLang.Proofs.Token.Written
import ConfigLang.Proofs.Calendar.Reading

/-!
# Calendar literals that exist

A calendar token stands for a moment exactly if its date is in the calendar, its time is on a clock
and its offset is less than a day (`literal_of_calendar`).  The fields of the moment are then those
that are written.  The hours and minutes of an offset are not looked at one by one: only the sum of
them has to be less than a day, which for minutes up to 59 is the same as hours up to 23, but
beyond that takes `+10:75` for eleven hours and a quarter.

## Strategy

* **Two ranges.**  `CalendarText.IsReal` asks for every field to be in range, and
  `CalendarText.IsRead` for the sum of an offset only; they are the same if its minutes are less
  than an hour (`CalendarText.isRead_iff_isReal`).
* **Moments.**  Date, clock and offset have the fields that are written if these are in range, part
  by part (`CalendarText.exists_writes_iff`).
* **Decoding.**  Every calendar token is decoded by the reader of moments, and nothing else is
  (`Literal.decode_of_isCalendar`, `Literal.isCalendar_of_decode`).
-/

namespace ConfigLang

open Calendar

namespace Lexeme

/-! ## Fields in range -/

/-- Whether the month is one, and the day one of its days in that year. -/
def DateText.InCalendar (d : DateText) : Prop :=
  (1 ≤ d.month.value ∧ d.month.value ≤ 12) ∧
    1 ≤ d.day.value ∧ d.day.value ≤ daysInMonth d.year.value d.month.value

instance (d : DateText) : Decidable d.InCalendar :=
  inferInstanceAs (Decidable (_ ∧ _))

/-- Whether the time can be read off a clock, on which a minute may have a second 60. -/
def TimeText.OnClock (t : TimeText) : Prop :=
  t.minutes.hour.value ≤ 23 ∧ t.minutes.minute.value ≤ 59 ∧
    ∀ s ∈ t.seconds, s.second.value ≤ 60

instance (t : TimeText) : Decidable t.OnClock :=
  inferInstanceAs (Decidable (_ ∧ _))

/-- Whether the date and the time are in range. -/
def CalendarText.InRange : CalendarText → Prop
  | date d => d.InCalendar
  | time t => t.OnClock
  | dateTime d _ t => d.InCalendar ∧ t.OnClock

instance : (t : CalendarText) → Decidable t.InRange
  | .date d => inferInstanceAs (Decidable d.InCalendar)
  | .time t => inferInstanceAs (Decidable t.OnClock)
  | .dateTime d _ t => inferInstanceAs (Decidable (d.InCalendar ∧ t.OnClock))

/-- The hours and minutes of a zone. -/
def ZoneText.offset : ZoneText → Option MinutesText
  | utc => none
  | ahead offset => some offset
  | behind offset => some offset

/-- The hours and minutes of the offset, if one is written. -/
def CalendarText.offset (t : CalendarText) : Option MinutesText :=
  t.zone.bind ZoneText.offset

/-- A literal of which every field is in range. -/
structure CalendarText.IsReal (t : CalendarText) : Prop where
  inRange : t.InRange
  offset : ∀ m ∈ t.offset, m.hour.value ≤ 23 ∧ m.minute.value ≤ 59

instance (t : CalendarText) : Decidable t.IsReal :=
  decidable_of_iff (t.InRange ∧ ∀ m ∈ t.offset, m.hour.value ≤ 23 ∧ m.minute.value ≤ 59)
    ⟨fun h => ⟨h.1, h.2⟩, fun h => ⟨h.1, h.2⟩⟩

/-- A literal whose offset is only less than a day as a whole. -/
structure CalendarText.IsRead (t : CalendarText) : Prop where
  inRange : t.InRange
  offset : ∀ m ∈ t.offset, m.total < 1440

/-- As long as its minutes are less than an hour, an offset is less than a day if its hours are. -/
theorem CalendarText.isRead_iff_isReal {t : CalendarText}
    (h : ∀ m ∈ t.offset, m.minute.value ≤ 59) : t.IsRead ↔ t.IsReal := by
  constructor
  · rintro ⟨hrange, hoffset⟩
    refine ⟨hrange, fun m hm => ⟨?_, h m hm⟩⟩
    have htotal := hoffset m hm
    rw [MinutesText.total] at htotal
    omega
  · rintro ⟨hrange, hoffset⟩
    refine ⟨hrange, fun m hm => ?_⟩
    have hfields := hoffset m hm
    rw [MinutesText.total]
    omega

/-! ## Moments with the fields that are written -/

theorem DateText.exists_writes_iff {d : DateText} :
    (∃ date, d.Writes date) ↔ d.InCalendar := by
  constructor
  · rintro ⟨date, hyear, hmonth, hday⟩
    rw [InCalendar, ← hyear, ← hmonth, ← hday]
    exact ⟨date.month_mem, date.day_mem⟩
  · rintro ⟨hmonth, hday⟩
    exact ⟨⟨d.year.value, d.month.value, d.day.value, hmonth, hday⟩, rfl, rfl, rfl⟩

theorem SecondsText.nanos_lt (s : SecondsText) : s.nanos < 1000000000 := by
  rw [nanos]
  cases s.fraction with
  | none => decide
  | some f =>
      have hvalue : digitsValue f.chars < 10 ^ f.chars.length :=
        digitsValue_lt fun _ => f.isDigit_of_mem
      exact Nat.div_lt_of_lt_mul (Nat.mul_lt_mul_of_pos_right hvalue (by decide))

/-- An offset is written if the zone is less than a day ahead or behind. -/
theorem exists_offset_iff {zone : Option ZoneText} :
    (∃ offset : Option Offset, offset.map Offset.minutes = zone.map ZoneText.minutes) ↔
      ∀ m ∈ zone.bind ZoneText.offset, m.total < 1440 := by
  have hof {minutes : Int} (h : minutes.natAbs < 1440) :
      ∃ offset : Option Offset, offset.map Offset.minutes = some minutes :=
    ⟨some ⟨minutes, h⟩, rfl⟩
  have hlt {minutes : Int}
      (h : ∃ offset : Option Offset, offset.map Offset.minutes = some minutes) :
      minutes.natAbs < 1440 := by
    obtain ⟨offset, hoffset⟩ := h
    obtain ⟨o, -, rfl⟩ := Option.map_eq_some_iff.mp hoffset
    exact o.abs_lt
  cases zone with
  | none => exact ⟨fun _ => nofun, fun _ => ⟨none, rfl⟩⟩
  | some z =>
      cases z with
      | utc => exact ⟨fun _ => nofun, fun _ => hof (by decide)⟩
      | ahead offset =>
          refine ⟨fun h m hm => ?_, fun h => hof ?_⟩
          · cases hm
            exact hlt h
          · exact h offset rfl
      | behind offset =>
          refine ⟨fun h m hm => ?_, fun h => hof ?_⟩
          · cases hm
            have hminutes := hlt h
            rwa [ZoneText.minutes, Int.natAbs_neg] at hminutes
          · rw [ZoneText.minutes, Int.natAbs_neg]
            exact h offset rfl

theorem TimeText.exists_writes_iff {t : TimeText} :
    (∃ clock offset, t.Writes clock offset) ↔
      t.OnClock ∧ ∀ m ∈ t.zone.bind ZoneText.offset, m.total < 1440 := by
  constructor
  · rintro ⟨clock, offset, hhour, hminute, hsecond, -, hoffset⟩
    refine ⟨⟨?_, ?_, fun s hs => ?_⟩, exists_offset_iff.mp ⟨offset, hoffset⟩⟩
    · exact hhour ▸ Nat.le_of_lt_succ clock.hour_lt
    · exact hminute ▸ Nat.le_of_lt_succ clock.minute_lt
    · rw [hs, Option.elim_some] at hsecond
      exact hsecond ▸ clock.second_le
  · rintro ⟨⟨hhour, hminute, hsecond⟩, hoffset⟩
    obtain ⟨offset, hoffset⟩ := exists_offset_iff.mpr hoffset
    have hseconds : t.seconds.elim 0 (fun s => s.second.value) ≤ 60 ∧
        t.seconds.elim 0 SecondsText.nanos < 1000000000 := by
      cases h : t.seconds with
      | none => decide
      | some s => exact ⟨hsecond s h, s.nanos_lt⟩
    exact ⟨⟨_, _, _, _, Nat.lt_succ_of_le hhour, Nat.lt_succ_of_le hminute, hseconds.1, hseconds.2⟩,
      offset, rfl, rfl, rfl, rfl, hoffset⟩

/-- There is a moment with the fields that are written if they are in range. -/
theorem CalendarText.exists_writes_iff {t : CalendarText} : (∃ m, t.Writes m) ↔ t.IsRead := by
  cases t with
  | date d =>
      constructor
      · rintro ⟨_, ⟨h⟩⟩
        exact ⟨DateText.exists_writes_iff.mp ⟨_, h⟩, nofun⟩
      · rintro ⟨hdate, -⟩
        obtain ⟨date, h⟩ := DateText.exists_writes_iff.mpr hdate
        exact ⟨_, .date h⟩
  | time t =>
      constructor
      · rintro ⟨_, h⟩
        cases h with
        | time h =>
            obtain ⟨hclock, hoffset⟩ := TimeText.exists_writes_iff.mp ⟨_, _, h⟩
            exact ⟨hclock, hoffset⟩
      · rintro ⟨hclock, hoffset⟩
        obtain ⟨clock, offset, h⟩ := TimeText.exists_writes_iff.mpr ⟨hclock, hoffset⟩
        exact ⟨_, .time h⟩
  | dateTime d spaced t =>
      constructor
      · rintro ⟨_, h⟩
        cases h with
        | dateTime hdate htime =>
            obtain ⟨hclock, hoffset⟩ := TimeText.exists_writes_iff.mp ⟨_, _, htime⟩
            exact ⟨⟨DateText.exists_writes_iff.mp ⟨_, hdate⟩, hclock⟩, hoffset⟩
      · rintro ⟨⟨hdate, hclock⟩, hoffset⟩
        obtain ⟨date, hdate⟩ := DateText.exists_writes_iff.mpr hdate
        obtain ⟨clock, offset, htime⟩ := TimeText.exists_writes_iff.mpr ⟨hclock, hoffset⟩
        exact ⟨_, .dateTime hdate htime⟩

end Lexeme

/-! ## Decoding -/

/-- A text of one of the calendar kinds is decoded by the reader of moments. -/
theorem Literal.decode_of_isCalendar {kind : Kind} (h : kind.isCalendar = true) (text : String) :
    Literal.decode kind text =
      (Moment.ofText? text).elim (.error .notCalendar) fun m => .ok (.moment m, none) := by
  cases kind with
  | date | time | dateTime =>
      rw [Literal.decode]
      cases Moment.ofText? text with
      | none => rfl
      | some m => rfl
  | _ => cases h

/-- Nothing else is decoded to a moment. -/
theorem Literal.isCalendar_of_decode {kind : Kind} {text : String} {m : Moment}
    {unit : Option UnitSuffix} (h : Literal.decode kind text = .ok (.moment m, unit)) :
    kind.isCalendar = true := by
  cases kind with
  | date | time | dateTime => rfl
  | integer =>
      rw [Literal.decode, Literal.integer] at h
      dsimp only at h
      split at h <;> cases h
  | float =>
      rw [Literal.decode, Literal.double] at h
      split_ifs at h <;> cases h
  | _ => cases h

section

variable {token : Token} {m : Moment}

theorem literal_of_moment (h : token.kind.isCalendar = true)
    (hm : Moment.ofText? token.text = some m) :
    Parse.literal token = .ok (.literal token (.moment m) none) := by
  rw [Parse.literal, Literal.decode_of_isCalendar h, hm]
  rfl

theorem literal_of_no_moment (h : token.kind.isCalendar = true)
    (hnone : Moment.ofText? token.text = none) :
    Parse.literal token = .error (.invalidLiteral token.text .notCalendar token.position) := by
  rw [Parse.literal, Literal.decode_of_isCalendar h, hnone]
  rfl

/-- A literal that is a moment is a calendar token. -/
theorem calendar_of_literal (h : Parse.literal token = .ok (.literal token (.moment m) none)) :
    token.kind.isCalendar = true ∧ Moment.ofText? token.text = some m := by
  have hdecode : Literal.decode token.kind token.text = .ok (.moment m, none) := by
    unfold Parse.literal at h
    split at h
    · rename_i hdecode
      cases h
      exact hdecode
    · cases h
  have hkind := Literal.isCalendar_of_decode hdecode
  refine ⟨hkind, ?_⟩
  cases hm : Moment.ofText? token.text with
  | none =>
      rw [literal_of_no_moment hkind hm] at h
      cases h
  | some m' =>
      rw [literal_of_moment hkind hm] at h
      cases h
      rfl

end

/-! ## Tokens -/

open Lexeme (CalendarText)

/-- **A calendar token stands for a moment exactly if what it writes is in range.**  The moment is
of the kind of the token and has the fields that are written; a token that stands for none is an
invalid literal.  As long as the minutes of an offset are less than an hour, no field may be out of
range. -/
theorem literal_of_calendar {text : String} {token : Token} (hmem : token ∈ Lexer.tokens text)
    (hkind : token.kind.isCalendar = true) :
    (∃ t : CalendarText, token.kind = t.kind ∧ token.text = String.ofList t.chars) ∧
    ∀ t : CalendarText, token.kind = t.kind → token.text = String.ofList t.chars →
      (t.IsRead →
        ∃ m, t.Writes m ∧ Parse.literal token = .ok (.literal token (.moment m) none)) ∧
      (¬t.IsRead → Parse.literal token =
        .error (.invalidLiteral token.text .notCalendar token.position)) ∧
      ((∀ m ∈ t.offset, m.minute.value ≤ 59) → (t.IsRead ↔ t.IsReal)) := by
  refine ⟨Lexer.exists_of_calendar hmem hkind, fun t _ htext => ⟨?_, ?_, ?_⟩⟩
  · intro hread
    obtain ⟨m, hm⟩ := CalendarText.exists_writes_iff.mpr hread
    exact ⟨m, hm, literal_of_moment hkind (htext ▸ CalendarText.ofText?_eq_some.mpr hm)⟩
  · intro hread
    have hnone : Moment.ofText? (String.ofList t.chars) = none :=
      Option.eq_none_iff_forall_ne_some.mpr fun m hm =>
        hread (CalendarText.exists_writes_iff.mp ⟨m, CalendarText.ofText?_eq_some.mp hm⟩)
    exact literal_of_no_moment hkind (htext ▸ hnone)
  · exact CalendarText.isRead_iff_isReal

/-- The inserted second of the end of a leap day is a time in Kolkata. -/
theorem literal_of_calendar_leap :
    let t : CalendarText := .dateTime
      ⟨{ chars := ['2', '0', '2', '4'] }, { chars := ['0', '2'] }, { chars := ['2', '9'] }⟩ false
      ⟨⟨{ chars := ['2', '3'] }, { chars := ['5', '9'] }⟩,
        some ⟨{ chars := ['6', '0'] }, some { chars := ['5'] }⟩,
        some (.ahead ⟨{ chars := ['0', '5'] }, { chars := ['3', '0'] }⟩)⟩
    let token : Token := ⟨.dateTime, "2024-02-29T23:59:60.5+05:30", .start⟩
    let m : Moment := .dateTime ⟨2024, 2, 29, by decide, by decide⟩
      ⟨23, 59, 60, 500000000, by decide, by decide, by decide, by decide⟩ (some ⟨330, by decide⟩)
    token ∈ Lexer.tokens "2024-02-29T23:59:60.5+05:30" ∧ token.kind.isCalendar = true ∧
      t.IsReal ∧ Parse.literal token = .ok (.literal token (.moment m) none) := by
  intro t token m
  have hmem : token ∈ Lexer.tokens "2024-02-29T23:59:60.5+05:30" :=
    Lexer.mem_tokens_of_next (by decide +kernel) nofun
  have hreal : t.IsReal := by decide +kernel
  have hminutes : ∀ m ∈ t.offset, m.minute.value ≤ 59 := fun m hm => (hreal.offset m hm).2
  obtain ⟨-, htoken⟩ := literal_of_calendar hmem rfl
  obtain ⟨hreads, -, hreal'⟩ := htoken t rfl rfl
  obtain ⟨m', hm', hliteral⟩ := hreads ((hreal' hminutes).mpr hreal)
  have hm : t.moment? = some m := by decide +kernel
  have hsame : m' = m := Option.some.inj ((CalendarText.moment?_eq_some.mpr hm').symm.trans hm)
  exact ⟨hmem, rfl, hreal, hsame ▸ hliteral⟩

/-- An offset of 10 hours and 75 minutes is one of 11 hours and 15 minutes. -/
theorem literal_carries_minutes :
    let t : CalendarText := .time
      ⟨⟨{ chars := ['1', '0'] }, { chars := ['0', '0'] }⟩, none,
        some (.ahead ⟨{ chars := ['1', '0'] }, { chars := ['7', '5'] }⟩)⟩
    let token : Token := ⟨.time, "10:00+10:75", .start⟩
    let m : Moment :=
      .time ⟨10, 0, 0, 0, by decide, by decide, by decide, by decide⟩
        (some ⟨11 * 60 + 15, by decide⟩)
    token ∈ Lexer.tokens "10:00+10:75" ∧ token.kind = t.kind ∧
      token.text = String.ofList t.chars ∧ ¬t.IsReal ∧
      Parse.literal token = .ok (.literal token (.moment m) none) := by
  intro t token m
  refine ⟨Lexer.mem_tokens_of_next (by decide +kernel) nofun, rfl, rfl, by decide +kernel, ?_⟩
  exact literal_of_moment rfl (by decide +kernel)

end ConfigLang
