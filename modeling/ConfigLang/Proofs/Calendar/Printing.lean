import Mathlib
import ConfigLang.Proofs.Token.Written
import ConfigLang.Proofs.Calendar.Reading

/-!
# Printing moments

The text of a moment that was read of a calendar token is one token of the same kind, and is read as
the same moment (`tokens_toText`).  The text need not be that of the token: seconds are always
printed, a fraction in groups of three digits, and an offset that comes to nothing as `Z`.

## Strategy

What is printed is a literal of the grammar that writes the moment (`exists_calendarText`), put
together of literals for its parts.  This literal is short, so the window of the lexer holds all
of it; and as a literal it is read as what it writes.  Only a year of four digits is printed as the
grammar has it, and no token has another.
-/

namespace ConfigLang

namespace Calendar

/-! ## Padded numbers -/

variable {width n : Nat}

theorem toList_padded (width n : Nat) :
    (padded width n).toList =
      List.replicate (width - (Nat.toDigits 10 n).length) '0' ++ Nat.toDigits 10 n := by
  rw [padded, String.toList_ofList, Nat.toString_eq_ofList_toDigits, String.toList_ofList]

theorem isDigit_padded (width n : Nat) : ∀ c ∈ (padded width n).toList, c.isDigit = true := by
  intro c hc
  rw [toList_padded, List.mem_append] at hc
  rcases hc with hc | hc
  · rw [List.eq_of_mem_replicate hc]
    decide
  · exact Nat.isDigit_of_mem_toDigits (by decide) (by decide) hc

theorem length_padded (hwidth : 0 < width) (h : n < 10 ^ width) :
    (padded width n).toList.length = width := by
  have hdigits : (Nat.toDigits 10 n).length ≤ width :=
    (Nat.length_toDigits_le_iff (by decide) hwidth).mpr h
  rw [toList_padded, List.length_append, List.length_replicate, Nat.sub_add_cancel hdigits]

theorem digitsValue_padded (width n : Nat) : digitsValue (padded width n).toList = n := by
  rw [digitsValue_eq, toList_padded, Nat.ofDigitChars_append, Nat.ofDigitChars_replicate_zero,
    Nat.mul_zero, Nat.ofDigitChars_ten_toDigits]

/-! ## Texts of moments -/

theorem daysInMonth_le (year : Int) (month : Nat) : daysInMonth year month ≤ 31 := by
  unfold daysInMonth
  repeat' split
  all_goals decide

/-- The kind of the literals that write a moment. -/
def Moment.kind : Moment → Kind
  | .date _ => .date
  | .time .. => .time
  | .dateTime .. => .dateTime

/-- The year is one that literals can write. -/
def Moment.InYears : Moment → Prop
  | .date d => 0 ≤ d.year ∧ d.year ≤ 9999
  | .time .. => True
  | .dateTime d _ _ => 0 ≤ d.year ∧ d.year ≤ 9999

theorem Moment.toText_time (clock : Clock) (offset : Option Offset) :
    (Moment.time clock offset).toText = clock.toText ++ offset.elim "" Offset.toText := by
  cases offset <;> rfl

theorem Moment.toText_dateTime (date : Date) (clock : Clock) (offset : Option Offset) :
    (Moment.dateTime date clock offset).toText =
      date.toText ++ "T" ++ (clock.toText ++ offset.elim "" Offset.toText) := by
  rw [← String.append_assoc]
  cases offset <;> rfl

end Calendar

namespace Lexeme

open Calendar

variable {width n : Nat}

theorem exists_digitGroup (width n : Nat) (hwidth : 0 < width) (h : n < 10 ^ width) :
    ∃ g : DigitGroup width, (padded width n).toList = g.chars ∧ g.value = n := by
  have hlength := length_padded hwidth h
  have hdigits := List.all_eq_true.mpr (isDigit_padded width n)
  have hvalue := digitsValue_padded width n
  generalize (padded width n).toList = cs at hlength hdigits hvalue ⊢
  exact ⟨⟨cs, hlength, hdigits⟩, rfl, hvalue⟩

/-! ## Dates -/

theorem exists_dateText {d : Date} (hyear : 0 ≤ d.year ∧ d.year ≤ 9999) :
    ∃ t : DateText, d.toText.toList = t.chars ∧ t.Writes d := by
  have hmonth := d.month_mem
  have hday := d.day_mem.2.trans (daysInMonth_le _ _)
  obtain ⟨year, hyear', hyearValue⟩ :=
    exists_digitGroup 4 d.year.natAbs (by decide) (by omega)
  obtain ⟨month, hmonth', hmonthValue⟩ :=
    exists_digitGroup 2 d.month (by decide) (by omega)
  obtain ⟨day, hday', hdayValue⟩ :=
    exists_digitGroup 2 d.day (by decide) (by omega)
  refine ⟨⟨year, month, day⟩, ?_, ?_, hmonthValue.symm, hdayValue.symm⟩
  · rw [Date.toText, yearText, if_neg (by omega), if_neg (by omega)]
    simp only [String.toList_append, hyear', hmonth', hday', DateText.chars, List.append_assoc]
    rfl
  · rw [hyearValue]
    omega

/-! ## Times -/

theorem exists_fractionText (hwidth : 0 < width) (hnanos : width ≤ 9) (h : n < 10 ^ width) :
    ∃ f : FractionText, (padded width n).toList = f.chars ∧ f.nanos = n * 10 ^ (9 - width) ∧
      f.chars.length = width := by
  obtain ⟨g, hchars, hvalue⟩ := exists_digitGroup width n hwidth h
  have hne : g.chars ≠ [] := List.ne_nil_of_length_pos (g.length_eq.symm ▸ hwidth)
  let f : FractionText := ⟨g.chars, hne, g.isDigit⟩
  have htake : f.chars.take 9 = g.chars := List.take_of_length_le (g.length_eq.trans_le hnanos)
  refine ⟨f, hchars, ?_, g.length_eq⟩
  rw [f.nanos_eq, htake, g.length_eq]
  exact congrArg (· * _) hvalue

/-- A fraction is printed with as many groups of three digits as it takes. -/
theorem exists_fraction (h : n < 1000000000) :
    ∃ f : Option FractionText, (fractionText n).toList = (f.elim [] fun f => '.' :: f.chars) ∧
      f.elim 0 FractionText.nanos = n ∧ (fractionText n).toList.length ≤ 10 := by
  have hgroups {width k : Nat} (hwidth : 0 < width) (hnanos : width ≤ 9) (hk : k < 10 ^ width)
      (hn : k * 10 ^ (9 - width) = n) :
      ∃ f : Option FractionText,
        ("." ++ padded width k).toList = (f.elim [] fun f => '.' :: f.chars) ∧
        f.elim 0 FractionText.nanos = n ∧ ("." ++ padded width k).toList.length ≤ 10 := by
    obtain ⟨f, hchars, hvalue, hlength⟩ := exists_fractionText hwidth hnanos hk
    have htext : ("." ++ padded width k).toList = '.' :: f.chars := by
      rw [String.toList_append, hchars]
      rfl
    refine ⟨some f, htext, hvalue.trans hn, ?_⟩
    rw [htext, List.length_cons, hlength]
    exact Nat.succ_le_succ hnanos
  rw [fractionText]
  split
  · rename_i hzero
    exact ⟨none, rfl, hzero.symm, by decide⟩
  · split
    · exact hgroups (by decide) (by decide) (by omega) (by omega)
    · split
      · exact hgroups (by decide) (by decide) (by omega) (by omega)
      · exact hgroups (by decide) (by decide) h (by omega)

theorem exists_minutesText (hours minutes : Nat) (hhours : hours < 100)
    (hminutes : minutes < 100) :
    ∃ m : MinutesText, (padded 2 hours ++ ":" ++ padded 2 minutes).toList = m.chars ∧
      m.hour.value = hours ∧ m.minute.value = minutes := by
  obtain ⟨hour, hhour, hhourValue⟩ := exists_digitGroup 2 hours (by decide) hhours
  obtain ⟨minute, hminute, hminuteValue⟩ := exists_digitGroup 2 minutes (by decide) hminutes
  refine ⟨⟨hour, minute⟩, ?_, hhourValue, hminuteValue⟩
  simp only [String.toList_append, hhour, hminute, MinutesText.chars, List.append_assoc]
  rfl

/-- An offset that comes to nothing is printed as UTC. -/
theorem exists_zoneText (o : Offset) :
    ∃ z : ZoneText, o.toText.toList = z.chars ∧ z.minutes = o.minutes := by
  have hlt := o.abs_lt
  rw [Offset.toText]
  split
  · rename_i hzero
    exact ⟨.utc, rfl, hzero.symm⟩
  · obtain ⟨m, hchars, hhour, hminute⟩ :=
      exists_minutesText (o.minutes.natAbs / 60) (o.minutes.natAbs % 60) (by omega) (by omega)
    have htotal : m.total = o.minutes.natAbs := by
      rw [MinutesText.total, hhour, hminute]
      omega
    have hsigned (sign : String) :
        (sign ++ padded 2 (o.minutes.natAbs / 60) ++ ":" ++
          padded 2 (o.minutes.natAbs % 60)).toList = sign.toList ++ m.chars := by
      rw [← hchars]
      simp only [String.toList_append, List.append_assoc]
    dsimp only
    split
    · refine ⟨.behind m, hsigned "-", ?_⟩
      rw [ZoneText.minutes, htotal]
      omega
    · refine ⟨.ahead m, hsigned "+", ?_⟩
      rw [ZoneText.minutes, htotal]
      omega

theorem ZoneText.length_chars_le (z : ZoneText) : z.chars.length ≤ 6 := by
  cases z with
  | utc => decide
  | ahead offset => exact (congrArg (· + 1) offset.length_chars).le
  | behind offset => exact (congrArg (· + 1) offset.length_chars).le

theorem exists_timeText (clock : Clock) (offset : Option Offset) :
    ∃ t : TimeText, (clock.toText ++ offset.elim "" Offset.toText).toList = t.chars ∧
      t.Writes clock offset ∧ t.chars.length ≤ 24 := by
  have hsecond := clock.second_le
  obtain ⟨m, hminutes, hhour, hminute⟩ := exists_minutesText clock.hour clock.minute
    (clock.hour_lt.trans (by decide)) (clock.minute_lt.trans (by decide))
  obtain ⟨s, hs, hsValue⟩ :=
    exists_digitGroup 2 clock.second (by decide) (by omega)
  obtain ⟨f, hf, hfValue, hfLength⟩ := exists_fraction clock.nano_lt
  obtain ⟨z, hz, hzMinutes, hzLength⟩ : ∃ z : Option ZoneText,
      (offset.elim "" Offset.toText).toList = z.elim [] ZoneText.chars ∧
        offset.map Offset.minutes = z.map ZoneText.minutes ∧
        (z.elim [] ZoneText.chars).length ≤ 6 := by
    cases offset with
    | none => exact ⟨none, rfl, rfl, by decide⟩
    | some o =>
        obtain ⟨z, hz, hzMinutes⟩ := exists_zoneText o
        exact ⟨some z, hz, congrArg some hzMinutes.symm, z.length_chars_le⟩
  have hchars : (clock.toText ++ offset.elim "" Offset.toText).toList =
      TimeText.chars ⟨m, some ⟨s, f⟩, z⟩ := by
    rw [Clock.toText, String.toList_append, String.toList_append, String.toList_append,
      String.toList_append, hminutes, hs, hf, hz]
    simp only [TimeText.chars, TimeText.clock, SecondsText.chars, Option.elim_some,
      List.append_assoc, List.cons_append]
    rfl
  refine ⟨_, hchars, ⟨hhour.symm, hminute.symm, hsValue.symm, hfValue.symm, hzMinutes⟩, ?_⟩
  rw [hf] at hfLength
  simp only [TimeText.chars, TimeText.clock, SecondsText.chars, Option.elim_some,
    List.length_append, List.length_cons, m.length_chars, s.length_eq]
  omega

/-! ## Moments -/

theorem DateText.Writes.year_range {d : DateText} {date : Date} (h : d.Writes date) :
    0 ≤ date.year ∧ date.year ≤ 9999 := by
  have hlt := d.year.value_lt
  rw [h.year]
  omega

/-- What is printed of a moment in the years of literals is a literal of its kind that writes it,
and within the window. -/
theorem exists_calendarText {m : Moment} (hm : m.InYears) :
    ∃ t : CalendarText, m.toText.toList = t.chars ∧ t.Writes m ∧ t.kind = m.kind ∧
      t.chars.length ≤ momentWindow := by
  cases m with
  | date date =>
      obtain ⟨d, hchars, hd⟩ := exists_dateText hm
      exact ⟨.date d, hchars, .date hd, rfl, d.length_chars.trans_le (by decide)⟩
  | time clock offset =>
      obtain ⟨t, hchars, ht, hlength⟩ := exists_timeText clock offset
      rw [← Moment.toText_time] at hchars
      exact ⟨.time t, hchars, .time ht, rfl, hlength.trans (by decide)⟩
  | dateTime date clock offset =>
      obtain ⟨d, hdate, hd⟩ := exists_dateText hm
      obtain ⟨t, htime, ht, hlength⟩ := exists_timeText clock offset
      refine ⟨.dateTime d false t, ?_, .dateTime hd ht, rfl, ?_⟩
      · rw [Moment.toText_dateTime, String.toList_append, String.toList_append, hdate, htime,
          List.append_assoc]
        rfl
      · rw [CalendarText.chars, List.length_append, List.length_cons, d.length_chars, momentWindow]
        omega

theorem CalendarText.Writes.inYears {t : CalendarText} {m : Moment} (h : t.Writes m) :
    m.InYears := by
  cases h with
  | date hdate => exact hdate.year_range
  | time htime => exact True.intro
  | dateTime hdate htime => exact hdate.year_range

theorem CalendarText.Writes.kind_eq {t : CalendarText} {m : Moment} (h : t.Writes m) :
    t.kind = m.kind := by
  cases h <;> rfl

/-- What is printed of a moment that a literal writes is again a literal that writes it, of the same
kind and within the window. -/
theorem CalendarText.Writes.exists_printed {t : CalendarText} {m : Moment} (h : t.Writes m) :
    ∃ t' : CalendarText, m.toText.toList = t'.chars ∧ t'.Writes m ∧ t'.kind = t.kind ∧
      t'.chars.length ≤ momentWindow := by
  rw [h.kind_eq]
  exact exists_calendarText h.inYears

end Lexeme

/-! ## Tokens -/

namespace Lexer

open Lexeme (CalendarText momentWindow)

theorem ofText_chars (t : CalendarText) :
    ofText (String.ofList t.chars) = ⟨t.chars, .start, none⟩ := by
  have hreturn : ∀ c ∈ t.chars, c ≠ '\r' := by
    rintro c hmem rfl
    exact absurd (t.printable _ hmem) (by decide)
  have hnormalize := normalize_append_of_ne_return hreturn []
  rw [List.append_nil, normalize, List.append_nil] at hnormalize
  rw [ofText, String.toList_ofList, hnormalize]

theorem skipBlanks_of_digit {l : Lexer} {c : Char} {cs : List Char} (hrest : l.rest = c :: cs)
    (hc : c.isDigit = true) : l.skipBlanks = l := by
  rw [skipBlanks, hrest, List.takeWhile_cons_of_neg (Bool.eq_false_iff.mp (isGap_of_isDigit hc))]
  rfl

/-- A literal within the window is the only token of its text. -/
theorem tokens_chars {t : CalendarText} (h : t.chars.length ≤ momentWindow) :
    ∃ stop, tokens (String.ofList t.chars) =
      [⟨t.kind, String.ofList t.chars, .start⟩, ⟨.eof, "", stop⟩] := by
  obtain ⟨c, cs, hchars, hc⟩ := t.exists_chars_eq
  rw [tokens, ofText_chars, hchars]
  have hskip : (⟨c :: cs, .start, none⟩ : Lexer).skipBlanks = ⟨c :: cs, .start, none⟩ :=
    skipBlanks_of_digit rfl hc
  have hrest := congrArg Lexer.rest hskip
  have hwindow : (c :: cs).take momentWindow = t.chars ++ [] := by
    rw [← hchars, List.take_of_length_le h, List.append_nil]
  have hlexeme : Lexeme.atFront none c cs = ⟨t.kind, String.ofList t.chars, t.chars.length⟩ := by
    rw [atFront_digit _ hc, Lexeme.unsigned, Lexeme.moment?_of_window t hwindow .nil,
      Option.getD_some]
  have hnext := next_of_cons hrest
  rw [hlexeme, hskip] at hnext
  have hleft : (⟨c :: cs, .start, none⟩ : Lexer).next.2.rest = [] := by
    rw [rest_next hrest, hlexeme, ← hchars, List.drop_length]
  -- behind the literal only the end of the text is left
  have hend := next_of_nil ((congrArg Lexer.rest (skipBlanks_of_nil hleft)).trans hleft)
  rw [run_of_ne_eof (next_ne_eof hrest), run_of_eof (by rw [hend]; rfl), hend, hnext, ← hchars]
  exact ⟨_, rfl⟩

end Lexer

/-- **The text of a moment that a token was read as is one token of the same kind, and is read as
the moment again.** -/
theorem tokens_toText {text : String} {token : Token} {m : Calendar.Moment}
    (hmem : token ∈ Lexer.tokens text) (hkind : token.kind.isCalendar = true)
    (hm : Calendar.Moment.ofText? token.text = some m) :
    (∃ stop, Lexer.tokens m.toText = [⟨token.kind, m.toText, .start⟩, ⟨.eof, "", stop⟩]) ∧
      Calendar.Moment.ofText? m.toText = some m := by
  obtain ⟨t, hkind, htext⟩ := Lexer.exists_of_calendar hmem hkind
  rw [htext] at hm
  obtain ⟨t', hchars, hwrites, hsame, hlength⟩ :=
    (Lexeme.CalendarText.ofText?_eq_some.mp hm).exists_printed
  have hprinted : m.toText = String.ofList t'.chars :=
    String.toList_injective (hchars.trans String.toList_ofList.symm)
  rw [hprinted, hkind, ← hsame]
  exact ⟨Lexer.tokens_chars hlength, Lexeme.CalendarText.ofText?_eq_some.mpr hwrites⟩

/-- An inserted second with an offset of nothing, behind a space. -/
theorem tokens_toText_leap :
    let token : Token := ⟨.dateTime, "2024-02-29 23:59:60.5-00:00", .start⟩
    let m : Calendar.Moment := .dateTime ⟨2024, 2, 29, by decide, by decide⟩
      ⟨23, 59, 60, 500000000, by decide, by decide, by decide, by decide⟩ (some .utc)
    token ∈ Lexer.tokens "2024-02-29 23:59:60.5-00:00" ∧ token.kind.isCalendar = true ∧
      Calendar.Moment.ofText? token.text = some m ∧ m.toText = "2024-02-29T23:59:60.500Z" ∧
      (∃ stop, Lexer.tokens m.toText = [⟨.dateTime, m.toText, .start⟩, ⟨.eof, "", stop⟩]) ∧
      Calendar.Moment.ofText? m.toText = some m := by
  intro token m
  have hmem : token ∈ Lexer.tokens "2024-02-29 23:59:60.5-00:00" :=
    Lexer.mem_tokens_of_next (by decide +kernel) nofun
  have hm : Calendar.Moment.ofText? token.text = some m := by decide +kernel
  obtain ⟨htokens, hread⟩ := tokens_toText hmem rfl hm
  exact ⟨hmem, rfl, hm, by decide +kernel, htokens, hread⟩

end ConfigLang
