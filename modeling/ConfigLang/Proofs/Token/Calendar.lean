import Mathlib
import ConfigLang.Proofs.Token.Splice

/-!
# Calendar literals

`CalendarText` is the grammar of calendar literals: a date, a time of day with what may be
left out of it, or both.  A literal in front of the end of a line is one token with the
kind and the text of the literal, if it has no more than `momentWindow` characters
(`next_of_calendar`).  The patterns put no bound on the digits of a fraction, and the
window cuts what is longer: the token is then what the window holds of the literal without
its zone.

## Strategy

* **Digits.**  A group of digits is found where it stands (`behindDigits?_chars`), and a
  shorter one is not found at the front of a longer one (`behindDigits?_of_longer`).  This
  is what tells a time, which starts with two digits, from a date (`behindDate?_time`).
* **Patterns.**  Each pattern goes past the part of the grammar that it is for and leaves
  what stands behind (`behindDate?_chars`, `behindTime?_chars`).  What may be left out of a
  time asks for a text behind that the pattern does not go on with: `Halts`.
* **Choice.**  The longest pattern comes first.  `moment?_of_window` says that the literal
  which the window starts with is found, with such a text behind it.
* **Window.**  What the window holds of a literal is again a literal with such a text behind
  it (`exists_window`): the literal itself in front of the end of the line, the literal
  without its zone in front of a part of this zone, or the literal with a shorter fraction.
-/

namespace ConfigLang

namespace Lexeme

/-! ## The grammar -/

/-- So many digits. -/
structure DigitGroup (n : Nat) where
  chars : List Char
  length_eq : chars.length = n := by decide
  isDigit : chars.all Char.isDigit = true := by decide

/-- `2024-03-01`. -/
structure DateText where
  year : DigitGroup 4
  month : DigitGroup 2
  day : DigitGroup 2

/-- `10:30`. -/
structure MinutesText where
  hour : DigitGroup 2
  minute : DigitGroup 2

/-- The digits behind the point in `10:30:45.25`. -/
structure FractionText where
  chars : List Char
  ne_nil : chars ≠ [] := by decide
  isDigit : chars.all Char.isDigit = true := by decide

/-- The `45.25` in `10:30:45.25`. -/
structure SecondsText where
  second : DigitGroup 2
  fraction : Option FractionText

/-- `Z`, `+01:00` or `-01:00`. -/
inductive ZoneText where
  | utc
  | ahead (offset : MinutesText)
  | behind (offset : MinutesText)

/-- A time of day, which may have seconds and a zone. -/
structure TimeText where
  minutes : MinutesText
  seconds : Option SecondsText
  zone : Option ZoneText

/-- A calendar literal. The time of a date stands behind a `T` or a space. -/
inductive CalendarText where
  | date (date : DateText)
  | time (time : TimeText)
  | dateTime (date : DateText) (spaced : Bool) (time : TimeText)

def DateText.chars (d : DateText) : List Char :=
  d.year.chars ++ '-' :: (d.month.chars ++ '-' :: d.day.chars)

def MinutesText.chars (m : MinutesText) : List Char :=
  m.hour.chars ++ ':' :: m.minute.chars

def SecondsText.chars (s : SecondsText) : List Char :=
  ':' :: (s.second.chars ++ s.fraction.elim [] fun f => '.' :: f.chars)

def ZoneText.chars : ZoneText → List Char
  | utc => ['Z']
  | ahead offset => '+' :: offset.chars
  | behind offset => '-' :: offset.chars

/-- A time of day without its zone. -/
def TimeText.clock (t : TimeText) : List Char :=
  t.minutes.chars ++ t.seconds.elim [] SecondsText.chars

def TimeText.chars (t : TimeText) : List Char :=
  t.clock ++ t.zone.elim [] ZoneText.chars

/-- What stands between a date and a time. -/
def separator (spaced : Bool) : Char :=
  if spaced then ' ' else 'T'

namespace CalendarText

def chars : CalendarText → List Char
  | date d => d.chars
  | time t => t.chars
  | dateTime d spaced t => d.chars ++ separator spaced :: t.chars

/-- The literal without its zone. -/
def unzoned : CalendarText → List Char
  | date d => d.chars
  | time t => t.clock
  | dateTime d spaced t => d.chars ++ separator spaced :: t.clock

def kind : CalendarText → Kind
  | date _ => .date
  | time _ => .time
  | dateTime .. => .dateTime

end CalendarText

variable {cs y tail : List Char}

/-! ## Digits -/

theorem DigitGroup.isDigit_of_mem {n : Nat} (g : DigitGroup n) {c : Char} (h : c ∈ g.chars) :
    c.isDigit = true :=
  List.all_eq_true.mp g.isDigit c h

theorem FractionText.isDigit_of_mem (f : FractionText) {c : Char} (h : c ∈ f.chars) :
    c.isDigit = true :=
  List.all_eq_true.mp f.isDigit c h

theorem DigitGroup.exists_cons {n : Nat} (g : DigitGroup (n + 1)) :
    ∃ c cs, g.chars = c :: cs ∧ c.isDigit = true := by
  cases h : g.chars with
  | nil =>
      have hlength := g.length_eq
      rw [h] at hlength
      cases hlength
  | cons c cs => exact ⟨c, cs, rfl, g.isDigit_of_mem (h ▸ List.mem_cons_self)⟩

theorem behindDigits?_append {xs : List Char} (h : ∀ c ∈ xs, c.isDigit = true) (cs : List Char) :
    behindDigits? xs.length (xs ++ cs) = some cs := by
  induction xs with
  | nil => rfl
  | cons x xs ih =>
      rw [List.length_cons, List.cons_append, behindDigits?, if_pos (h x List.mem_cons_self)]
      exact ih fun c hc => h c (List.mem_cons_of_mem x hc)

theorem behindDigits?_chars {n : Nat} (g : DigitGroup n) (cs : List Char) :
    behindDigits? n (g.chars ++ cs) = some cs := by
  have happend := behindDigits?_append (fun _ => g.isDigit_of_mem) cs
  rwa [g.length_eq] at happend

theorem behindGroup?_chars {wanted : Char → Bool} {a : Char} (ha : wanted a = true) {n : Nat}
    (g : DigitGroup n) (cs : List Char) :
    behindGroup? wanted n (a :: (g.chars ++ cs)) = some cs := by
  rw [behindGroup?, behind?, if_pos ha]
  exact behindDigits?_chars g cs

theorem behindDigits?_add (m n : Nat) (cs : List Char) :
    behindDigits? (m + n) cs = (behindDigits? m cs).bind (behindDigits? n) := by
  induction m generalizing cs with
  | zero => rw [Nat.zero_add]; rfl
  | succ m ih =>
      rw [Nat.add_right_comm]
      cases cs with
      | nil => rfl
      | cons c cs =>
          rw [behindDigits?, behindDigits?]
          split
          · exact ih cs
          · rfl

/-- A longer group of digits is not found where a shorter one ends. -/
theorem behindDigits?_of_longer {m n : Nat} (g : DigitGroup m) (h : startsDigit cs = false) :
    behindDigits? (m + (n + 1)) (g.chars ++ cs) = none := by
  rw [behindDigits?_add, behindDigits?_chars]
  exact behindDigits?_of_not_startsDigit h

/-! ## Dates and zones -/

theorem behindDate?_chars (d : DateText) (cs : List Char) :
    behindDate? (d.chars ++ cs) = some cs := by
  simp only [DateText.chars, List.append_assoc, List.cons_append]
  rw [behindDate?_eq, behindDigits?_chars, Option.bind_some, behindGroup?_chars rfl,
    Option.bind_some, behindGroup?_chars rfl]

theorem behindMinutes?_chars (m : MinutesText) (cs : List Char) :
    behindMinutes? (m.chars ++ cs) = some cs := by
  simp only [MinutesText.chars, List.append_assoc, List.cons_append]
  rw [behindMinutes?_eq, behindDigits?_chars, Option.bind_some, behindGroup?_chars rfl]

theorem behindZone_chars (z : ZoneText) (cs : List Char) : behindZone (z.chars ++ cs) = cs := by
  cases z with
  | utc => rfl
  | ahead offset =>
      rw [ZoneText.chars, List.cons_append, behindZone_cons (by decide), if_pos (.inl rfl),
        behindMinutes?_chars, Option.getD_some]
  | behind offset =>
      rw [ZoneText.chars, List.cons_append, behindZone_cons (by decide), if_pos (.inr rfl),
        behindMinutes?_chars, Option.getD_some]

/-- A text that the pattern of a calendar literal does not go on with. -/
structure Halts (y : List Char) : Prop where
  head : ∀ c ∈ y.head?, c = '\n' ∨ c = '+' ∨ c = '-'
  zone : behindZone y = y

theorem Halts.nil : Halts [] :=
  ⟨nofun, rfl⟩

theorem Halts.of_endsLine (h : EndsLine y) : Halts y := by
  refine ⟨fun c hc => .inl (h c hc), ?_⟩
  cases y with
  | nil => rfl
  | cons c cs =>
      have hc : c = '\n' := h c rfl
      rw [hc, behindZone_cons (by decide), if_neg (by decide)]

/-- A zone is not found where its end is cut off. -/
theorem ZoneText.halts_take (z : ZoneText) {n : Nat} (h : n < z.chars.length) :
    Halts (z.chars.take n) := by
  have hoffset {sign : Char} (hsign : sign = '+' ∨ sign = '-') (m : MinutesText)
      (h : n < m.chars.length + 1) : Halts ((sign :: m.chars).take n) := by
    cases n with
    | zero => exact .nil
    | succ n =>
        have hnone : behindMinutes? (m.chars.take n) = none := by
          refine Option.eq_none_iff_forall_ne_some.mpr fun r hr => ?_
          have hlong := length_behindMinutes? (behindMinutes?_chars m [])
          have hshort := length_behindMinutes? hr
          rw [List.append_nil, List.length_nil] at hlong
          rw [List.length_take] at hshort
          omega
        refine ⟨fun c hc => .inr (Option.some.inj hc ▸ hsign), ?_⟩
        rw [List.take_succ_cons, behindZone_cons (by rcases hsign with rfl | rfl <;> decide),
          if_pos hsign, hnone, Option.getD_none]
  cases z with
  | utc =>
      rw [Nat.lt_one_iff.mp h]
      exact .nil
  | ahead offset => exact hoffset (.inl rfl) offset h
  | behind offset => exact hoffset (.inr rfl) offset h

/-! ## Times -/

/-- A text that the seconds of a time do not go on with. -/
def Unclocked (cs : List Char) : Prop :=
  ∀ c ∈ cs.head?, c ≠ ':' ∧ c ≠ '.' ∧ c.isDigit = false

theorem dropWhile_isDigit_append {xs : List Char} (hxs : ∀ c ∈ xs, c.isDigit = true)
    (hcs : Unclocked cs) : (xs ++ cs).dropWhile Char.isDigit = cs := by
  rw [List.dropWhile_append_of_pos hxs]
  cases cs with
  | nil => rfl
  | cons c cs => exact List.dropWhile_cons_of_neg (Bool.eq_false_iff.mp (hcs c rfl).2.2)

theorem behindFraction_chars (f : FractionText) (hcs : Unclocked cs) :
    behindFraction ('.' :: (f.chars ++ cs)) = cs := by
  obtain ⟨xs, hne, hdigits⟩ := f
  rw [List.all_eq_true] at hdigits
  cases xs with
  | nil => exact absurd rfl hne
  | cons x xs =>
      rw [List.cons_append, behindFraction_of_digit (hdigits x List.mem_cons_self)]
      exact dropWhile_isDigit_append (fun c hc => hdigits c (List.mem_cons_of_mem x hc)) hcs

theorem behindFraction_of_unclocked (hcs : Unclocked cs) : behindFraction cs = cs := by
  refine behindFraction_of_not ?_
  rintro ⟨c, s, rfl, -⟩
  exact (hcs '.' rfl).2.1 rfl

theorem behindSeconds_chars (s : Option SecondsText) (hcs : Unclocked cs) :
    behindSeconds (s.elim [] SecondsText.chars ++ cs) = cs := by
  rw [behindSeconds_eq]
  cases s with
  | none =>
      have hnone : behindGroup? (· == ':') 2 cs = none := by
        cases cs with
        | nil => rfl
        | cons c cs => rw [behindGroup?, behind?, if_neg (by simpa using (hcs c rfl).1)]; rfl
      rw [Option.elim_none, List.nil_append, hnone]
  | some s =>
      rw [Option.elim_some, SecondsText.chars, List.cons_append, List.append_assoc,
        behindGroup?_chars rfl]
      cases s.fraction with
      | none => exact behindFraction_of_unclocked hcs
      | some f => exact behindFraction_chars f hcs

theorem behindTime?_chars (t : TimeText) (hy : Halts y) :
    behindTime? (t.chars ++ y) = some y := by
  have hzone : Unclocked (t.zone.elim [] ZoneText.chars ++ y) := by
    intro c hc
    cases hz : t.zone with
    | none =>
        rw [hz] at hc
        rcases hy.head c hc with rfl | rfl | rfl <;> decide
    | some z =>
        rw [hz] at hc
        cases z <;> cases hc <;> decide
  rw [behindTime?, TimeText.chars, TimeText.clock, List.append_assoc, List.append_assoc,
    behindMinutes?_chars, Option.map_some, behindSeconds_chars _ hzone]
  cases t.zone with
  | none => exact congrArg some hy.zone
  | some z => exact congrArg some (behindZone_chars z y)

/-! ## The literal in front of what it does not go on with -/

theorem behindDateTime?_date (d : DateText) (hy : Halts y) :
    behindDateTime? (d.chars ++ y) = none := by
  rw [behindDateTime?_eq, behindDate?_chars, Option.bind_some]
  cases y with
  | nil => rfl
  | cons c cs =>
      rw [behindTimePart?, behind?, if_neg]
      · rfl
      · rcases hy.head c rfl with rfl | rfl | rfl <;> decide

theorem behindDateTime?_dateTime (d : DateText) (spaced : Bool) (t : TimeText) (hy : Halts y) :
    behindDateTime? (d.chars ++ separator spaced :: (t.chars ++ y)) = some y := by
  rw [behindDateTime?_eq, behindDate?_chars, Option.bind_some, behindTimePart?, behind?, if_pos]
  · exact behindTime?_chars t hy
  · cases spaced <;> rfl

/-- A year has more digits than an hour. -/
theorem behindDate?_time (t : TimeText) (y : List Char) : behindDate? (t.chars ++ y) = none := by
  simp only [TimeText.chars, TimeText.clock, MinutesText.chars, List.append_assoc, List.cons_append]
  rw [behindDate?_eq, behindDigits?_of_longer (m := 2) (n := 1) t.minutes.hour rfl]
  rfl

theorem matched_append (w y : List Char) (kind : Kind) :
    matched (w ++ y) kind y = ⟨kind, String.ofList w, w.length⟩ := by
  rw [matched, List.length_append, Nat.add_sub_cancel, List.take_left]

/-- The literal that the window starts with is the one at the front. -/
theorem moment?_of_window (t : CalendarText) (hwindow : cs.take momentWindow = t.chars ++ y)
    (hy : Halts y) : moment? cs = some ⟨t.kind, String.ofList t.chars, t.chars.length⟩ := by
  rw [moment?_eq, hwindow]
  cases t with
  | date d =>
      rw [CalendarText.chars, behindDateTime?_date d hy, behindDate?_chars, Option.map_some,
        matched_append]
      rfl
  | time t =>
      rw [CalendarText.chars, behindDateTime?_eq, behindDate?_time, behindTime?_chars t hy,
        Option.map_some, matched_append]
      rfl
  | dateTime d spaced t =>
      have happend : CalendarText.chars (.dateTime d spaced t) ++ y =
          d.chars ++ separator spaced :: (t.chars ++ y) := by
        rw [CalendarText.chars, List.append_assoc, List.cons_append]
      have hleft := behindDateTime?_dateTime d spaced t hy
      rw [← happend] at hleft
      rw [hleft, Option.map_some, matched_append]
      rfl

/-! ## What the window holds of a literal -/

theorem DateText.length_chars (d : DateText) : d.chars.length = 10 := by
  have hlength := length_behindDate? (behindDate?_chars d [])
  rwa [List.append_nil] at hlength

theorem MinutesText.length_chars (m : MinutesText) : m.chars.length = 5 := by
  have hlength := length_behindMinutes? (behindMinutes?_chars m [])
  rwa [List.append_nil] at hlength

/-- The zone of a literal. -/
def CalendarText.zone : CalendarText → Option ZoneText
  | date _ => none
  | time t => t.zone
  | dateTime _ _ t => t.zone

theorem CalendarText.chars_eq (t : CalendarText) :
    t.chars = t.unzoned ++ t.zone.elim [] ZoneText.chars := by
  cases t with
  | date d => exact (List.append_nil _).symm
  | time t => rfl
  | dateTime d spaced t =>
      simp only [chars, unzoned, zone, TimeText.chars, List.append_assoc, List.cons_append]

/-- The first digits of a fraction. -/
def FractionText.take (f : FractionText) {n : Nat} (hn : 0 < n) : FractionText where
  chars := f.chars.take n
  ne_nil h := (List.take_eq_nil_iff.mp h).elim hn.ne' f.ne_nil
  isDigit := List.all_eq_true.mpr fun _ hc => f.isDigit_of_mem (List.mem_of_mem_take hc)

/-- A clock of more than eight characters ends with a fraction, in the place of which any other may
stand. -/
theorem TimeText.exists_fraction (t : TimeText) (h : 8 < t.clock.length) :
    ∃ (front : List Char) (f : FractionText), front.length = 9 ∧ t.clock = front ++ f.chars ∧
      ∀ f' : FractionText, ∃ t' : TimeText, t'.chars = front ++ f'.chars := by
  obtain ⟨m, seconds, zone⟩ := t
  have hm := m.length_chars
  cases seconds with
  | none =>
      simp only [clock, Option.elim_none, List.append_nil] at h
      omega
  | some s =>
      obtain ⟨second, fraction⟩ := s
      have hsecond := second.length_eq
      cases fraction with
      | none =>
          simp only [clock, SecondsText.chars, Option.elim_some, Option.elim_none, List.append_nil,
            List.length_append, List.length_cons] at h
          omega
      | some f =>
          refine ⟨m.chars ++ ':' :: (second.chars ++ ['.']), f, ?_, ?_, fun f' =>
            ⟨⟨m, some ⟨second, some f'⟩, none⟩, ?_⟩⟩
          · simp only [List.length_append, List.length_cons, List.length_nil]
            omega
          · simp only [clock, SecondsText.chars, Option.elim_some, List.append_assoc,
              List.cons_append, List.nil_append]
          · simp only [chars, clock, SecondsText.chars, Option.elim_some, Option.elim_none,
              List.append_assoc, List.cons_append, List.nil_append, List.append_nil]

/-- A time that is cut within its fraction is a time again. -/
theorem TimeText.exists_clock_take (t : TimeText) {n : Nat} (hn : 9 < n)
    (hlength : n ≤ t.clock.length) : ∃ t' : TimeText, t'.chars = t.clock.take n := by
  obtain ⟨front, f, hfront, hclock, hother⟩ := t.exists_fraction (by omega)
  obtain ⟨t', ht'⟩ := hother (f.take (Nat.sub_pos_of_lt hn))
  refine ⟨t', ?_⟩
  rw [ht', hclock, List.take_append, List.take_of_length_le (by omega), hfront]
  rfl

namespace CalendarText

/-- The literal without its zone is a literal. -/
theorem exists_unzoned (t : CalendarText) :
    ∃ t' : CalendarText, t'.chars = t.unzoned ∧ t'.kind = t.kind := by
  cases t with
  | date d => exact ⟨date d, rfl, rfl⟩
  | time t => exact ⟨time { t with zone := none }, List.append_nil _, rfl⟩
  | dateTime d spaced t =>
      refine ⟨dateTime d spaced { t with zone := none }, ?_, rfl⟩
      rw [chars, TimeText.chars, Option.elim_none, List.append_nil]
      rfl

/-- A literal that is cut at the end of the window is cut within its fraction. -/
theorem exists_unzoned_take (t : CalendarText) (h : momentWindow ≤ t.unzoned.length) :
    ∃ t' : CalendarText, t'.chars = t.unzoned.take momentWindow ∧ t'.kind = t.kind := by
  rw [momentWindow] at h ⊢
  cases t with
  | date d =>
      rw [unzoned, d.length_chars] at h
      omega
  | time t =>
      obtain ⟨t', ht'⟩ := t.exists_clock_take (n := 48) (by decide) h
      exact ⟨time t', ht', rfl⟩
  | dateTime d spaced t =>
      have hd := d.length_chars
      have hclock : 37 ≤ t.clock.length := by
        rw [unzoned, List.length_append, List.length_cons] at h
        omega
      obtain ⟨t', ht'⟩ := t.exists_clock_take (by decide) hclock
      refine ⟨dateTime d spaced t', ?_, rfl⟩
      rw [chars, unzoned, ht', List.take_append, List.take_of_length_le (l := d.chars) (by omega),
        hd]
      rfl

/-- What the window holds of a literal is a literal in front of what it does not go on with. -/
theorem exists_window (t : CalendarText) (hend : EndsLine tail) :
    ∃ (t' : CalendarText) (y : List Char),
      (t.chars ++ tail).take momentWindow = t'.chars ++ y ∧ Halts y ∧ t'.kind = t.kind ∧
        t'.chars =
          if t.chars.length ≤ momentWindow then t.chars else t.unzoned.take momentWindow := by
  by_cases hfits : t.chars.length ≤ momentWindow
  · refine ⟨t, tail.take (momentWindow - t.chars.length), ?_, .of_endsLine ?_, rfl,
      (if_pos hfits).symm⟩
    · rw [List.take_append, List.take_of_length_le hfits]
    · intro c hc
      cases tail with
      | nil => cases List.take_nil ▸ hc
      | cons d ds =>
          cases hn : momentWindow - t.chars.length with
          | zero => cases hn ▸ hc
          | succ n => exact hend c (by rw [hn] at hc; exact hc)
  · rw [if_neg hfits, List.take_append_of_le_length (Nat.le_of_not_le hfits)]
    have hchars := t.chars_eq
    rcases Nat.lt_or_ge t.unzoned.length momentWindow with hlt | hge
    · -- the end of the zone is cut off
      obtain ⟨t', ht', hkind⟩ := t.exists_unzoned
      refine ⟨t', (t.zone.elim [] ZoneText.chars).take (momentWindow - t.unzoned.length),
        ?_, ?_, hkind, ?_⟩
      · rw [ht', hchars, List.take_append, List.take_of_length_le hlt.le]
      · rw [hchars, List.length_append] at hfits
        cases hzone : t.zone with
        | none =>
            rw [Option.elim_none, List.take_nil]
            exact .nil
        | some z =>
            rw [hzone] at hfits
            exact z.halts_take (by rw [Option.elim_some] at hfits; omega)
      · rw [ht', List.take_of_length_le hlt.le]
    · obtain ⟨t', ht', hkind⟩ := t.exists_unzoned_take hge
      refine ⟨t', [], ?_, .nil, hkind, ht'⟩
      rw [List.append_nil, ht', hchars, List.take_append_of_le_length hge]

/-- A literal starts with a digit. -/
theorem exists_chars_eq (t : CalendarText) : ∃ c cs, t.chars = c :: cs ∧ c.isDigit = true := by
  have hgroup {n : Nat} (g : DigitGroup (n + 1)) (cs : List Char) :
      ∃ c cs', g.chars ++ cs = c :: cs' ∧ c.isDigit = true := by
    obtain ⟨c, cs', hcons, hc⟩ := g.exists_cons
    exact ⟨c, cs' ++ cs, by rw [hcons, List.cons_append], hc⟩
  cases t with
  | date d => exact hgroup d.year _
  | time t =>
      simp only [chars, TimeText.chars, TimeText.clock, MinutesText.chars, List.append_assoc]
      exact hgroup t.minutes.hour _
  | dateTime d spaced t =>
      simp only [chars, DateText.chars, List.append_assoc]
      exact hgroup d.year _

end CalendarText

end Lexeme

namespace Lexer

open Lexeme (CalendarText EndsLine momentWindow)

variable {l : Lexer} {tail : List Char}

/-- In front of the end of a line stands the token that says so, or the end of the text. -/
theorem kind_next_of_endsLine (h : EndsLine l.rest) :
    l.next.1.kind = .eol ∨ l.next.1.kind = .eof := by
  cases hrest : l.rest with
  | nil =>
      rw [next_of_nil (by rw [skipBlanks_of_nil hrest, hrest])]
      exact .inr rfl
  | cons c cs =>
      have hc : c = '\n' := h c (by rw [hrest]; rfl)
      have hskipped : l.skipBlanks.rest = '\n' :: cs := by
        rw [rest_skipBlanks, hrest, hc, List.dropWhile_cons_of_neg (by decide)]
      rw [next_of_cons hskipped]
      exact .inl rfl

/-- **A calendar literal is one token if it is within the window.**  Of a longer one, which has a
long fraction, the token holds as much without the zone as the window does. -/
theorem next_of_calendar (t : CalendarText) (hrest : l.skipBlanks.rest = t.chars ++ tail)
    (hend : EndsLine tail) :
    (t.chars.length ≤ momentWindow →
      l.next.1 = ⟨t.kind, String.ofList t.chars, l.skipBlanks.position⟩ ∧ l.next.2.rest = tail ∧
        (l.next.2.next.1.kind = .eol ∨ l.next.2.next.1.kind = .eof)) ∧
    (momentWindow < t.chars.length →
      l.next.1 =
          ⟨t.kind, String.ofList (t.unzoned.take momentWindow), l.skipBlanks.position⟩ ∧
        l.next.2.rest = t.chars.drop (t.unzoned.take momentWindow).length ++ tail) := by
  obtain ⟨c, cs, hchars, hc⟩ := t.exists_chars_eq
  have hcons : l.skipBlanks.rest = c :: (cs ++ tail) := by
    rw [hrest, hchars, List.cons_append]
  obtain ⟨t', y, hwindow, hy, hkind, ht'⟩ := t.exists_window hend
  have hlexeme : Lexeme.atFront l.last c (cs ++ tail) =
      ⟨t.kind, String.ofList t'.chars, t'.chars.length⟩ := by
    rw [atFront_digit _ hc, Lexeme.unsigned, ← hcons, hrest, Lexeme.moment?_of_window t' hwindow hy,
      Option.getD_some, hkind]
  have hnext := next_of_cons hcons
  have hleft := rest_next hcons
  rw [hlexeme] at hnext hleft
  rw [← hcons, hrest] at hleft
  dsimp only at hleft
  constructor
  · intro hfits
    rw [if_pos hfits] at ht'
    rw [ht', List.drop_left] at hleft
    refine ⟨?_, hleft, kind_next_of_endsLine (hleft ▸ hend)⟩
    rw [hnext, ht']
    rfl
  · intro hlong
    rw [if_neg (Nat.not_le.mpr hlong)] at ht'
    have hle : (t.unzoned.take momentWindow).length ≤ t.chars.length :=
      (List.length_take_le _ _).trans hlong.le
    rw [ht', List.drop_append_of_le_length hle] at hleft
    refine ⟨?_, hleft⟩
    rw [hnext, ht']
    rfl

/-- `2024-03-01T12:30:45` with a fraction, in the zone `+01:00`. -/
def noonAhead (fraction : Lexeme.FractionText) : CalendarText :=
  .dateTime ⟨{ chars := ['2', '0', '2', '4'] }, { chars := ['0', '3'] }, { chars := ['0', '1'] }⟩
    false
    ⟨⟨{ chars := ['1', '2'] }, { chars := ['3', '0'] }⟩, some ⟨{ chars := ['4', '5'] }, fraction⟩,
      some (.ahead ⟨{ chars := ['0', '1'] }, { chars := ['0', '0'] }⟩)⟩

/-- With nine digits in its fraction a date with a time and a zone is one token. -/
theorem next_of_calendar_nanos :
    (ofText "2024-03-01T12:30:45.123456789+01:00\n").next.1 =
        ⟨.dateTime, "2024-03-01T12:30:45.123456789+01:00", .start⟩ ∧
      (ofText "2024-03-01T12:30:45.123456789+01:00\n").next.2.rest = ['\n'] := by
  let t := noonAhead { chars := ['1', '2', '3', '4', '5', '6', '7', '8', '9'] }
  have hwhole := (next_of_calendar (l := ofText "2024-03-01T12:30:45.123456789+01:00\n") t
    rfl fun _ h => (Option.some.inj h).symm).1 (by decide)
  exact ⟨hwhole.1, hwhole.2.1⟩

/-- With 23 digits in its fraction it loses the zone, which becomes the addition of a time. -/
theorem next_cuts_calendar :
    let t := noonAhead { chars := List.replicate 23 '1' }
    let l := ofText "2024-03-01T12:30:45.11111111111111111111111+01:00"
    l.skipBlanks.rest = t.chars ∧
      l.next.1 = ⟨.dateTime, "2024-03-01T12:30:45.11111111111111111111111", .start⟩ ∧
      l.next.1.text ≠ String.ofList t.chars ∧ l.next.2.next.1.kind = .mark .plus ∧
      l.next.2.next.2.next.1.kind = .time := by
  decide +kernel

end Lexer

end ConfigLang
