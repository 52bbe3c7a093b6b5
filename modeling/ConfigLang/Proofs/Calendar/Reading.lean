import Mathlib
import ConfigLang.Calendar.Reader
import ConfigLang.Proofs.Token.Calendar

/-!
# Reading calendar literals

A literal of the grammar is read as the moment with the fields that it writes, if there is one
(`CalendarText.ofText?_eq_some`).  The reader finds the parts of a literal by counting bytes and by
single characters: the hyphen that is the fifth byte of a date, the `Z` at the end, the sign six
bytes before it, the five bytes of a clock without seconds.  Every character of a literal is a
single byte, and none of these marks is found where the grammar has something else.

## Strategy

* **Bytes.**  A text of printable ASCII characters is split at a byte where it is split at a
  character (`Printable.splitAtByte?_append`).
* **Groups of digits.**  Each group is read as the number that it stands for
  (`readNumber?_chars`, `readYear?_chars`).  The reader skips blanks in front of a number and takes
  no more than so many digits; there are no blanks in a literal, and no more digits in a group.
* **Dates, clocks, zones.**  `ofChars?_date`, `ofChars?_clock` and `ofChars?_offset` read the parts
  of a literal.  Where a zone starts is found from the end of the text: `splitZone?_zoned` finds the
  one that is there, and `splitZone?_clock` says that none is found in a clock.
* **Moments.**  `CalendarText.ofText?_chars` puts the parts together, as `CalendarText.moment?` does
  with the numbers that are written; the fields that they are checked against come last
  (`CalendarText.moment?_eq_some`).
-/

namespace ConfigLang

/-! ## Bytes -/

namespace Text

variable {cs : List Char}

/-- A text of printable ASCII characters, each of which is a single byte. -/
def Printable (cs : List Char) : Prop :=
  ∀ c ∈ cs, ' ' ≤ c ∧ c ≤ '~'

theorem Printable.append {a b : List Char} (ha : Printable a) (hb : Printable b) :
    Printable (a ++ b) :=
  List.forall_mem_append.mpr ⟨ha, hb⟩

theorem Printable.cons {c : Char} (hc : ' ' ≤ c ∧ c ≤ '~') (h : Printable cs) :
    Printable (c :: cs) :=
  List.forall_mem_cons.mpr ⟨hc, h⟩

theorem utf8Size_of_le {c : Char} (h : c ≤ '~') : c.utf8Size = 1 :=
  Char.utf8Size_eq_one_iff.mpr (UInt32.le_trans h (by decide))

theorem Printable.byteLength (h : Printable cs) : byteLength cs = cs.length := by
  have hcount : ∀ n, cs.foldl (fun n c => n + c.utf8Size) n = n + cs.length := by
    induction cs with
    | nil => exact fun n => rfl
    | cons c cs ih =>
        obtain ⟨hc, hcs⟩ := List.forall_mem_cons.mp h
        intro n
        rw [List.foldl_cons, ih hcs, utf8Size_of_le hc.2, List.length_cons, Nat.add_right_comm,
          Nat.add_assoc]
  rw [Text.byteLength, hcount, Nat.zero_add]

theorem Printable.splitAtByte? {n : Nat} (h : Printable cs) (hn : n ≤ cs.length) :
    splitAtByte? n cs = some (cs.take n, cs.drop n) := by
  induction n generalizing cs with
  | zero => rw [Text.splitAtByte?, List.take_zero, List.drop_zero]
  | succ n ih =>
      cases cs with
      | nil => cases hn
      | cons c cs =>
          obtain ⟨hc, hcs⟩ := List.forall_mem_cons.mp h
          rw [Text.splitAtByte?, utf8Size_of_le hc.2, if_pos (Nat.le_add_left 1 n),
            Nat.add_sub_cancel, ih hcs (Nat.le_of_succ_le_succ hn), List.take_succ_cons,
            List.drop_succ_cons]
          rfl

theorem Printable.splitAtByte?_append {a b : List Char} {n : Nat} (h : Printable (a ++ b))
    (hn : a.length = n) : Text.splitAtByte? n (a ++ b) = some (a, b) := by
  subst hn
  rw [h.splitAtByte? (by rw [List.length_append]; exact Nat.le_add_right _ _), List.take_left,
    List.drop_left]

theorem printable_of_isDigit {c : Char} (h : c.isDigit = true) : ' ' ≤ c ∧ c ≤ '~' := by
  simp only [Char.isDigit, Bool.and_eq_true, decide_eq_true_eq] at h
  exact ⟨UInt32.le_trans (by decide) h.1, UInt32.le_trans h.2 (by decide)⟩

end Text

/-! ## Digits -/

namespace Calendar

theorem digitsValue_eq (cs : List Char) : digitsValue cs = Nat.ofDigitChars 10 cs 0 := by
  rw [digitsValue, Nat.ofDigitChars_eq_foldl]
  refine congrArg (List.foldl · 0 cs) (funext fun n => funext fun c => ?_)
  rw [Nat.mul_comm]

theorem digitsValue_append (a b : List Char) :
    digitsValue (a ++ b) = digitsValue a * 10 ^ b.length + digitsValue b := by
  rw [digitsValue_eq, Nat.ofDigitChars_append, Nat.ofDigitChars_eq_ofDigitChars_zero,
    ← digitsValue_eq, ← digitsValue_eq, Nat.mul_comm]

theorem digitsValue_lt {cs : List Char} (h : ∀ c ∈ cs, c.isDigit = true) :
    digitsValue cs < 10 ^ cs.length := by
  induction cs using List.reverseRecOn with
  | nil => decide
  | append_singleton cs c ih =>
      obtain ⟨hcs, hc⟩ := List.forall_mem_append.mp h
      have hdigit : digitsValue [c] < 10 := by
        have hmem := hc c List.mem_cons_self
        simp only [Char.isDigit, Bool.and_eq_true, decide_eq_true_eq] at hmem
        have hle : c.toNat ≤ 57 := UInt32.le_iff_toNat_le.mp hmem.2
        rw [digitsValue, List.foldl_cons, List.foldl_nil]
        change 0 * 10 + (c.toNat - 48) < 10
        omega
      have hfront := ih hcs
      rw [digitsValue_append, List.length_append, List.length_singleton, pow_one, Nat.pow_succ]
      omega

/-! ## Fields in range -/

theorem Date.ofFields?_eq_some {year : Int} {month day : Nat} {date : Date} :
    Date.ofFields? year month day = some date ↔
      date.year = year ∧ date.month = month ∧ date.day = day := by
  rw [ofFields?]
  constructor
  · intro h
    split at h
    · split at h
      · cases h
        exact ⟨rfl, rfl, rfl⟩
      · cases h
    · cases h
  · rintro ⟨rfl, rfl, rfl⟩
    rw [dif_pos date.month_mem, dif_pos date.day_mem]

theorem Clock.ofFields?_eq_some {hour minute second nano : Nat} {clock : Clock} :
    Clock.ofFields? hour minute second nano = some clock ↔
      clock.hour = hour ∧ clock.minute = minute ∧ clock.second = second ∧ clock.nano = nano := by
  rw [ofFields?]
  constructor
  · intro h
    split at h
    · cases h
      exact ⟨rfl, rfl, rfl, rfl⟩
    · cases h
  · rintro ⟨rfl, rfl, rfl, rfl⟩
    rw [dif_pos ⟨clock.hour_lt, clock.minute_lt, clock.second_le, clock.nano_lt⟩]

theorem Offset.ofMinutes?_eq_some {minutes : Int} {offset : Offset} :
    Offset.ofMinutes? minutes = some offset ↔ offset.minutes = minutes := by
  rw [ofMinutes?]
  constructor
  · intro h
    split at h
    · cases h
      rfl
    · cases h
  · rintro rfl
    rw [dif_pos offset.abs_lt]

end Calendar

namespace Lexeme

open Calendar Text

/-! ## What a literal writes -/

/-- The number that a group of digits stands for. -/
def DigitGroup.value {n : Nat} (g : DigitGroup n) : Nat :=
  digitsValue g.chars

/-- The nanoseconds of a fraction of a second, without what is smaller. -/
def FractionText.nanos (f : FractionText) : Nat :=
  digitsValue f.chars * 10 ^ 9 / 10 ^ f.chars.length

def SecondsText.nanos (s : SecondsText) : Nat :=
  s.fraction.elim 0 FractionText.nanos

/-- The minutes of so many hours and minutes. -/
def MinutesText.total (m : MinutesText) : Nat :=
  m.hour.value * 60 + m.minute.value

/-- The date that is written, if it exists. -/
def DateText.date? (d : DateText) : Option Date :=
  Date.ofFields? d.year.value d.month.value d.day.value

/-- The reading of a clock that is written, if there is one. -/
def TimeText.clock? (t : TimeText) : Option Clock :=
  Clock.ofFields? t.minutes.hour.value t.minutes.minute.value
    (t.seconds.elim 0 fun s => s.second.value) (t.seconds.elim 0 SecondsText.nanos)

/-- The minutes that a zone is ahead of UTC. -/
def ZoneText.minutes : ZoneText → Int
  | utc => 0
  | ahead offset => offset.total
  | behind offset => -offset.total

/-- The offset that is written, if it is less than a day; none may be written. -/
def TimeText.offset? (t : TimeText) : Option (Option Offset) :=
  match t.zone with
  | some z => (Offset.ofMinutes? z.minutes).map some
  | none => some none

/-- The clock reading and the offset that are written, if they are in range. -/
def TimeText.time? (t : TimeText) : Option (Clock × Option Offset) := do
  let offset ← t.offset?
  let clock ← t.clock?
  some (clock, offset)

/-- The moment that is written, if there is one. -/
def CalendarText.moment? : CalendarText → Option Moment
  | date d => d.date?.map .date
  | time t => t.time?.map fun (clock, offset) => .time clock offset
  | dateTime d _ t => do
    let date ← d.date?
    let (clock, offset) ← t.time?
    some (.dateTime date clock offset)

/-! ## Groups of digits -/

variable {n : Nat}

theorem DigitGroup.value_lt (g : DigitGroup n) : g.value < 10 ^ n := by
  have hlt := digitsValue_lt fun c hc => g.isDigit_of_mem hc
  rwa [g.length_eq] at hlt

theorem DigitGroup.getLast?_chars (g : DigitGroup (n + 1)) (cs : List Char) :
    (cs ++ g.chars).getLast? ≠ some 'Z' := by
  intro h
  obtain ⟨c, cs', hcons, -⟩ := g.exists_cons
  have hmem : 'Z' ∈ g.chars := by
    rw [List.getLast?_append_of_ne_nil _ (hcons ▸ List.cons_ne_nil _ _)] at h
    exact List.mem_of_getLast? h
  exact absurd (g.isDigit_of_mem hmem) (by decide)

theorem readDigits?_chars (g : DigitGroup (n + 1)) (cs : List Char) :
    readDigits? (n + 1) (g.chars ++ cs) = some (g.value, cs) := by
  have hrun : ((g.chars ++ cs).take (n + 1)).takeWhile Char.isDigit = g.chars := by
    rw [List.take_left' g.length_eq]
    exact List.takeWhile_eq_self_iff.mpr fun c hc => g.isDigit_of_mem hc
  obtain ⟨c, cs', hcons, -⟩ := g.exists_cons
  rw [readDigits?, hrun, if_neg (by rw [hcons]; nofun), List.drop_left]
  rfl

theorem isBlank_of_isDigit {c : Char} (h : c.isDigit = true) : isBlank c = false :=
  Bool.eq_false_iff.mpr fun hblank =>
    not_solid_of_isBlank hblank (solid_of_isNameChar (isNameChar_of_isDigit h))

/-- Nothing is taken for a blank in front of a group. -/
theorem dropWhile_isBlank_chars (g : DigitGroup (n + 1)) (cs : List Char) :
    (g.chars ++ cs).dropWhile isBlank = g.chars ++ cs := by
  obtain ⟨c, cs', hcons, hc⟩ := g.exists_cons
  rw [hcons, List.cons_append, List.dropWhile_cons_of_neg (by rw [isBlank_of_isDigit hc]; decide)]

theorem readNumber?_chars (g : DigitGroup (n + 1)) (cs : List Char) :
    readNumber? (n + 1) (g.chars ++ cs) = some (g.value, cs) := by
  rw [readNumber?, dropWhile_isBlank_chars, readDigits?_chars]

theorem readYear?_chars (g : DigitGroup 4) (cs : List Char) :
    readYear? (g.chars ++ cs) = some ((g.value : Int), cs) := by
  have hdigits := readDigits?_chars g cs
  obtain ⟨c, cs', hcons, hc⟩ := g.exists_cons
  rw [readYear?, dropWhile_isBlank_chars]
  rw [hcons, List.cons_append] at hdigits ⊢
  split
  · rename_i heq
    cases heq
    cases hc
  · rename_i heq
    cases heq
    cases hc
  · rw [hdigits]
    rfl

theorem readChar?_cons (c : Char) (cs : List Char) : readChar? c (c :: cs) = some cs :=
  if_pos rfl

theorem DigitGroup.ne_cons (g : DigitGroup n) {c : Char} (hc : c.isDigit = false) (cs : List Char) :
    g.chars ≠ c :: cs := by
  intro h
  rw [g.isDigit_of_mem (h ▸ List.mem_cons_self)] at hc
  cases hc

theorem readSigned?_chars (g : DigitGroup (n + 1)) :
    readSigned? g.chars = some (g.value : Int) := by
  obtain ⟨c, cs, hcons, -⟩ := g.exists_cons
  rw [readSigned?]
  · dsimp only
    rw [g.isDigit, if_neg (by rw [hcons]; nofun)]
    rfl
  · exact g.ne_cons (by decide)
  · exact g.ne_cons (by decide)

/-! ## Dates -/

theorem DigitGroup.printable (g : DigitGroup n) : Printable g.chars :=
  fun _ h => printable_of_isDigit (g.isDigit_of_mem h)

theorem DateText.printable (d : DateText) : Printable d.chars :=
  d.year.printable.append <| .cons (by decide) <|
    d.month.printable.append <| .cons (by decide) d.day.printable

theorem MinutesText.printable (m : MinutesText) : Printable m.chars :=
  m.hour.printable.append <| .cons (by decide) m.minute.printable

theorem readNumber?_last (g : DigitGroup (n + 1)) :
    readNumber? (n + 1) g.chars = some (g.value, []) := by
  have hread := readNumber?_chars g []
  rwa [List.append_nil] at hread

theorem ofChars?_date (d : DateText) : Date.ofChars? d.chars = d.date? := by
  simp only [Date.ofChars?, DateText.chars, Option.bind_eq_bind, readYear?_chars, readChar?_cons,
    readNumber?_chars, readNumber?_last, Option.bind_some]
  rfl

/-! ## Clocks -/

/-- The digits past the ninth are less than a nanosecond. -/
theorem FractionText.nanos_eq (f : FractionText) :
    f.nanos = digitsValue (f.chars.take 9) * 10 ^ (9 - (f.chars.take 9).length) := by
  rw [nanos]
  rcases Nat.le_or_ge f.chars.length 9 with hshort | hlong
  · have hpow : 10 ^ 9 = 10 ^ (9 - f.chars.length) * 10 ^ f.chars.length := by
      rw [← Nat.pow_add, Nat.sub_add_cancel hshort]
    rw [List.take_of_length_le hshort, hpow, ← Nat.mul_assoc,
      Nat.mul_div_cancel _ (Nat.pow_pos (by decide))]
  · have hlength : (f.chars.take 9).length = 9 := List.length_take_of_le hlong
    have hrest : digitsValue (f.chars.drop 9) < 10 ^ (f.chars.drop 9).length :=
      digitsValue_lt fun c hc => f.isDigit_of_mem (List.mem_of_mem_drop hc)
    have hvalue := digitsValue_append (f.chars.take 9) (f.chars.drop 9)
    rw [List.take_append_drop] at hvalue
    have hpow : 10 ^ f.chars.length = 10 ^ (f.chars.drop 9).length * 10 ^ 9 := by
      rw [← Nat.pow_add, List.length_drop, Nat.sub_add_cancel hlong]
    rw [hlength, hvalue, hpow, Nat.mul_div_mul_right _ _ (by decide), Nat.add_comm,
      Nat.add_mul_div_right _ _ (Nat.pow_pos (by decide)), Nat.div_eq_of_lt hrest, Nat.zero_add,
      Nat.sub_self, pow_zero, Nat.mul_one]

theorem readFraction?_chars (f : FractionText) :
    readFraction? ('.' :: f.chars) = some (f.nanos, []) := by
  have hrun : (f.chars.take 9).takeWhile Char.isDigit = f.chars.take 9 :=
    List.takeWhile_eq_self_iff.mpr fun c hc =>
      f.isDigit_of_mem (List.mem_of_mem_take hc)
  have hnonempty : ¬(f.chars.take 9).isEmpty = true := by
    rw [List.isEmpty_iff, List.take_eq_nil_iff]
    exact (Or.elim · (by decide) f.ne_nil)
  have hrest : (f.chars.drop (f.chars.take 9).length).dropWhile Char.isDigit = [] :=
    List.dropWhile_eq_nil_iff.mpr fun c hc =>
      f.isDigit_of_mem (List.mem_of_mem_drop hc)
  have hread : f.chars.length - (f.chars.drop (f.chars.take 9).length).length =
      (f.chars.take 9).length := by
    rw [List.length_drop, List.length_take]
    omega
  rw [readFraction?, readDigits?, hrun, if_neg hnonempty]
  simp only [Option.bind_eq_bind, Option.bind_some, hrest, hread, f.nanos_eq]
  rfl

theorem readFraction?_elim (f : Option FractionText) :
    readFraction? (f.elim [] fun f => '.' :: f.chars) = some (f.elim 0 FractionText.nanos, []) := by
  cases f with
  | none => rfl
  | some f => exact readFraction?_chars f

/-- The characters of a clock are neither a sign nor the mark of UTC. -/
theorem TimeText.mem_clock {t : TimeText} {c : Char} (h : c ∈ t.clock) :
    c.isDigit = true ∨ c = ':' ∨ c = '.' := by
  obtain ⟨minutes, seconds, zone⟩ := t
  rw [clock, MinutesText.chars, List.mem_append, List.mem_append, List.mem_cons] at h
  rcases h with (h | h | h) | h
  · exact .inl (minutes.hour.isDigit_of_mem h)
  · exact .inr (.inl h)
  · exact .inl (minutes.minute.isDigit_of_mem h)
  · cases seconds with
    | none => cases h
    | some s =>
        rw [Option.elim_some, SecondsText.chars, List.mem_cons, List.mem_append] at h
        rcases h with h | h | h
        · exact .inr (.inl h)
        · exact .inl (s.second.isDigit_of_mem h)
        · cases hfraction : s.fraction with
          | none =>
              rw [hfraction] at h
              cases h
          | some f =>
              rw [hfraction, Option.elim_some, List.mem_cons] at h
              exact h.elim (.inr ∘ .inr) fun h => .inl (f.isDigit_of_mem h)

theorem TimeText.printable_clock (t : TimeText) : Printable t.clock := by
  intro c hc
  rcases mem_clock hc with h | rfl | rfl
  · exact printable_of_isDigit h
  · decide
  · decide

theorem ofChars?_clock (t : TimeText) : Clock.ofChars? t.clock = t.clock? := by
  have hbytes := t.printable_clock.byteLength
  obtain ⟨minutes, seconds, zone⟩ := t
  have hminutes := minutes.length_chars
  cases seconds with
  | none =>
      have hlength : byteLength (TimeText.clock ⟨minutes, none, zone⟩) = 5 := by
        rw [hbytes, TimeText.clock, Option.elim_none, List.append_nil, hminutes]
      simp only [Clock.ofChars?, if_pos hlength]
      simp only [TimeText.clock, MinutesText.chars, Option.elim_none, List.append_nil,
        Option.bind_eq_bind, readChar?_cons, readNumber?_chars, readNumber?_last, Option.bind_some]
      rfl
  | some s =>
      have hlength : byteLength (TimeText.clock ⟨minutes, some s, zone⟩) ≠ 5 := by
        rw [hbytes, TimeText.clock, Option.elim_some, SecondsText.chars, List.length_append,
          hminutes, List.length_cons]
        omega
      simp only [Clock.ofChars?, if_neg hlength]
      simp only [TimeText.clock, MinutesText.chars, SecondsText.chars, Option.elim_some,
        List.append_assoc, List.cons_append, Option.bind_eq_bind, readChar?_cons, readNumber?_chars,
        readFraction?_elim, Option.bind_some]
      rfl

/-! ## Zones -/

theorem TimeText.five_le_length_clock (t : TimeText) : 5 ≤ t.clock.length := by
  rw [clock, List.length_append, t.minutes.length_chars]
  exact Nat.le_add_right _ _

theorem ofChars?_offset {sign : Char} (hsign : ' ' ≤ sign ∧ sign ≤ '~') (m : MinutesText) :
    Offset.ofChars? (sign :: m.chars) =
      Offset.ofMinutes? (if sign = '-' then -(m.total : Int) else m.total) := by
  have hzone : Printable ([sign] ++ m.chars) := .cons hsign m.printable
  have hcolon : Printable ([':'] ++ m.minute.chars) := .cons (by decide) m.minute.printable
  have hoffset : splitAtByte? 1 (sign :: m.chars) = some ([sign], m.chars) :=
    hzone.splitAtByte?_append rfl
  have hhour : splitAtByte? 2 m.chars = some (m.hour.chars, ':' :: m.minute.chars) :=
    m.printable.splitAtByte?_append m.hour.length_eq
  have hminute : splitAtByte? 1 (':' :: m.minute.chars) = some ([':'], m.minute.chars) :=
    hcolon.splitAtByte?_append rfl
  simp only [Offset.ofChars?, Option.bind_eq_bind, hoffset, hhour, hminute, readSigned?_chars,
    Option.bind_some, List.cons.injEq, and_true]
  rfl

theorem splitZone?_clock (t : TimeText) : splitZone? t.clock = none := by
  rw [splitZone?]
  dsimp only
  by_cases hfront : 0 < byteLength t.clock - 6
  · have hle : byteLength t.clock - 6 ≤ t.clock.length := by
      rw [t.printable_clock.byteLength]
      exact Nat.sub_le _ _
    have hsign : ¬((t.clock.drop (byteLength t.clock - 6)).head? = some '+' ∨
        (t.clock.drop (byteLength t.clock - 6)).head? = some '-') := by
      have hmem {c : Char} (h : (t.clock.drop (byteLength t.clock - 6)).head? = some c) :
          c.isDigit = true ∨ c = ':' ∨ c = '.' :=
        TimeText.mem_clock (List.mem_of_mem_drop (List.mem_of_head? h))
      rintro (h | h)
      · exact absurd (hmem h) (by decide)
      · exact absurd (hmem h) (by decide)
    simp only [Option.bind_eq_bind, t.printable_clock.splitAtByte? hle, Option.bind_some, guard,
      if_neg hsign]
    exact Option.bind_fun_none _
  · simp only [Option.bind_eq_bind, guard, if_neg hfront]
    rfl

theorem splitZone?_zoned (t : TimeText) {sign : Char} (hsign : sign = '+' ∨ sign = '-')
    (m : MinutesText) :
    splitZone? (t.clock ++ sign :: m.chars) = some (t.clock, sign :: m.chars) := by
  have hprint : Printable (t.clock ++ sign :: m.chars) := by
    refine t.printable_clock.append (.cons ?_ m.printable)
    rcases hsign with rfl | rfl <;> decide
  have hfront : byteLength (t.clock ++ sign :: m.chars) - 6 = t.clock.length := by
    rw [hprint.byteLength, List.length_append, List.length_cons, m.length_chars,
      Nat.add_sub_cancel]
  have hpos : 0 < t.clock.length := t.five_le_length_clock.trans_lt' (by decide)
  have hhead : (sign :: m.chars).head? = some '+' ∨ (sign :: m.chars).head? = some '-' :=
    hsign.imp (congrArg some) (congrArg some)
  simp only [splitZone?, hfront, Option.bind_eq_bind, hprint.splitAtByte?_append rfl,
    Option.bind_some, guard, if_pos hpos, if_pos hhead]
  rfl

/-! ## Times -/

theorem TimeText.getLast?_clock (t : TimeText) : t.clock.getLast? ≠ some 'Z' :=
  fun h => absurd (mem_clock (List.mem_of_getLast? h)) (by decide)

theorem MinutesText.getLast?_chars (m : MinutesText) (cs : List Char) :
    (cs ++ m.chars).getLast? ≠ some 'Z' := by
  have hlast := m.minute.getLast?_chars (cs ++ (m.hour.chars ++ [':']))
  simpa only [chars, List.append_assoc, List.nil_append, List.cons_append] using hlast

theorem readTime?_offset (t : TimeText) {sign : Char} (hsign : sign = '+' ∨ sign = '-')
    (m : MinutesText) :
    readTime? (t.clock ++ sign :: m.chars) = (do
      let offset ← Offset.ofMinutes? (if sign = '-' then -(m.total : Int) else m.total)
      let clock ← t.clock?
      some (clock, some offset)) := by
  have hlast : (t.clock ++ sign :: m.chars).getLast? ≠ some 'Z' := by
    rw [List.append_cons]
    exact m.getLast?_chars _
  have hprintable : ' ' ≤ sign ∧ sign ≤ '~' := by
    rcases hsign with rfl | rfl <;> decide
  rw [readTime?, if_neg hlast, splitZone?_zoned t hsign]
  dsimp only
  rw [ofChars?_offset hprintable, ofChars?_clock]

theorem readTime?_chars (t : TimeText) : readTime? t.chars = t.time? := by
  rw [TimeText.chars, TimeText.time?, TimeText.offset?]
  cases t.zone with
  | none =>
      rw [Option.elim_none, List.append_nil, readTime?, if_neg t.getLast?_clock, splitZone?_clock]
      dsimp only
      rw [ofChars?_clock]
      cases t.clock? <;> rfl
  | some z =>
      cases z with
      | utc =>
          have hlast : (t.clock ++ ['Z']).getLast? = some 'Z' := List.getLast?_concat
          rw [Option.elim_some, ZoneText.chars, readTime?, if_pos hlast, List.dropLast_concat,
            ofChars?_clock]
          cases t.clock? <;> rfl
      | ahead offset =>
          rw [Option.elim_some, ZoneText.chars, readTime?_offset t (.inl rfl), if_neg (by decide)]
          change _ = ((Offset.ofMinutes? offset.total).map some).bind _
          rw [Option.bind_map]
          rfl
      | behind offset =>
          rw [Option.elim_some, ZoneText.chars, readTime?_offset t (.inr rfl), if_pos rfl]
          change _ = ((Offset.ofMinutes? (-offset.total)).map some).bind _
          rw [Option.bind_map]
          rfl

/-! ## Moments -/

theorem ZoneText.printable (z : ZoneText) : Printable z.chars := by
  cases z with
  | utc => exact .cons (by decide) nofun
  | ahead offset => exact .cons (by decide) offset.printable
  | behind offset => exact .cons (by decide) offset.printable

theorem TimeText.printable (t : TimeText) : Printable t.chars := by
  refine t.printable_clock.append ?_
  cases t.zone with
  | none => exact nofun
  | some z => exact z.printable

theorem CalendarText.printable (t : CalendarText) : Printable t.chars := by
  cases t with
  | date d => exact d.printable
  | time t => exact t.printable
  | dateTime d spaced t =>
      refine d.printable.append (.cons ?_ t.printable)
      cases spaced <;> decide

/-- The fifth character of a time belongs to its minutes. -/
theorem startsWithDate_time (t : TimeText) : startsWithDate t.chars = false := by
  obtain ⟨x, xs, hminute, -⟩ := t.minutes.minute.exists_cons
  have hlength := t.minutes.minute.length_eq
  obtain ⟨y, rfl⟩ : ∃ y, xs = [y] := by
    rw [hminute, List.length_cons] at hlength
    exact List.length_eq_one_iff.mp (Nat.succ.inj hlength)
  have hy : y.isDigit = true :=
    t.minutes.minute.isDigit_of_mem (hminute ▸ List.mem_cons_of_mem x List.mem_cons_self)
  have hchars : t.chars = (t.minutes.hour.chars ++ [':', x]) ++
      (y :: (t.seconds.elim [] SecondsText.chars ++ t.zone.elim [] ZoneText.chars)) := by
    simp only [TimeText.chars, TimeText.clock, MinutesText.chars, hminute, List.append_assoc,
      List.cons_append, List.nil_append]
  have hprint := t.printable
  rw [hchars] at hprint ⊢
  have hfront : (t.minutes.hour.chars ++ [':', x]).length = 4 := by
    rw [List.length_append, t.minutes.hour.length_eq]
    rfl
  rw [startsWithDate, hprint.splitAtByte?_append hfront]
  split
  · rename_i heq
    cases heq
    cases hy
  · exact Bool.and_false _

theorem startsWithDate_date (d : DateText) {cs : List Char} (h : Printable (d.chars ++ cs)) :
    startsWithDate (d.chars ++ cs) = true := by
  have hlong : 10 ≤ byteLength (d.chars ++ cs) := by
    rw [h.byteLength, List.length_append, d.length_chars]
    exact Nat.le_add_right _ _
  rw [startsWithDate, decide_eq_true hlong, Bool.true_and]
  simp only [DateText.chars, List.append_assoc, List.cons_append] at h ⊢
  rw [h.splitAtByte?_append d.year.length_eq]
  rfl

/-- What is read of a literal is built of the parts that it writes. -/
theorem CalendarText.ofText?_chars (t : CalendarText) :
    Moment.ofText? (String.ofList t.chars) = t.moment? := by
  rw [Moment.ofText?, String.toList_ofList]
  dsimp only
  cases t with
  | date d =>
      have hprint : Printable (d.chars ++ []) := d.printable.append nofun
      rw [CalendarText.chars, CalendarText.moment?, ← List.append_nil d.chars,
        if_pos (startsWithDate_date d hprint), hprint.splitAtByte?_append d.length_chars,
        ← ofChars?_date, Option.bind_eq_bind, Option.bind_some]
      cases Date.ofChars? d.chars <;> rfl
  | time t =>
      rw [CalendarText.chars, if_neg (by rw [startsWithDate_time]; decide), readTime?_chars]
      rfl
  | dateTime d spaced t =>
      have hprint : Printable (d.chars ++ separator spaced :: t.chars) :=
        CalendarText.printable (.dateTime d spaced t)
      have hlength : (d.chars ++ [separator spaced]).length = 11 := by
        rw [List.length_append, d.length_chars]
        rfl
      have htime : splitAtByte? 11 (d.chars ++ separator spaced :: t.chars) =
          some (d.chars ++ [separator spaced], t.chars) := by
        rw [List.append_cons] at hprint ⊢
        exact hprint.splitAtByte?_append hlength
      rw [CalendarText.chars, CalendarText.moment?, if_pos (startsWithDate_date d hprint),
        hprint.splitAtByte?_append d.length_chars, htime, ← ofChars?_date, ← readTime?_chars]
      rfl

/-! ## The fields of a moment -/

/-- The date has the fields that are written. -/
structure DateText.Writes (d : DateText) (date : Date) : Prop where
  year : date.year = d.year.value
  month : date.month = d.month.value
  day : date.day = d.day.value

/-- The reading of the clock and the offset have the fields that are written; seconds that are left
out are none, and an offset is there if one is written. -/
structure TimeText.Writes (t : TimeText) (clock : Clock) (offset : Option Offset) : Prop where
  hour : clock.hour = t.minutes.hour.value
  minute : clock.minute = t.minutes.minute.value
  second : clock.second = t.seconds.elim 0 fun s => s.second.value
  nano : clock.nano = t.seconds.elim 0 SecondsText.nanos
  offset : offset.map Offset.minutes = t.zone.map ZoneText.minutes

/-- The moment is of the kind of the literal and has the fields that are written. -/
inductive CalendarText.Writes : CalendarText → Moment → Prop
  | date {d : DateText} {date : Date} (h : d.Writes date) : Writes (.date d) (.date date)
  | time {t : TimeText} {clock : Clock} {offset : Option Offset} (h : t.Writes clock offset) :
    Writes (.time t) (.time clock offset)
  | dateTime {d : DateText} {spaced : Bool} {t : TimeText} {date : Date} {clock : Clock}
    {offset : Option Offset} (hdate : d.Writes date) (htime : t.Writes clock offset) :
    Writes (.dateTime d spaced t) (.dateTime date clock offset)

theorem TimeText.offset?_eq_some {t : TimeText} {offset : Option Offset} :
    t.offset? = some offset ↔ offset.map Offset.minutes = t.zone.map ZoneText.minutes := by
  rw [offset?]
  cases t.zone with
  | none => rw [Option.map_none, Option.map_eq_none_iff, Option.some.injEq, eq_comm]
  | some z =>
      dsimp only
      rw [Option.map_some, Option.map_eq_some_iff, Option.map_eq_some_iff]
      refine exists_congr fun o => ?_
      rw [Offset.ofMinutes?_eq_some, and_comm, eq_comm (a := some o)]

theorem TimeText.time?_eq_some {t : TimeText} {clock : Clock} {offset : Option Offset} :
    t.time? = some (clock, offset) ↔ t.Writes clock offset := by
  simp only [time?, Option.bind_eq_bind, Option.bind_eq_some_iff, Option.some.injEq, Prod.mk.injEq]
  constructor
  · rintro ⟨_, hoffset, _, hclock, rfl, rfl⟩
    obtain ⟨hhour, hminute, hsecond, hnano⟩ := Clock.ofFields?_eq_some.mp hclock
    exact ⟨hhour, hminute, hsecond, hnano, offset?_eq_some.mp hoffset⟩
  · rintro ⟨hhour, hminute, hsecond, hnano, hoffset⟩
    exact ⟨offset, offset?_eq_some.mpr hoffset, clock,
      Clock.ofFields?_eq_some.mpr ⟨hhour, hminute, hsecond, hnano⟩, rfl, rfl⟩

theorem DateText.date?_eq_some {d : DateText} {date : Date} :
    d.date? = some date ↔ d.Writes date := by
  rw [date?, Date.ofFields?_eq_some]
  constructor
  · exact fun ⟨hyear, hmonth, hday⟩ => ⟨hyear, hmonth, hday⟩
  · exact fun ⟨hyear, hmonth, hday⟩ => ⟨hyear, hmonth, hday⟩

/-- What a literal writes has its fields. -/
theorem CalendarText.moment?_eq_some {t : CalendarText} {m : Moment} :
    t.moment? = some m ↔ t.Writes m := by
  cases t with
  | date d =>
      rw [moment?, Option.map_eq_some_iff]
      constructor
      · rintro ⟨date, hdate, rfl⟩
        exact .date (DateText.date?_eq_some.mp hdate)
      · intro h
        cases h with
        | date h => exact ⟨_, DateText.date?_eq_some.mpr h, rfl⟩
  | time t =>
      rw [moment?, Option.map_eq_some_iff]
      constructor
      · rintro ⟨⟨clock, offset⟩, htime, rfl⟩
        exact .time (TimeText.time?_eq_some.mp htime)
      · intro h
        cases h with
        | time h => exact ⟨_, TimeText.time?_eq_some.mpr h, rfl⟩
  | dateTime d spaced t =>
      simp only [moment?, Option.bind_eq_bind, Option.bind_eq_some_iff, Option.some.injEq]
      constructor
      · rintro ⟨date, hdate, ⟨clock, offset⟩, htime, rfl⟩
        exact .dateTime (DateText.date?_eq_some.mp hdate) (TimeText.time?_eq_some.mp htime)
      · intro h
        cases h with
        | dateTime hdate htime =>
            exact ⟨_, DateText.date?_eq_some.mpr hdate, _, TimeText.time?_eq_some.mpr htime, rfl⟩

/-- **A literal is read as the moment that it writes**, and as nothing else. -/
theorem CalendarText.ofText?_eq_some {t : CalendarText} {m : Moment} :
    Moment.ofText? (String.ofList t.chars) = some m ↔ t.Writes m := by
  rw [ofText?_chars, moment?_eq_some]

end Lexeme

end ConfigLang
