import Mathlib
import ConfigLang.Calendar.Date

/-!
# The days of the calendar one after the other

`Date.next` and `Date.prev` turn a page of the calendar, over the ends of months and years, and
`Date.carry` turns several.  The number of a day goes along (`Date.dayNumber_carry`): what is before
a month or a year differs from what is before the next by the length of the one in between
(`daysBeforeMonth_succ`, `daysBeforeYear_succ`).
-/

namespace ConfigLang.Calendar

/-! ## Lengths of months and years -/

variable {year : Int} {month : Nat}

theorem daysInMonth_pos (h : 1 ≤ month ∧ month ≤ 12) : 1 ≤ daysInMonth year month := by
  obtain ⟨hlow, hhigh⟩ := h
  by_cases hfebruary : month = 2
  · rw [hfebruary, daysInMonth]
    split <;> decide
  · interval_cases month <;> simp_all [daysInMonth]

theorem foldr_add_append (xs : List Nat) (n : Nat) :
    (xs ++ [n]).foldr (· + ·) 0 = xs.foldr (· + ·) 0 + n := by
  induction xs with
  | nil => simp
  | cons x xs ih => rw [List.cons_append, List.foldr_cons, ih, List.foldr_cons, Nat.add_assoc]

theorem daysBeforeMonth_succ (year : Int) (month : Nat) :
    daysBeforeMonth year (month + 1) = daysBeforeMonth year month + daysInMonth year month := by
  unfold daysBeforeMonth
  rw [List.range_succ, List.map_append, List.map_singleton, foldr_add_append]

/-- The length of a year. -/
def daysInYear (year : Int) : Nat :=
  if isLeapYear year then 366 else 365

theorem daysBeforeMonth_december (year : Int) : daysBeforeMonth year 12 + 31 = daysInYear year := by
  have hjanuary : daysBeforeMonth year 1 = 0 := rfl
  simp only [daysBeforeMonth_succ, daysInMonth, daysInYear]
  split_ifs <;> rfl

theorem daysBeforeYear_succ (year : Int) :
    daysBeforeYear (year + 1) = daysBeforeYear year + daysInYear year := by
  unfold daysBeforeYear daysInYear isLeapYear
  simp only [Bool.and_eq_true, Bool.or_eq_true, beq_iff_eq, bne_iff_ne]
  split_ifs with h
  · omega
  · omega

/-! ## Turning a page -/

namespace Date

/-- The day after. -/
def next (d : Date) : Date :=
  if h : d.day < daysInMonth d.year d.month then
    ⟨d.year, d.month, d.day + 1, d.month_mem, by omega⟩
  else if hmonth : d.month < 12 then
    ⟨d.year, d.month + 1, 1, by omega, le_rfl, daysInMonth_pos (by omega)⟩
  else ⟨d.year + 1, 1, 1, by decide, le_rfl, daysInMonth_pos (by decide)⟩

/-- The day before. -/
def prev (d : Date) : Date :=
  if h : 1 < d.day then
    ⟨d.year, d.month, d.day - 1, d.month_mem, by have := d.day_mem; omega⟩
  else if hmonth : 1 < d.month then
    have hmem : 1 ≤ d.month - 1 ∧ d.month - 1 ≤ 12 := by have := d.month_mem; omega
    ⟨d.year, d.month - 1, daysInMonth d.year (d.month - 1), hmem, daysInMonth_pos hmem, le_rfl⟩
  else ⟨d.year - 1, 12, 31, by decide, by decide, le_rfl⟩

/-- The date so many days later, or earlier. -/
def carry (d : Date) : Int → Date
  | .ofNat n => next^[n] d
  | .negSucc n => prev^[n + 1] d

theorem dayNumber_next (d : Date) : d.next.dayNumber = d.dayNumber + 1 := by
  obtain ⟨hmonth, hday⟩ := And.intro d.month_mem d.day_mem
  unfold next
  split
  · simp only [dayNumber]
    omega
  · split
    · simp only [dayNumber, daysBeforeMonth_succ]
      omega
    · -- the last day of december
      have hlast : d.month = 12 := by omega
      have hlength : daysInMonth d.year d.month = 31 := by rw [hlast]; rfl
      have hyear := daysBeforeMonth_december d.year
      have hjanuary : daysBeforeMonth (d.year + 1) 1 = 0 := rfl
      simp only [dayNumber, daysBeforeYear_succ, hlast, hjanuary]
      omega

theorem dayNumber_prev (d : Date) : d.prev.dayNumber = d.dayNumber - 1 := by
  obtain ⟨hmonth, hday⟩ := And.intro d.month_mem d.day_mem
  unfold prev
  split
  · simp only [dayNumber]
    omega
  · split
    · have hsucc := daysBeforeMonth_succ d.year (d.month - 1)
      have hpos : 1 ≤ daysInMonth d.year (d.month - 1) := daysInMonth_pos (by omega)
      rw [Nat.sub_add_cancel hmonth.1] at hsucc
      simp only [dayNumber]
      omega
    · -- the first day of january
      have hfirst : d.month = 1 := by omega
      have hyear := daysBeforeMonth_december (d.year - 1)
      have hsucc := daysBeforeYear_succ (d.year - 1)
      have hjanuary : daysBeforeMonth d.year 1 = 0 := rfl
      rw [Int.sub_add_cancel] at hsucc
      simp only [dayNumber, hfirst, hjanuary]
      omega

theorem dayNumber_carry (d : Date) (n : Int) : (d.carry n).dayNumber = d.dayNumber + n := by
  have hnext (n : Nat) (d : Date) : (next^[n] d).dayNumber = d.dayNumber + n := by
    induction n generalizing d with
    | zero => simp
    | succ n ih =>
        rw [Function.iterate_succ_apply, ih, dayNumber_next]
        omega
  have hprev (n : Nat) (d : Date) : (prev^[n] d).dayNumber = d.dayNumber - n := by
    induction n generalizing d with
    | zero => simp
    | succ n ih =>
        rw [Function.iterate_succ_apply, ih, dayNumber_prev]
        omega
  cases n with
  | ofNat n => exact hnext n d
  | negSucc n =>
      rw [carry, hprev]
      omega

end Date

end ConfigLang.Calendar
