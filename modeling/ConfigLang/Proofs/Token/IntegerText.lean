import Mathlib
import ConfigLang.Proofs.Token.Calendar
import ConfigLang.Proofs.Token.Numeral

/-!
# The grammar of integer literals

`IntegerText` is the grammar of integer literals: a sign, and either digits of a base with
a marker, or decimal digits with a unit.  In front of the end of a line the lexer reads
such a literal as a whole (`scanNumber_magnitude`), and does not take it for a calendar
literal (`moment?_of_word`).

## Strategy

* **Bases.**  Digits of a base are read behind their marker (`basedNumber_numeral`), and
  decimal digits have no marker among them (`not_hasBase_numeral`).
* **Units.**  A unit starts with one of few letters (`unitStarts`), which go on neither with
  the digits nor with a fraction or an exponent (`not_of_mem_unitStarts`).  So the digits end
  where the unit starts, and `decimalNumber_numeral` reads both.
* **Zeros.**  A decimal number with a zero in front of other digits is malformed; the grammar
  has none, hence a row of digits starts with a zero only if it is one (`not_leadingZero`).
* **No calendar literal.**  All patterns of these look for a hyphen or a colon behind the
  first digits (`moment?_eq_none`), and an integer literal is a word without either.
-/

namespace ConfigLang.Lexeme

open Running

/-! ## The grammar -/

/-- The bases that have a marker. -/
inductive Radix where
  | hexadecimal
  | octal
  | binary

namespace Radix

def base : Radix → Nat
  | hexadecimal => 16
  | octal => 8
  | binary => 2

/-- The marker of a base, a large or a small letter. -/
def marker : Radix → Bool → Char
  | hexadecimal, upper => if upper then 'X' else 'x'
  | octal, upper => if upper then 'O' else 'o'
  | binary, upper => if upper then 'B' else 'b'

theorem base_le (r : Radix) : r.base ≤ 16 := by
  cases r <;> decide

theorem baseOf?_marker (r : Radix) (upper : Bool) : baseOf? (r.marker upper) = some r.base := by
  cases r <;> cases upper <;> rfl

end Radix

/-- An integer literal without its sign: digits of a base with a marker, or decimal digits, of which
none follows a zero at the front, with a unit. -/
inductive Magnitude where
  | based (radix : Radix) (upper : Bool) (digits : Numeral radix.base)
  | decimal (digits : Numeral 10) (unit : Option UnitSuffix)
      (no_leading_zero : digits.first.value = 0 → digits.more = [])

/-- How a unit is written, if there is one. -/
def unitChars (unit : Option UnitSuffix) : List Char :=
  unit.elim [] fun u => u.text.toList

namespace Magnitude

/-- The literal without its unit. -/
def number : Magnitude → List Char
  | based radix upper digits => '0' :: radix.marker upper :: digits.chars
  | decimal digits _ _ => digits.chars

def unit : Magnitude → Option UnitSuffix
  | based .. => none
  | decimal _ unit _ => unit

def chars (m : Magnitude) : List Char :=
  m.number ++ unitChars m.unit

def value : Magnitude → Nat
  | based _ _ digits => digits.value
  | decimal digits _ _ => digits.value

end Magnitude

/-- An integer literal. -/
structure IntegerText where
  negative : Bool
  magnitude : Magnitude

/-- The sign of a number. -/
def signChars (negative : Bool) : List Char :=
  if negative then ['-'] else []

namespace IntegerText

def chars (t : IntegerText) : List Char :=
  signChars t.negative ++ t.magnitude.chars

def value (t : IntegerText) : Int :=
  if t.negative then -t.magnitude.value else t.magnitude.value

def unit (t : IntegerText) : Option UnitSuffix :=
  t.magnitude.unit

end IntegerText

variable {sign read tail cs : List Char}

/-! ## Reading a literal -/

theorem not_isNumeralChar {base : Nat} (hbase : base ≤ 16)
    (h : ∀ c ∈ tail.head?, isNameChar c = false) :
    ∀ c ∈ tail.head?, isNumeralChar base c = false := by
  intro c hc
  by_contra hnumeral
  have hname := isNameChar_of_isNumeralChar hbase (Bool.not_eq_false _ ▸ hnumeral)
  rw [h c hc] at hname
  cases hname

theorem EndsLine.not_isNameChar (h : EndsLine tail) : ∀ c ∈ tail.head?, isNameChar c = false := by
  intro c hc
  rw [h c hc]
  rfl

theorem basedNumber_numeral (r : Radix) (n : Numeral r.base)
    (htail : ∀ c ∈ tail.head?, isNameChar c = false) :
    basedNumber r.base read (n.chars ++ tail) = .ok (.integer, read ++ n.chars) := by
  have hdigits := digits_numeral r.base_le read n (not_isNumeralChar r.base_le htail)
  refine basedNumber_eq_ok_iff.mpr ⟨n.chars, hdigits, ?_, rfl, rfl⟩
  rwa [List.drop_left]

/-- The characters that a unit starts with, and the one that ends a line. -/
def unitStarts : List Char :=
  ['\n', 'K', 'M', 'G', 'T', 's', 'm', 'h', 'd', 'w']

theorem head?_unitChars (unit : Option UnitSuffix) (hend : EndsLine tail) :
    ∀ c ∈ (unitChars unit ++ tail).head?, c ∈ unitStarts := by
  intro c hc
  cases unit with
  | none => exact hend c hc ▸ List.mem_cons_self
  | some u => cases u <;> cases hc <;> decide

/-- A unit goes on neither with the digits before it nor with a marker, fraction or exponent. -/
theorem not_of_mem_unitStarts {c : Char} (h : c ∈ unitStarts) :
    isNumeralChar 10 c = false ∧ baseOf? c = none ∧ c ≠ '.' ∧ c ≠ 'e' ∧ c ≠ 'E' := by
  simp only [unitStarts, List.mem_cons, List.not_mem_nil, or_false] at h
  rcases h with rfl | rfl | rfl | rfl | rfl | rfl | rfl | rfl | rfl | rfl <;> decide

theorem not_hasFraction_of_head (h : ∀ c ∈ cs.head?, c ≠ '.') : ¬HasFraction cs := by
  rintro ⟨c, s, rfl, -⟩
  exact h '.' rfl rfl

theorem not_hasExponent_of_head (h : ∀ c ∈ cs.head?, c ≠ 'e' ∧ c ≠ 'E') : ¬HasExponent cs := by
  rintro ⟨lead, c, s, ⟨marker, sign, rfl, hmarker, -⟩, rfl, -⟩
  have hne := h marker rfl
  exact hmarker.elim hne.1 hne.2

theorem isNameChar_of_mem_unitChars {unit : Option UnitSuffix} :
    ∀ c ∈ unitChars unit, isNameChar c = true := by
  cases unit with
  | none => nofun
  | some u =>
      have hall : u.text.toList.all isNameChar = true := by
        cases u <;> decide
      exact List.all_eq_true.mp hall

theorem ofText?_text (u : UnitSuffix) : UnitSuffix.ofText? (.ofList u.text.toList) = some u := by
  cases u <;> decide

/-- A row of digits starts with a zero only if it is one. -/
theorem not_leadingZero {n : Numeral 10} (hzero : n.first.value = 0 → n.more = []) :
    ¬(1 < n.chars.length ∧ n.chars.head? = some '0') := by
  rintro ⟨hlength, hhead⟩
  have hvalue := n.first.digitValue_char (by decide)
  rw [Option.some.inj hhead] at hvalue
  have hmore := hzero (Fin.ext hvalue.symm)
  rw [Numeral.chars, hmore, List.flatMap_nil, List.length_singleton] at hlength
  exact lt_irrefl 1 hlength

/-- What is read of a decimal number that has neither a fraction nor an exponent. -/
theorem decimalNumber_numeral {n : Numeral 10} (hzero : n.first.value = 0 → n.more = [])
    (hcs : ∀ c ∈ cs.head?, isNumeralChar 10 c = false) (hfraction : ¬HasFraction cs)
    (hexponent : ¬HasExponent cs) :
    decimalNumber read (n.chars ++ cs) =
      if startsName cs then
        if (UnitSuffix.ofText? (String.ofList (cs.takeWhile isNameChar))).isNone then
          .error (.unknownUnit (String.ofList (cs.takeWhile isNameChar))
            (String.ofList (read ++ n.chars)), read ++ n.chars ++ cs.takeWhile isNameChar)
        else .ok (.integer, read ++ n.chars ++ cs.takeWhile isNameChar)
      else .ok (.integer, read ++ n.chars) := by
  rw [decimalNumber, digits_numeral (by decide) _ n hcs]
  simp only [ok_bind, if_neg (not_leadingZero hzero), List.drop_left, fraction_of_not hfraction,
    exponent_of_not hexponent]
  split
  · split <;> rfl
  · rfl

theorem mem_or_mem_of_head? {xs : List Char} {c : Char} (h : c ∈ (xs ++ cs).head?) :
    c ∈ xs ∨ c ∈ cs.head? := by
  cases xs with
  | nil => exact .inr h
  | cons x xs => exact .inl (Option.some.inj h ▸ List.mem_cons_self)

theorem baseOf?_of_isNumeralChar {c : Char} (h : isNumeralChar 10 c = true) : baseOf? c = none := by
  unfold baseOf?
  split
  all_goals first
    | exact absurd h (by decide)
    | rfl

theorem not_hasBase_numeral (n : Numeral 10) (hcs : ∀ c ∈ cs.head?, baseOf? c = none) :
    ¬HasBase (n.chars ++ cs) := by
  rintro ⟨c, s, base, heq, hbase⟩
  rw [Numeral.chars, List.cons_append, List.singleton_append, List.cons.injEq] at heq
  have hnone : baseOf? c = none := by
    rcases mem_or_mem_of_head? (c := c) (by rw [heq.2]; rfl) with hc | hc
    · exact baseOf?_of_isNumeralChar
        (n.isNumeralChar_of_mem (by decide) (List.mem_cons_of_mem _ hc))
    · exact hcs c hc
  rw [hnone] at hbase
  cases hbase

theorem scanNumber_magnitude (m : Magnitude) (hend : EndsLine tail) :
    scanNumber sign (m.chars ++ tail) = .ok (.integer, sign ++ m.chars) := by
  cases m with
  | based r upper n =>
      have hchars : Magnitude.chars (.based r upper n) ++ tail =
          '0' :: r.marker upper :: (n.chars ++ tail) := by
        simp only [Magnitude.chars, Magnitude.number, Magnitude.unit, unitChars, Option.elim_none,
          List.append_nil, List.cons_append]
      rw [hchars, scanNumber_of_base (r.baseOf?_marker upper),
        basedNumber_numeral r n hend.not_isNameChar]
      simp only [Magnitude.chars, Magnitude.number, Magnitude.unit, unitChars, Option.elim_none,
        List.append_nil, List.append_assoc, List.cons_append, List.nil_append]
  | decimal n unit hzero =>
      have hchars : Magnitude.chars (.decimal n unit hzero) = n.chars ++ unitChars unit := rfl
      have hhead := fun c hc => not_of_mem_unitStarts (head?_unitChars unit hend c hc)
      have hscan : scanNumber sign (n.chars ++ (unitChars unit ++ tail)) =
          decimalNumber sign (n.chars ++ (unitChars unit ++ tail)) :=
        scanNumber_of_not (not_hasBase_numeral n fun c hc => (hhead c hc).2.1)
      rw [hchars, List.append_assoc, hscan, decimalNumber_numeral hzero
        (fun c hc => (hhead c hc).1) (not_hasFraction_of_head fun c hc => (hhead c hc).2.2.1)
        (not_hasExponent_of_head fun c hc => (hhead c hc).2.2.2)]
      cases unit with
      | none =>
          have hname : startsName tail = false := by
            cases tail with
            | nil => rfl
            | cons c cs => exact (hend c rfl) ▸ rfl
          rw [unitChars, Option.elim_none, List.nil_append, hname, List.append_nil]
          rfl
      | some u =>
          have hname : startsName (unitChars (some u) ++ tail) = true := by
            cases u <;> rfl
          have hrun : (unitChars (some u) ++ tail).takeWhile isNameChar = u.text.toList :=
            takeWhile_append_of_head isNameChar_of_mem_unitChars hend.not_isNameChar
          rw [hrun, ofText?_text, hname, List.append_assoc]
          rfl

/-! ## No calendar literal -/

theorem dropWhile_behindDigits? {n : Nat} {r : List Char} (h : behindDigits? n cs = some r) :
    r.dropWhile Char.isDigit = cs.dropWhile Char.isDigit := by
  induction n generalizing cs with
  | zero => rw [Option.some.inj h]
  | succ n ih =>
      cases cs with
      | nil => cases h
      | cons c cs =>
          rw [behindDigits?] at h
          split at h
          · rename_i hc
            rw [ih h, List.dropWhile_cons_of_pos hc]
          · cases h

/-- A pattern does not go on behind some digits, if what it looks for does not stand there. -/
theorem bind_behindGroup?_eq_none {m n : Nat} {mark : Char} (hmark : mark.isDigit = false)
    (h : ∀ c ∈ (cs.dropWhile Char.isDigit).head?, c ≠ mark) :
    (behindDigits? m cs).bind (behindGroup? (· == mark) n) = none := by
  cases hr : behindDigits? m cs with
  | none => rfl
  | some r =>
      rw [Option.bind_some, behindGroup?]
      rw [← dropWhile_behindDigits? hr] at h
      cases r with
      | nil => rfl
      | cons c r =>
          have hc : c ≠ mark := by
            rintro rfl
            exact h c (by rw [List.dropWhile_cons_of_neg (by rw [hmark]; decide)]; rfl) rfl
          rw [behind?, if_neg (by simpa using hc)]
          rfl

theorem head?_dropWhile_take {p : Char → Bool} (n : Nat) {c : Char}
    (h : c ∈ ((cs.take n).dropWhile p).head?) : c ∈ (cs.dropWhile p).head? := by
  induction cs generalizing n with
  | nil => rwa [List.take_nil] at h
  | cons x cs ih =>
      cases n with
      | zero => cases h
      | succ n =>
          rw [List.take_succ_cons, List.dropWhile_cons] at h
          rw [List.dropWhile_cons]
          split at h
          · rename_i hx
            rw [if_pos hx]
            exact ih n h
          · rename_i hx
            rw [if_neg hx]
            exact h

/-- A calendar literal has a hyphen or a colon behind its first digits. -/
theorem moment?_eq_none (h : ∀ c ∈ (cs.dropWhile Char.isDigit).head?, c ≠ '-' ∧ c ≠ ':') :
    moment? cs = none := by
  have hwindow : ∀ c ∈ ((cs.take momentWindow).dropWhile Char.isDigit).head?, c ≠ '-' ∧ c ≠ ':' :=
    fun c hc => h c (head?_dropWhile_take momentWindow hc)
  have hdate : behindDate? (cs.take momentWindow) = none := by
    rw [behindDate?_eq, bind_behindGroup?_eq_none (by decide) fun c hc => (hwindow c hc).1]
    rfl
  have htime : behindTime? (cs.take momentWindow) = none := by
    rw [behindTime?, behindMinutes?_eq,
      bind_behindGroup?_eq_none (by decide) fun c hc => (hwindow c hc).2]
    rfl
  rw [moment?_eq, behindDateTime?_eq, hdate, htime]
  rfl

/-- A word in front of the end of a line is no calendar literal. -/
theorem moment?_of_word {w : List Char} (hw : ∀ c ∈ w, isNameChar c = true) (hend : EndsLine tail) :
    moment? (w ++ tail) = none := by
  refine moment?_eq_none fun c hc => ?_
  have hc : isNameChar c = true ∨ c = '\n' := by
    induction w with
    | nil =>
        cases tail with
        | nil => cases hc
        | cons d ds =>
            obtain rfl : d = '\n' := hend d rfl
            exact .inr (Option.some.inj hc).symm
    | cons x w ih =>
        rw [List.cons_append, List.dropWhile_cons] at hc
        split at hc
        · exact ih (fun c hc => hw c (List.mem_cons_of_mem x hc)) hc
        · exact .inl (Option.some.inj hc ▸ hw x List.mem_cons_self)
  rcases hc with hc | rfl
  · constructor <;> rintro rfl <;> cases hc
  · decide

namespace Magnitude

theorem isNameChar_of_mem (m : Magnitude) : ∀ c ∈ m.chars, isNameChar c = true := by
  have hnumeral {base : Nat} (hbase : base ≤ 16) (n : Numeral base) :
      ∀ c ∈ n.chars, isNameChar c = true :=
    fun c hc => isNameChar_of_isNumeralChar hbase (n.isNumeralChar_of_mem hbase hc)
  intro c hc
  rw [chars, List.mem_append] at hc
  cases m with
  | based r upper n =>
      rcases hc with hc | hc
      · rw [number, List.mem_cons, List.mem_cons] at hc
        rcases hc with rfl | rfl | hc
        · rfl
        · cases r <;> cases upper <;> rfl
        · exact hnumeral r.base_le n c hc
      · cases hc
  | decimal n unit hzero =>
      rcases hc with hc | hc
      · exact hnumeral (by decide) n c hc
      · exact isNameChar_of_mem_unitChars c hc

/-- A number starts with a digit. -/
theorem exists_number_eq (m : Magnitude) : ∃ c cs, m.number = c :: cs ∧ c.isDigit = true := by
  cases m with
  | based r upper n => exact ⟨'0', _, rfl, rfl⟩
  | decimal n unit hzero => exact ⟨n.first.char, _, rfl, n.first.isDigit_char (by decide)⟩

end Magnitude

end ConfigLang.Lexeme
