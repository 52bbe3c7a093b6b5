import Mathlib
import ConfigLang.Proofs.Token.IntegerText

/-!
# Malformed numbers

A number with a misplaced separator, a leading zero, a digit beyond its base or an unknown
unit is not read, whatever is behind it (`Malformed.scanNumber_eq_error`).
-/

namespace ConfigLang.Lexeme

open Running

variable {sign read cs : List Char}

/-! ## What is no number -/

/-- What stands before the digits of a number. -/
inductive Lead : Nat → List Char → Prop where
  | plain : Lead 10 []
  | based (radix : Radix) (upper : Bool) : Lead radix.base ['0', radix.marker upper]

/-- What is wrong with a text that starts like an integer literal, whatever is behind. -/
inductive Malformed : List Char → Prop where
  /-- A separator that does not stand between two digits. -/
  | separator {base : Nat} {lead a b : List Char} (hlead : Lead base lead)
      (ha : ∀ c ∈ a, IsDigit base c ∨ c = '_')
      (h : (∀ c ∈ a.getLast?, ¬IsDigit base c) ∨ ∀ c ∈ b.head?, ¬IsDigit base c) :
      Malformed (lead ++ (a ++ '_' :: b))
  /-- A zero with digits or separators behind it. -/
  | leadingZero {c : Char} {cs : List Char} (hc : IsDigit 10 c ∨ c = '_') :
      Malformed ('0' :: c :: cs)
  /-- A digit or letter beyond the base. -/
  | beyondBase (radix : Radix) (upper : Bool) {a b : List Char} {c : Char}
      (ha : ∀ c ∈ a, IsDigit radix.base c ∨ c = '_') (hc : isNameChar c = true)
      (hbeyond : ¬(IsDigit radix.base c ∨ c = '_')) :
      Malformed ('0' :: radix.marker upper :: (a ++ c :: b))
  /-- A name behind the digits that is no unit, and neither a marker nor an exponent. -/
  | unknownUnit (n : Numeral 10) {c : Char} {suffix b : List Char} (hc : c.isAlpha = true)
      (hsuffix : ∀ d ∈ suffix, isNameChar d = true) (hb : ∀ d ∈ b.head?, isNameChar d = false)
      (hunit : ∀ u : UnitSuffix, u.text ≠ .ofList (c :: suffix))
      (hbase : ¬HasBase (n.chars ++ c :: (suffix ++ b)))
      (hexponent : ¬HasExponent (c :: (suffix ++ b))) :
      Malformed (n.chars ++ c :: (suffix ++ b))

theorem not_hasBase_of_isNumeralChar {x c : Char} (h : isNumeralChar 10 c = true) :
    ¬HasBase (x :: c :: cs) := by
  rintro ⟨c', s, base, heq, hbase⟩
  cases heq
  rw [baseOf?_of_isNumeralChar h] at hbase
  cases hbase

theorem decimalNumber_of_error {e : Flaw × List Char} (h : digits 10 read cs = .error e) :
    decimalNumber read cs = .error e := by
  rw [decimalNumber, h]
  rfl

theorem basedNumber_of_error {base : Nat} {e : Flaw × List Char}
    (h : digits base read cs = .error e) : basedNumber base read cs = .error e := by
  rw [basedNumber, h]
  rfl

theorem scanNumber_leadingZero {c : Char} (hc : isNumeralChar 10 c = true) :
    ∃ e, scanNumber sign ('0' :: c :: cs) = .error e := by
  rw [scanNumber_of_not (not_hasBase_of_isNumeralChar hc)]
  cases hrun : digits 10 sign ('0' :: c :: cs) with
  | error e => exact ⟨e, decimalNumber_of_error hrun⟩
  | ok run =>
      have hzero : 1 < run.length ∧ run.head? = some '0' := by
        rw [eq_takeWhile_of_digits hrun, List.takeWhile_cons_of_pos (by decide),
          List.takeWhile_cons_of_pos hc]
        exact ⟨Nat.succ_lt_succ (Nat.succ_pos _), rfl⟩
      rw [decimalNumber, hrun]
      simp only [ok_bind, if_pos hzero]
      exact ⟨_, rfl⟩

theorem scanNumber_separator {base : Nat} {lead a b : List Char} (hlead : Lead base lead)
    (ha : ∀ c ∈ a, IsDigit base c ∨ c = '_')
    (h : (∀ c ∈ a.getLast?, ¬IsDigit base c) ∨ ∀ c ∈ b.head?, ¬IsDigit base c)
    (hstart : startsDigit (lead ++ (a ++ '_' :: b)) = true) :
    ∃ e, scanNumber sign (lead ++ (a ++ '_' :: b)) = .error e := by
  have hbase : base ≤ 16 := by
    cases hlead with
    | plain => decide
    | based radix upper => exact radix.base_le
  have hrun : ∀ c ∈ a, isNumeralChar base c = true :=
    fun c hc => (isNumeralChar_iff hbase).mpr (ha c hc)
  have hother {c : Char} (hc : ¬IsDigit base c) : isDigitOf base c = false :=
    Bool.eq_false_iff.mpr fun hdigit => hc ((isDigitOf_iff hbase).mp hdigit)
  have hdigits (read : List Char) : ∃ e, digits base read (a ++ '_' :: b) = .error e :=
    digits_misplaced read hrun
      (h.imp (fun h c hc => hother (h c hc)) fun h c hc => hother (h c hc))
  cases hlead with
  | plain =>
      obtain ⟨e, he⟩ := hdigits sign
      have hbased : ¬HasBase (a ++ '_' :: b) := by
        rcases a with _ | ⟨x, _ | ⟨y, a⟩⟩
        · cases hstart
        · exact not_hasBase_of_isNumeralChar rfl
        · exact not_hasBase_of_isNumeralChar (hrun y (by simp))
      rw [List.nil_append, scanNumber_of_not hbased]
      exact ⟨e, decimalNumber_of_error he⟩
  | based radix upper =>
      obtain ⟨e, he⟩ := hdigits (sign ++ ['0', radix.marker upper])
      rw [List.cons_append, List.singleton_append, scanNumber_of_base (radix.baseOf?_marker upper)]
      exact ⟨e, basedNumber_of_error he⟩

theorem scanNumber_beyondBase (radix : Radix) (upper : Bool) {a b : List Char} {c : Char}
    (ha : ∀ c ∈ a, IsDigit radix.base c ∨ c = '_') (hc : isNameChar c = true)
    (hbeyond : ¬(IsDigit radix.base c ∨ c = '_')) :
    ∃ e, scanNumber sign ('0' :: radix.marker upper :: (a ++ c :: b)) = .error e := by
  rw [scanNumber_of_base (radix.baseOf?_marker upper)]
  cases hrun : digits radix.base (sign ++ ['0', radix.marker upper]) (a ++ c :: b) with
  | error e => exact ⟨e, basedNumber_of_error hrun⟩
  | ok run =>
      have hstop : isNumeralChar radix.base c ≠ true :=
        fun h => hbeyond ((isNumeralChar_iff radix.base_le).mp h)
      have ha : run = a := by
        rw [eq_takeWhile_of_digits hrun, List.takeWhile_append_of_pos fun c hc =>
          (isNumeralChar_iff radix.base_le).mpr (ha c hc), List.takeWhile_cons_of_neg hstop,
          List.append_nil]
      rw [basedNumber, hrun, ha]
      simp only [ok_bind, List.drop_left, if_pos hc]
      exact ⟨_, rfl⟩

theorem scanNumber_unknownUnit (n : Numeral 10) {c : Char} {suffix b : List Char}
    (hc : c.isAlpha = true) (hsuffix : ∀ d ∈ suffix, isNameChar d = true)
    (hb : ∀ d ∈ b.head?, isNameChar d = false)
    (hunit : ∀ u : UnitSuffix, u.text ≠ .ofList (c :: suffix))
    (hbase : ¬HasBase (n.chars ++ c :: (suffix ++ b)))
    (hexponent : ¬HasExponent (c :: (suffix ++ b))) :
    ∃ e, scanNumber sign (n.chars ++ c :: (suffix ++ b)) = .error e := by
  by_cases hzero : n.first.value = 0 → n.more = []
  · have hname : startsName (c :: (suffix ++ b)) = true := by
      rw [startsName, isNameStart, hc, Bool.true_or]
    have hrun : (c :: suffix ++ b).takeWhile isNameChar = c :: suffix :=
      takeWhile_append_of_head
        (List.forall_mem_cons.mpr ⟨isNameChar_of_isNameStart hname, hsuffix⟩) hb
    rw [List.cons_append] at hrun
    have hnone : UnitSuffix.ofText? (.ofList (c :: suffix)) = none :=
      List.find?_eq_none.mpr fun u _ => by simpa using hunit u
    have hnumeral : isNumeralChar 10 c = false := by
      refine Bool.eq_false_iff.mpr fun h => ?_
      rcases (isNumeralChar_iff (by decide)).mp h with ⟨d, rfl⟩ | rfl
      · rw [isAlpha_of_isDigit (d.isDigit_char (by decide))] at hc
        cases hc
      · cases hc
    have hpoint : c ≠ '.' := by
      rintro rfl
      cases hc
    rw [scanNumber_of_not hbase, decimalNumber_numeral hzero (by rintro _ ⟨⟩; exact hnumeral)
      (not_hasFraction_of_head (by rintro _ ⟨⟩; exact hpoint)) hexponent, if_pos hname, hrun, hnone]
    exact ⟨_, rfl⟩
  · -- digits follow a zero, and what is behind them does not matter
    obtain ⟨⟨value, upper⟩, more⟩ := n
    rw [Classical.not_imp] at hzero
    obtain ⟨rfl, hmore⟩ := hzero
    cases more with
    | nil => exact absurd rfl hmore
    | cons d more =>
        obtain ⟨separated, d⟩ := d
        rw [Numeral.chars_cons]
        cases separated with
        | false =>
            exact scanNumber_leadingZero
              (Numeral.isNumeralChar_of_mem (by decide) ⟨d, more⟩ List.mem_cons_self)
        | true => exact scanNumber_leadingZero rfl

/-- No number is read of a malformed one. -/
theorem Malformed.scanNumber_eq_error (h : Malformed cs) (hstart : startsDigit cs = true)
    (sign : List Char) : ∃ e, scanNumber sign cs = .error e := by
  cases h with
  | separator hlead ha h => exact scanNumber_separator hlead ha h hstart
  | leadingZero hc => exact scanNumber_leadingZero ((isNumeralChar_iff (by decide)).mpr hc)
  | beyondBase radix upper ha hc hbeyond => exact scanNumber_beyondBase radix upper ha hc hbeyond
  | unknownUnit n hc hsuffix hb hunit hbase hexponent =>
      exact scanNumber_unknownUnit n hc hsuffix hb hunit hbase hexponent

end ConfigLang.Lexeme
