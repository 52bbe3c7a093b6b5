import Mathlib
import ConfigLang.Proofs.Token.Sign

/-!
# Numerals

A `Numeral` is a row of digits of a base, between any two of which a separator may stand.
Its characters are read as a whole (`digits_numeral`), and a separator that stands
elsewhere is not read at all (`digits_misplaced`).  The text stands for the value of the
digits at their places (`foldl_chars`).

## Strategy

* **Digits.**  A digit is a number below its base with, from ten on, the size of its letter.
  `digitValue_char` reads it back, and the classes of characters that the scanners use are
  told by `isDigitOf_char` and `isNumeralChar_iff`.
* **Rows.**  Each digit but the first says whether a separator stands before it, so there
  are no two separators in a row and none at an end (`hasDoubleSeparator_chars`).  The row
  is taken as far as it goes (`takeWhile_chars`), since what stands behind it goes on with
  no such character.
* **Values.**  Without its separators the row is its digits (`dropSeparators_chars`).
-/

namespace ConfigLang.Lexeme

/-! ## Digits -/

/-- How the digits up to fifteen are written. -/
def digitChar (value : Nat) (upper : Bool) : Char :=
  .ofNat (if value < 10 then 48 + value else if upper then 55 + value else 87 + value)

/-- A digit of a base. A digit from ten on is a letter, large or small. -/
structure Digit (base : Nat) where
  value : Fin base
  upper : Bool := false

namespace Digit

variable {base : Nat}

def char (d : Digit base) : Char :=
  digitChar d.value d.upper

theorem toNat_digitChar : ∀ value < 16, ∀ upper,
    (digitChar value upper).toNat =
      if value < 10 then 48 + value else if upper then 55 + value else 87 + value := by
  decide +kernel

theorem digitValue_digitChar : ∀ value < 16, ∀ upper,
    Literal.digitValue (digitChar value upper) = value := by
  decide +kernel

theorem isDigitOf_char (hbase : base ≤ 16) (d : Digit base) : isDigitOf base d.char = true := by
  have hlt := d.value.isLt
  have htoNat := toNat_digitChar d.value (by omega) d.upper
  simp only [isDigitOf, Bool.or_eq_true, Bool.and_eq_true, decide_eq_true_eq]
  rw [char, htoNat]
  split
  · omega
  · split <;> omega

theorem digitValue_char (hbase : base ≤ 16) (d : Digit base) :
    Literal.digitValue d.char = d.value :=
  digitValue_digitChar d.value (d.value.isLt.trans_le hbase) d.upper

theorem isDigit_char (hbase : base ≤ 10) (d : Digit base) : d.char.isDigit = true := by
  have hten : ∀ value < 10, ∀ upper, (digitChar value upper).isDigit = true := by
    decide +kernel
  exact hten d.value (d.value.isLt.trans_le hbase) d.upper

theorem char_ne_separator (hbase : base ≤ 16) (d : Digit base) : d.char ≠ '_' := by
  have hne : ∀ value < 16, ∀ upper, digitChar value upper ≠ '_' := by
    decide +kernel
  exact hne d.value (d.value.isLt.trans_le hbase) d.upper

end Digit

/-- A character is a digit of a base. -/
def IsDigit (base : Nat) (c : Char) : Prop :=
  ∃ d : Digit base, d.char = c

theorem isDigitOf_iff {base : Nat} (hbase : base ≤ 16) {c : Char} :
    isDigitOf base c = true ↔ IsDigit base c := by
  constructor
  · intro h
    simp only [isDigitOf, Bool.or_eq_true, Bool.and_eq_true, decide_eq_true_eq] at h
    have hchar (value : Nat) (hvalue : value < base) (upper : Bool)
        (h : c.toNat =
          if value < 10 then 48 + value else if upper then 55 + value else 87 + value) :
        IsDigit base c := by
      refine ⟨⟨⟨value, hvalue⟩, upper⟩, ?_⟩
      rw [Digit.char, digitChar, ← h, Char.ofNat_toNat]
    rcases h with (⟨hlow, hhigh⟩ | ⟨hlow, hhigh⟩) | ⟨hlow, hhigh⟩
    · exact hchar (c.toNat - 48) (by omega) false (by rw [if_pos (by omega)]; omega)
    · by_cases hten : 10 ≤ c.toNat - 87
      · exact hchar (c.toNat - 87) (by omega) false (by
          rw [if_neg (by omega), if_neg (by decide)]
          omega)
      · omega
    · by_cases hten : 10 ≤ c.toNat - 55
      · exact hchar (c.toNat - 55) (by omega) true (by
          rw [if_neg (by omega), if_pos rfl]
          omega)
      · omega
  · rintro ⟨d, rfl⟩
    exact d.isDigitOf_char hbase

theorem isNumeralChar_iff {base : Nat} (hbase : base ≤ 16) {c : Char} :
    isNumeralChar base c = true ↔ IsDigit base c ∨ c = '_' := by
  rw [isNumeralChar, Bool.or_eq_true_iff, isDigitOf_iff hbase, beq_iff_eq]

theorem isNumeralChar_of_le {base : Nat} (hbase : base ≤ 10) {c : Char}
    (h : isNumeralChar base c = true) : isNumeralChar 10 c = true := by
  simp only [isNumeralChar, isDigitOf, Bool.or_eq_true, Bool.and_eq_true, decide_eq_true_eq] at h ⊢
  exact h.imp_left fun h => by omega

theorem isNameChar_of_isNumeralChar {base : Nat} (hbase : base ≤ 16) {c : Char}
    (h : isNumeralChar base c = true) : isNameChar c = true := by
  rcases Bool.or_eq_true_iff.mp h with h | h
  · simp only [isDigitOf, Bool.or_eq_true, Bool.and_eq_true, decide_eq_true_eq] at h
    simp only [isNameChar, Char.isAlphanum, Char.isAlpha, Char.isUpper, Char.isLower, Char.isDigit,
      Bool.or_eq_true, Bool.and_eq_true, decide_eq_true_eq, ge_iff_le, UInt32.le_iff_toNat_le]
    change (((65 ≤ c.toNat ∧ c.toNat ≤ 90) ∨ (97 ≤ c.toNat ∧ c.toNat ≤ 122)) ∨
      (48 ≤ c.toNat ∧ c.toNat ≤ 57)) ∨ _
    omega
  · rw [beq_iff_eq.mp h]
    rfl

/-! ## Rows of digits -/

theorem takeWhile_append_of_head {p : Char → Bool} {xs tail : List Char}
    (hxs : ∀ c ∈ xs, p c = true) (htail : ∀ c ∈ tail.head?, p c = false) :
    (xs ++ tail).takeWhile p = xs := by
  rw [List.takeWhile_append_of_pos hxs]
  cases tail with
  | nil => exact List.append_nil _
  | cons c cs =>
      rw [List.takeWhile_cons_of_neg (Bool.eq_false_iff.mp (htail c rfl)), List.append_nil]

/-- A row of digits. Each but the first says whether a separator stands before it. -/
structure Numeral (base : Nat) where
  first : Digit base
  more : List (Bool × Digit base) := []

namespace Numeral

variable {base : Nat}

def chars (n : Numeral base) : List Char :=
  n.first.char :: n.more.flatMap fun d => if d.1 then ['_', d.2.char] else [d.2.char]

/-- The digits, the highest first. -/
def digits (n : Numeral base) : List (Digit base) :=
  n.first :: n.more.map (·.2)

/-- The number that the digits stand for at their places. -/
def value (n : Numeral base) : Nat :=
  Nat.ofDigits base (n.digits.reverse.map fun d => (d.value : Nat))

theorem chars_cons (d : Digit base) (separated : Bool) (e : Digit base)
    (more : List (Bool × Digit base)) :
    chars ⟨d, (separated, e) :: more⟩ =
      d.char :: (if separated then '_' :: chars ⟨e, more⟩ else chars ⟨e, more⟩) := by
  cases separated <;> rfl

theorem isNumeralChar_of_mem (hbase : base ≤ 16) (n : Numeral base) {c : Char} (h : c ∈ n.chars) :
    isNumeralChar base c = true := by
  have hdigit (d : Digit base) : isNumeralChar base d.char = true := by
    rw [isNumeralChar, d.isDigitOf_char hbase, Bool.true_or]
  obtain ⟨first, more⟩ := n
  rcases List.mem_cons.mp h with rfl | h
  · exact hdigit first
  · obtain ⟨⟨separated, d⟩, -, hc⟩ := List.mem_flatMap.mp h
    cases separated with
    | false => exact List.mem_singleton.mp hc ▸ hdigit d
    | true =>
        rcases List.mem_cons.mp hc with rfl | hc
        · rw [isNumeralChar, beq_self_eq_true, Bool.or_true]
        · exact List.mem_singleton.mp hc ▸ hdigit d

theorem exists_getLast?_chars (n : Numeral base) :
    ∃ d : Digit base, n.chars.getLast? = some d.char := by
  obtain ⟨first, more⟩ := n
  induction more generalizing first with
  | nil => exact ⟨first, rfl⟩
  | cons d more ih =>
      obtain ⟨separated, e⟩ := d
      obtain ⟨d, hd⟩ := ih e
      refine ⟨d, ?_⟩
      rw [chars_cons]
      cases separated with
      | false => rw [if_neg (by decide), List.getLast?_cons, hd]; rfl
      | true => rw [if_pos rfl, List.getLast?_cons, List.getLast?_cons, hd]; rfl

theorem hasDoubleSeparator_cons {c : Char} (hc : c ≠ '_') (cs : List Char) :
    hasDoubleSeparator (c :: cs) = hasDoubleSeparator cs := by
  rw [hasDoubleSeparator]
  rintro cs' rfl
  exact absurd rfl hc

theorem hasDoubleSeparator_separator {c : Char} (hc : c ≠ '_') (cs : List Char) :
    hasDoubleSeparator ('_' :: c :: cs) = hasDoubleSeparator (c :: cs) := by
  rw [hasDoubleSeparator]
  rintro cs' - heq
  cases heq
  exact hc rfl

theorem hasDoubleSeparator_chars (hbase : base ≤ 16) (n : Numeral base) :
    hasDoubleSeparator n.chars = false := by
  obtain ⟨first, more⟩ := n
  induction more generalizing first with
  | nil =>
      rw [chars, List.flatMap_nil, hasDoubleSeparator_cons (first.char_ne_separator hbase)]
      rfl
  | cons d more ih =>
      obtain ⟨separated, e⟩ := d
      rw [chars_cons, hasDoubleSeparator_cons (first.char_ne_separator hbase)]
      cases separated with
      | false => exact ih e
      | true =>
          rw [if_pos rfl, chars, hasDoubleSeparator_separator (e.char_ne_separator hbase)]
          exact ih e

theorem takeWhile_chars (hbase : base ≤ 16) (n : Numeral base) {tail : List Char}
    (htail : ∀ c ∈ tail.head?, isNumeralChar base c = false) :
    (n.chars ++ tail).takeWhile (isNumeralChar base) = n.chars :=
  takeWhile_append_of_head (fun _ => n.isNumeralChar_of_mem hbase) htail

end Numeral

/-- A row of digits is read as a whole. -/
theorem digits_numeral {base : Nat} (hbase : base ≤ 16) (read : List Char) (n : Numeral base)
    {tail : List Char} (htail : ∀ c ∈ tail.head?, isNumeralChar base c = false) :
    digits base read (n.chars ++ tail) = .ok n.chars := by
  obtain ⟨d, hlast⟩ := n.exists_getLast?_chars
  have hhead : n.chars.head? ≠ some '_' := fun h =>
    n.first.char_ne_separator hbase (Option.some.inj h)
  have hlast : n.chars.getLast? ≠ some '_' := fun h =>
    d.char_ne_separator hbase (Option.some.inj (hlast.symm.trans h))
  refine digits_eq_ok_iff.mpr ⟨(n.takeWhile_chars hbase htail).symm, List.cons_ne_nil _ _, ?_⟩
  rw [n.hasDoubleSeparator_chars hbase]
  exact not_or.mpr ⟨hhead, not_or.mpr ⟨hlast, Bool.false_ne_true⟩⟩

theorem hasDoubleSeparator_append (xs ys : List Char) :
    hasDoubleSeparator (xs ++ '_' :: '_' :: ys) = true := by
  induction xs with
  | nil => rfl
  | cons x xs ih =>
      rw [List.cons_append]
      unfold hasDoubleSeparator
      split
      · rfl
      · rename_i heq
        cases heq
        exact ih
      · rename_i heq
        cases heq

/-- A separator without a digit on both of its sides is not read. -/
theorem digits_misplaced {base : Nat} (read : List Char) {a b : List Char}
    (ha : ∀ c ∈ a, isNumeralChar base c = true)
    (h : (∀ c ∈ a.getLast?, isDigitOf base c = false) ∨ ∀ c ∈ b.head?, isDigitOf base c = false) :
    ∃ e, digits base read (a ++ '_' :: b) = .error e := by
  have hseparator : isNumeralChar base '_' = true := by
    rw [isNumeralChar, beq_self_eq_true, Bool.or_true]
  have hunder {c : Char} (hc : isNumeralChar base c = true) (hdigit : isDigitOf base c = false) :
      c = '_' := by
    rw [isNumeralChar, hdigit, Bool.false_or] at hc
    exact beq_iff_eq.mp hc
  have hrun : (a ++ '_' :: b).takeWhile (isNumeralChar base) =
      a ++ '_' :: b.takeWhile (isNumeralChar base) := by
    rw [List.takeWhile_append_of_pos ha, List.takeWhile_cons_of_pos hseparator]
  rw [digits_eq, hrun, if_neg (by simp), if_pos]
  · exact ⟨_, rfl⟩
  · rcases h with h | h
    · cases a using List.reverseRecOn with
      | nil => exact .inl rfl
      | append_singleton a c =>
          have hc : c = '_' := hunder (ha c (by simp)) (h c (by simp))
          rw [hc, List.append_assoc]
          exact .inr (.inr (hasDoubleSeparator_append _ _))
    · cases hb : b.takeWhile (isNumeralChar base) with
      | nil => exact .inr (.inl (by simp))
      | cons c cs =>
          have hhead : b.head? = some c := by
            cases b with
            | nil => cases hb
            | cons c' b =>
                rw [List.takeWhile_cons] at hb
                split at hb <;> cases hb
                rfl
          have hmem : c ∈ b.takeWhile (isNumeralChar base) := hb ▸ List.mem_cons_self
          have hc : c = '_' := hunder (List.mem_takeWhile_imp hmem) (h c hhead)
          rw [hc]
          exact .inr (.inr (hasDoubleSeparator_append _ _))

/-! ## Values -/

namespace Numeral

variable {base : Nat}

theorem dropSeparators_chars (hbase : base ≤ 16) (n : Numeral base) :
    Literal.dropSeparators n.chars = n.digits.map Digit.char := by
  have hkeep (d : Digit base) (cs : List Char) :
      Literal.dropSeparators (d.char :: cs) = d.char :: Literal.dropSeparators cs :=
    List.filter_cons_of_pos (bne_iff_ne.mpr (d.char_ne_separator hbase))
  obtain ⟨first, more⟩ := n
  induction more generalizing first with
  | nil => exact hkeep first []
  | cons d more ih =>
      obtain ⟨separated, e⟩ := d
      have hdigits : digits ⟨first, (separated, e) :: more⟩ = first :: digits ⟨e, more⟩ := rfl
      rw [chars_cons, hkeep, hdigits, List.map_cons, ← ih e]
      cases separated with
      | false => rfl
      | true => rfl

/-- The digits one after the other make up the value. -/
theorem foldl_chars (hbase : base ≤ 16) (n : Numeral base) :
    (Literal.dropSeparators n.chars).foldl (fun (k : Int) c => k * base + Literal.digitValue c) 0 =
      n.value := by
  let place (ds : List (Digit base)) : Nat :=
    Nat.ofDigits base (ds.reverse.map fun d => (d.value : Nat))
  have hfold (ds : List (Digit base)) :
      (ds.map Digit.char).foldl (fun (k : Int) c => k * base + Literal.digitValue c) 0 =
        place ds := by
    induction ds using List.reverseRecOn with
    | nil => rfl
    | append_singleton ds d ih =>
        have hplace : place (ds ++ [d]) = d.value + base * place ds := by
          simp only [place, List.reverse_append, List.reverse_singleton, List.singleton_append,
            List.map_cons, Nat.ofDigits_cons]
        calc ((ds ++ [d]).map Digit.char).foldl
              (fun (k : Int) c => k * base + Literal.digitValue c) 0
            = place ds * base + Literal.digitValue d.char := by
              rw [List.map_append, List.foldl_append, ih]
              rfl
          _ = place (ds ++ [d]) := by
              rw [hplace, d.digitValue_char hbase]
              push_cast
              ring
  rw [n.dropSeparators_chars hbase]
  exact hfold n.digits

end Numeral

end ConfigLang.Lexeme
