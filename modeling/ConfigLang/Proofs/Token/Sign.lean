import Mathlib
import ConfigLang.Literal
import ConfigLang.Proofs.Token.Numbers
import ConfigLang.Value.Arithmetic

/-!
# The sign of a number

A number is read the same behind a hyphen that belongs to it as without one: what is read
before a part goes in front of what the part gives, and is not looked at.  The literal
with the hyphen stands for the negated value, with the same unit.

## Strategy

* **Reading.**  Each part of a number is handed the text that has been read so far.  Digits
  are read alike whatever that is (`digits_congr`), and the theorems behind it put a hyphen
  in front of it, part by part up to `signedNumber_sign`.
* **The unit.**  A unit is split off at the end of a number, where the hyphen is not
  (`UnitSuffix.split_sign`).
* **The value.**  An integer is negated as it is read (`integerValue_sign`), and a double by
  the arithmetic of doubles (`floatValue_sign`).
* **In its unit.**  `quantity` multiplies by the factor of the unit, which may be out of
  range on one side only: the least integer has no positive counterpart
  (`opposite_of_decode`).
-/

namespace ConfigLang

namespace Lexeme

variable {cs sign read run number rest : List Char} {kind kind' : Kind}

/-! ## Reading -/

theorem digits_congr {base : Nat} (h : digits base read cs = .ok run) (read' : List Char) :
    digits base read' cs = .ok run :=
  digits_eq_ok_iff.mpr (digits_eq_ok_iff.mp h)

theorem basedNumber_sign {base : Nat}
    (h : basedNumber base (sign ++ read) cs = .ok (kind, number)) :
    ∃ n, number = sign ++ n ∧ basedNumber base read cs = .ok (kind, n) := by
  obtain ⟨run, hrun, hrest, rfl, rfl⟩ := basedNumber_eq_ok_iff.mp h
  refine ⟨read ++ run, List.append_assoc .., basedNumber_eq_ok_iff.mpr ?_⟩
  exact ⟨run, digits_congr hrun read, hrest, rfl, rfl⟩

theorem fraction_sign (h : fraction (sign ++ read) cs = .ok (kind, number, rest)) :
    ∃ n, number = sign ++ n ∧ fraction read cs = .ok (kind, n, rest) := by
  rcases fraction_eq_ok_iff.mp h with
    ⟨c, s, run, hc, rfl, hrun, rfl, rfl, rfl⟩ | ⟨hfraction, rfl, rfl, rfl⟩
  · refine ⟨read ++ '.' :: run, List.append_assoc .., fraction_eq_ok_iff.mpr (.inl ?_)⟩
    exact ⟨c, s, run, hc, rfl, digits_congr hrun _, rfl, rfl, rfl⟩
  · exact ⟨read, rfl, fraction_of_not hfraction⟩

theorem exponent_sign (h : exponent kind (sign ++ read) cs = .ok (kind', number, rest)) :
    ∃ n, number = sign ++ n ∧ exponent kind read cs = .ok (kind', n, rest) := by
  rcases exponent_eq_ok_iff.mp h with
    ⟨lead, c, s, run, hlead, hc, rfl, hrun, rfl, rfl, rfl⟩ | ⟨hexponent, rfl, rfl, rfl⟩
  · refine ⟨read ++ 'e' :: lead.tail ++ run, by simp only [List.append_assoc],
      exponent_eq_ok_iff.mpr (.inl ?_)⟩
    exact ⟨lead, c, s, run, hlead, hc, rfl, digits_congr hrun _, rfl, rfl, rfl⟩
  · exact ⟨read, rfl, exponent_of_not hexponent⟩

theorem decimalNumber_sign (h : decimalNumber (sign ++ read) cs = .ok (kind, number)) :
    ∃ n, number = sign ++ n ∧ decimalNumber read cs = .ok (kind, n) := by
  obtain ⟨run, _, _, _, _, _, unit, hrun, hzero, hfraction, hexponent, hunit, rfl⟩ :=
    decimalNumber_eq_ok_iff.mp h
  rw [List.append_assoc] at hfraction
  obtain ⟨n₁, rfl, hfraction'⟩ := fraction_sign hfraction
  obtain ⟨n₂, rfl, hexponent'⟩ := exponent_sign hexponent
  refine ⟨n₂ ++ unit, List.append_assoc .., decimalNumber_eq_ok_iff.mpr ?_⟩
  exact ⟨run, _, _, _, _, _, unit, digits_congr hrun read, hzero, hfraction', hexponent', hunit, rfl⟩

theorem digits_head {base : Nat} {d : Char} (hd : isDigitOf base d = true)
    (h : digits base read (d :: cs) = .ok run) : ∃ n, run = d :: n := by
  have hnumeral : isNumeralChar base d = true := by
    rw [isNumeralChar, hd, Bool.true_or]
  rw [eq_takeWhile_of_digits h, List.takeWhile_cons_of_pos hnumeral]
  exact ⟨_, rfl⟩

/-- A number starts with the digit that its text starts with. -/
theorem decimalNumber_head {d : Char} (hd : d.isDigit = true)
    (h : decimalNumber [] (d :: cs) = .ok (kind, number)) : ∃ n, number = d :: n := by
  obtain ⟨run, _, _, _, _, _, unit, hrun, -, hfraction, hexponent, -, rfl⟩ :=
    decimalNumber_eq_ok_iff.mp h
  obtain ⟨n, rfl⟩ := digits_head (isDigitOf_ten hd) hrun
  rw [List.nil_append, ← List.append_nil (d :: n)] at hfraction
  obtain ⟨n₁, rfl, -⟩ := fraction_sign hfraction
  obtain ⟨n₂, rfl, -⟩ := exponent_sign hexponent
  exact ⟨n ++ n₂ ++ unit, rfl⟩

theorem scanNumber_sign (h : scanNumber sign cs = .ok (kind, number)) :
    ∃ n, number = sign ++ n ∧ scanNumber [] cs = .ok (kind, n) := by
  rcases scanNumber_eq_ok_iff.mp h with ⟨c, s, base, hbase, rfl, hbased⟩ | ⟨hnot, hdecimal⟩
  · obtain ⟨n, rfl, hn⟩ := basedNumber_sign hbased
    exact ⟨n, rfl, scanNumber_eq_ok_iff.mpr (.inl ⟨c, s, base, hbase, rfl, hn⟩)⟩
  · rw [← List.append_nil sign] at hdecimal
    obtain ⟨n, rfl, hn⟩ := decimalNumber_sign hdecimal
    exact ⟨n, rfl, scanNumber_eq_ok_iff.mpr (.inr ⟨hnot, hn⟩)⟩

theorem scanNumber_head {d : Char} (hd : d.isDigit = true)
    (h : scanNumber [] (d :: cs) = .ok (kind, number)) : ∃ n, number = d :: n := by
  rcases scanNumber_eq_ok_iff.mp h with ⟨c, s, base, -, hcs, hbased⟩ | ⟨-, hdecimal⟩
  · cases hcs
    rw [List.nil_append, ← List.append_nil ['0', c]] at hbased
    obtain ⟨n, rfl, -⟩ := basedNumber_sign hbased
    exact ⟨c :: n, rfl⟩
  · exact decimalNumber_head hd hdecimal

/-- A number behind a hyphen that belongs to it is the number without, with the hyphen in front. -/
theorem signedNumber_sign {d : Char} (hd : d.isDigit = true)
    (h : (signedNumber ['-'] (d :: cs)).kind ≠ .invalid) :
    ∃ kind n, IsNumber kind ∧
      signedNumber ['-'] (d :: cs) = ⟨kind, String.ofList ('-' :: d :: n), n.length + 2⟩ ∧
      signedNumber [] (d :: cs) = ⟨kind, String.ofList (d :: n), n.length + 1⟩ := by
  obtain ⟨kind, number, hnumber, heq⟩ := exists_of_signedNumber h
  obtain ⟨n, rfl, hn⟩ := scanNumber_sign hnumber
  obtain ⟨n, rfl⟩ := scanNumber_head hd hn
  have hkind := (kind_signedNumber ['-'] (d :: cs)).resolve_right h
  rw [heq] at hkind
  refine ⟨kind, n, hkind, heq, ?_⟩
  rw [signedNumber_eq, hn]
  rfl

/-! ## The unit -/

theorem takeWhile_append_cons {p : Char → Bool} {c : Char} (hc : p c = false) (xs ys : List Char) :
    (xs ++ c :: ys).takeWhile p = xs.takeWhile p := by
  induction xs with
  | nil => exact List.takeWhile_cons_of_neg (Bool.eq_false_iff.mp hc)
  | cons x xs ih => simp only [List.cons_append, List.takeWhile_cons, ih]

theorem ne_minus_of_isDigit {c : Char} (hc : c.isDigit = true) : c ≠ '-' := by
  rintro rfl
  cases hc

theorem isAlpha_of_isDigit {c : Char} (hc : c.isDigit = true) : c.isAlpha = false := by
  simp only [Char.isAlpha, Char.isUpper, Char.isLower, Char.isDigit, Bool.or_eq_false_iff,
    Bool.and_eq_true, Bool.and_eq_false_iff, decide_eq_true_eq, decide_eq_false_iff_not, ge_iff_le,
    UInt32.le_iff_toNat_le] at hc ⊢
  change 48 ≤ c.toNat ∧ c.toNat ≤ 57 at hc
  change ¬(65 ≤ c.toNat ∧ c.toNat ≤ 90) ∧ (¬97 ≤ c.toNat ∨ ¬c.toNat ≤ 122)
  omega

end Lexeme

open Lexeme

/-- The unit of a number is the same behind a hyphen, which stays in front of the number. -/
theorem UnitSuffix.split_sign {c : Char} (hc : c.isDigit = true) (n : List Char) :
    ∃ m unit, split (.ofList (c :: n)) = (.ofList (c :: m), unit) ∧
      split (.ofList ('-' :: c :: n)) = (.ofList ('-' :: c :: m), unit) := by
  have hdrop : (c :: n).dropWhile (· == '-') = c :: n :=
    List.dropWhile_cons_of_neg (by simpa using ne_minus_of_isDigit hc)
  have hdrop' : ('-' :: c :: n).dropWhile (· == '-') = c :: n := by
    rw [List.dropWhile_cons]
    exact hdrop
  -- the letters at the end are behind the digit at the front
  have hletters (sign : List Char) :
      (n.reverse ++ c :: sign).takeWhile Char.isAlpha = n.reverse.takeWhile Char.isAlpha :=
    takeWhile_append_cons (isAlpha_of_isDigit hc) _ _
  have hlength : (n.reverse.takeWhile Char.isAlpha).length ≤ n.length :=
    (List.takeWhile_sublist _).length_le.trans_eq n.length_reverse
  unfold split
  simp only [String.toList_ofList, hdrop, hdrop', List.reverse_cons, List.append_assoc,
    List.singleton_append, hletters]
  split
  · exact ⟨_, _, rfl, rfl⟩
  · exact ⟨_, _, rfl, rfl⟩
  · split
    · rename_i unit _
      refine ⟨n.take (n.length - (n.reverse.takeWhile Char.isAlpha).length), some unit, ?_, ?_⟩
      · rw [List.length_reverse, List.length_cons, Nat.succ_sub hlength]
        rfl
      · rw [List.length_reverse, List.length_cons, List.length_cons,
          Nat.succ_sub (Nat.le_succ_of_le hlength), Nat.succ_sub hlength]
        rfl
    · exact ⟨_, _, rfl, rfl⟩

namespace Literal

/-! ## The value -/

theorem splitSign_of_isDigit {c : Char} (hc : c.isDigit = true) (cs : List Char) :
    splitSign (c :: cs) = (false, c :: cs) := by
  unfold splitSign
  split
  · rename_i h
    cases h
    exact absurd rfl (ne_minus_of_isDigit hc)
  · rfl

theorem integerValue_sign {c : Char} (hc : c.isDigit = true) (m : List Char) :
    integerValue ('-' :: c :: m) = -integerValue (c :: m) := by
  rw [integerValue, integerValue, splitSign_of_isDigit hc]
  rfl

theorem integerValue_nonneg {c : Char} (hc : c.isDigit = true) (m : List Char) :
    0 ≤ integerValue (c :: m) := by
  have hfold (base : Nat) (cs : List Char) (n : Int) (hn : 0 ≤ n) :
      0 ≤ cs.foldl (fun (n : Int) c => n * base + digitValue c) n := by
    induction cs generalizing n with
    | nil => exact hn
    | cons c cs ih => exact ih _ (by positivity)
  rw [integerValue, splitSign_of_isDigit hc]
  exact hfold _ _ 0 le_rfl

theorem floatValue_sign {c : Char} (hc : c.isDigit = true) (m : List Char) :
    floatValue (dropSeparators ('-' :: c :: m)) = -floatValue (dropSeparators (c :: m)) := by
  have hcs : dropSeparators (c :: m) = c :: dropSeparators m := by
    refine List.filter_cons_of_pos (bne_iff_ne.mpr ?_)
    rintro rfl
    cases hc
  have hcs' : dropSeparators ('-' :: c :: m) = '-' :: c :: dropSeparators m := by
    rw [← hcs]
    rfl
  have hsign (cs : List Char) : splitSign ('-' :: cs) = (true, cs) := rfl
  simp only [hcs, hcs', floatValue, splitSign_of_isDigit hc, hsign, ↓reduceIte,
    Bool.false_eq_true]

/-! ## The value in its unit -/

/-- A value in its unit. -/
def quantity (value : Value) : Option UnitSuffix → Except EvalError Value
  | none => .ok value
  | some unit => value.arith .mul (.int (Int64.ofNat unit.factor))

/-- The integer that a number without a sign stands for in its unit. -/
def magnitude (text : String) : Int :=
  integerValue (UnitSuffix.split text).1.toList *
    ((UnitSuffix.split text).2.elim 1 UnitSuffix.factor : Nat)

/-- A double that is turned into its negative is turned so in a unit as well. -/
def FlipsIn (x : Float) (unit : UnitSuffix) : Prop :=
  -x * (Int64.ofNat unit.factor).toFloat = -(x * (Int64.ofNat unit.factor).toFloat)

/-- In their unit the values are numbers, of which the first is the negative of the second. -/
def Opposite (value value' : Value) (unit : Option UnitSuffix) : Prop :=
  ∃ x x', quantity value unit = .ok x ∧ quantity value' unit = .ok x' ∧ x'.unary .neg = .ok x ∧
    x.kind = x'.kind ∧ (x.kind = .int ∨ x.kind = .double)

theorem toInt_factor (unit : UnitSuffix) :
    (Int64.ofNat unit.factor).toInt = unit.factor ∧ 1 ≤ unit.factor := by
  cases unit <;> decide

theorem opposite_int {k : Int} {a b : Int64} (hb : b.toInt = k)
    (ha : Integer.ofInt? (-k) = some a) : (Value.int b).unary .neg = .ok (.int a) := by
  rw [Value.unary, Value.exact, hb, ha]

theorem integer_eq (text : String) :
    integer text =
      match Integer.ofInt? (integerValue (UnitSuffix.split text).1.toList) with
      | some n => .ok (.int n, (UnitSuffix.split text).2)
      | none =>
        .error (if integerValue (UnitSuffix.split text).1.toList < 0 then .tooSmall
          else .tooLarge) := by
  delta integer
  rfl

theorem opposite_of_integer {c : Char} (hc : c.isDigit = true) {n : List Char} {value : Value}
    {unit : Option UnitSuffix} (h : integer (.ofList ('-' :: c :: n)) = .ok (value, unit))
    (hmagnitude : magnitude (.ofList (c :: n)) < 2 ^ 63) :
    ∃ value', integer (.ofList (c :: n)) = .ok (value', unit) ∧ Opposite value value' unit := by
  obtain ⟨m, u, hsplit, hsplit'⟩ := UnitSuffix.split_sign hc n
  have hnonneg := integerValue_nonneg hc m
  rw [integer_eq, hsplit'] at h
  rw [integer_eq, hsplit]
  rw [magnitude, hsplit] at hmagnitude
  simp only [String.toList_ofList, integerValue_sign hc] at h hmagnitude ⊢
  generalize integerValue (c :: m) = k at *
  have hleast := Integer.least_eq
  have hgreatest := Integer.greatest_eq
  cases ha : Integer.ofInt? (-k) with
  | none => rw [ha] at h; cases h
  | some a =>
      rw [ha] at h
      cases h
      obtain ⟨hatoInt, haleast, -⟩ := Integer.toInt_of_ofInt? ha
      cases unit with
      | none =>
          rw [Option.elim_none, Nat.cast_one, mul_one] at hmagnitude
          obtain ⟨b, hb, hbtoInt⟩ := Integer.exists_ofInt? (n := k) (by omega) (by omega)
          rw [hb]
          exact ⟨_, rfl, .int a, .int b, rfl, rfl, opposite_int hbtoInt ha, rfl, .inl rfl⟩
      | some unit =>
          obtain ⟨hfactor, hone⟩ := toInt_factor unit
          rw [Option.elim_some] at hmagnitude
          -- the number itself is in range if it is so in its unit
          have hle : k ≤ k * unit.factor := le_mul_of_one_le_right hnonneg (by exact_mod_cast hone)
          obtain ⟨b, hb, hbtoInt⟩ := Integer.exists_ofInt? (n := k) (by omega) (by omega)
          obtain ⟨x', hx', hx'toInt⟩ := Integer.exists_ofInt? (n := k * unit.factor) (by omega) (by omega)
          obtain ⟨x, hx, -⟩ := Integer.exists_ofInt? (n := -(k * unit.factor)) (by omega) (by omega)
          rw [hb]
          refine ⟨_, rfl, .int x, .int x', ?_, ?_, opposite_int hx'toInt hx, rfl, .inl rfl⟩
          · simp only [quantity, Value.arith, Value.intArith, Value.exact, hatoInt, hfactor,
              neg_mul, hx]
          · simp only [quantity, Value.arith, Value.intArith, Value.exact, hbtoInt, hfactor, hx']

/-- Only the two words among the floats start with a letter. -/
theorem double_of_ne {d : Char} (cs : List Char) (hi : d ≠ 'i') (hn : d ≠ 'n') :
    double (.ofList (d :: cs)) =
      (.double (floatValue (dropSeparators (UnitSuffix.split (.ofList (d :: cs))).1.toList)),
        (UnitSuffix.split (.ofList (d :: cs))).2) := by
  have hword {w : String} {a : Char} (hw : w.toList.head? = some a) (hne : d ≠ a) :
      String.ofList (d :: cs) ≠ w := by
    rintro rfl
    rw [String.toList_ofList] at hw
    exact hne (Option.some.inj hw)
  rw [double, if_neg (hword rfl hi), if_neg (hword rfl hn)]

theorem double_sign {c : Char} (hc : c.isDigit = true) (n : List Char) :
    ∃ x unit, double (.ofList (c :: n)) = (.double x, unit) ∧
      double (.ofList ('-' :: c :: n)) = (.double (-x), unit) := by
  obtain ⟨m, unit, hsplit, hsplit'⟩ := UnitSuffix.split_sign hc n
  refine ⟨floatValue (dropSeparators (c :: m)), unit, ?_, ?_⟩
  · rw [double_of_ne n (by rintro rfl; cases hc) (by rintro rfl; cases hc), hsplit,
      String.toList_ofList]
  · rw [double_of_ne (c :: n) (by decide) (by decide), hsplit', String.toList_ofList,
      floatValue_sign hc]

theorem quantity_double (x : Float) (unit : UnitSuffix) :
    quantity (.double x) (some unit) =
      .ok (.double (x * (Int64.ofNat unit.factor).toFloat)) := by
  simp only [quantity, Value.arith, Value.floatArith]

theorem opposite_of_double {c : Char} (hc : c.isDigit = true) {n : List Char} {value : Value}
    {unit : Option UnitSuffix} (h : double (.ofList ('-' :: c :: n)) = (value, unit))
    (hflips : ∀ x u, double (.ofList (c :: n)) = (.double x, some u) → FlipsIn x u) :
    ∃ value', double (.ofList (c :: n)) = (value', unit) ∧ Opposite value value' unit := by
  obtain ⟨x, unit, hx, hx'⟩ := double_sign hc n
  cases hx'.symm.trans h
  refine ⟨.double x, hx, ?_⟩
  cases unit with
  | none => exact ⟨.double (-x), .double x, rfl, rfl, rfl, rfl, .inr rfl⟩
  | some unit =>
      have hkind (y : Float) : (Value.double y).kind = .double := rfl
      refine ⟨_, _, quantity_double (-x) unit, quantity_double x unit, ?_, ?_, .inr (hkind _)⟩
      · rw [Value.unary, hflips x unit hx]
      · rw [hkind, hkind]

/-- **A number with a hyphen is the negative of the one without**, in the same unit.  The least
integer has no positive counterpart, and what a double does is left to its arithmetic. -/
theorem opposite_of_decode {kind : Kind} (hkind : IsNumber kind) {c : Char}
    (hc : c.isDigit = true) {n : List Char} {value : Value} {unit : Option UnitSuffix}
    (h : decode kind (.ofList ('-' :: c :: n)) = .ok (value, unit))
    (hmagnitude : kind = .integer → magnitude (.ofList (c :: n)) < 2 ^ 63)
    (hflips : kind = .float →
      ∀ x u, double (.ofList (c :: n)) = (.double x, some u) → FlipsIn x u) :
    ∃ value', decode kind (.ofList (c :: n)) = .ok (value', unit) ∧ Opposite value value' unit := by
  rcases hkind with rfl | rfl
  · simp only [decode] at h ⊢
    exact opposite_of_integer hc h (hmagnitude rfl)
  · simp only [decode, Except.ok.injEq] at h ⊢
    exact opposite_of_double hc h (hflips rfl)

end Literal

end ConfigLang
