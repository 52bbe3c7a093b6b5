import Mathlib
import ConfigLang.Parse.Expr
import ConfigLang.Proofs.Token.Malformed

/-!
# Integer literals

A literal in front of the end of a line is one token, which stands for its exact value in
the unit that is written, unless this is beyond 64 bits; and a malformed number is no
token, whatever follows (`integers_read`).

## Strategy

The lexer reads a literal from the left, part by part.  What it stands for is found in the
text of the token afresh: the unit is taken off from the right, and then the sign and
the base from the left.  The digits of a base up to ten are no letters, so what is taken
off from the right is just the unit; a hexadecimal number, whose digits are, has none.
-/

namespace ConfigLang

/-! ## The unit of a literal -/

open Lexeme

variable {cs : List Char}

/-- The letters behind the last character that is none are the unit, unless the number is
hexadecimal. -/
theorem UnitSuffix.split_letters {a letters : List Char} {d : Char} (hd : d.isAlpha = false)
    (hletters : letters.all Char.isAlpha = true) (hcs : cs = a ++ d :: letters)
    (hhex : 'x' ∉ cs ∧ 'X' ∉ cs) :
    split (.ofList cs) =
      match ofText? (.ofList letters) with
      | some unit => (.ofList (a ++ [d]), some unit)
      | none => (.ofList cs, none) := by
  have hrun : (cs.reverse.takeWhile Char.isAlpha).reverse = letters := by
    rw [hcs, List.reverse_append, List.reverse_cons, List.append_assoc,
      List.takeWhile_append_of_pos fun c hc =>
        List.all_eq_true.mp hletters c (List.mem_reverse.mp hc),
      List.singleton_append, List.takeWhile_cons_of_neg (by rw [hd]; decide), List.append_nil,
      List.reverse_reverse]
  have hnumber : cs.take (cs.length - letters.length) = a ++ [d] := by
    rw [hcs, List.append_cons, List.length_append, Nat.add_sub_cancel, List.take_left]
  have hmem {c : Char} {s : List Char} (h : cs.dropWhile (· == '-') = '0' :: c :: s) : c ∈ cs :=
    (List.dropWhile_sublist _).mem (h ▸ List.mem_cons_of_mem _ List.mem_cons_self)
  unfold split
  simp only [String.toList_ofList, hrun, hnumber]
  split
  · rename_i heq
    exact absurd (hmem heq) hhex.1
  · rename_i heq
    exact absurd (hmem heq) hhex.2
  · rfl

/-- A number whose digits are no letters has the unit that is written behind it. -/
theorem UnitSuffix.split_numeral {base : Nat} (hbase : base ≤ 10) (lead : List Char)
    (hlead : 'x' ∉ lead ∧ 'X' ∉ lead) (n : Numeral base) (unit : Option UnitSuffix) :
    split (.ofList (lead ++ n.chars ++ unitChars unit)) = (.ofList (lead ++ n.chars), unit) := by
  obtain ⟨d, hlast⟩ := n.exists_getLast?_chars
  obtain ⟨a, ha⟩ := List.getLast?_eq_some_iff.mp hlast
  have hletters : (unitChars unit).all Char.isAlpha = true := by
    cases unit with
    | none => rfl
    | some u => cases u <;> decide
  have hcs : lead ++ n.chars ++ unitChars unit = lead ++ a ++ d.char :: unitChars unit := by
    rw [ha]
    simp only [List.append_assoc, List.singleton_append]
  have hnumber : lead ++ a ++ [d.char] = lead ++ n.chars := by
    rw [ha, List.append_assoc]
  have hnumeral {c : Char} (hc : isNumeralChar 10 c = false) : c ∉ n.chars := by
    intro hmem
    rw [isNumeralChar_of_le hbase (n.isNumeralChar_of_mem (hbase.trans (by decide)) hmem)] at hc
    cases hc
  have hunit : 'x' ∉ unitChars unit ∧ 'X' ∉ unitChars unit := by
    cases unit with
    | none => exact ⟨List.not_mem_nil, List.not_mem_nil⟩
    | some u => cases u <;> decide
  have hhex :
      'x' ∉ lead ++ n.chars ++ unitChars unit ∧ 'X' ∉ lead ++ n.chars ++ unitChars unit := by
    simp only [List.mem_append, not_or]
    exact ⟨⟨⟨hlead.1, hnumeral (by decide)⟩, hunit.1⟩, ⟨⟨hlead.2, hnumeral (by decide)⟩, hunit.2⟩⟩
  rw [split_letters (isAlpha_of_isDigit (d.isDigit_char hbase)) hletters hcs hhex, hnumber]
  cases unit with
  | none =>
      have hnone : ofText? (.ofList (unitChars none)) = none := by decide
      rw [hnone, unitChars, Option.elim_none, List.append_nil]
  | some u =>
      have hsome : ofText? (.ofList (unitChars (some u))) = some u := ofText?_text u
      rw [hsome]

theorem UnitSuffix.split_hexadecimal (upper : Bool) (cs : List Char) :
    split (.ofList ('0' :: Radix.hexadecimal.marker upper :: cs)) =
      (.ofList ('0' :: Radix.hexadecimal.marker upper :: cs), none) := by
  cases upper <;> simp [split, Radix.marker]

namespace Lexeme.Magnitude

theorem split_chars (m : Magnitude) :
    UnitSuffix.split (.ofList m.chars) = (.ofList m.number, m.unit) := by
  cases m with
  | decimal n unit hzero => exact UnitSuffix.split_numeral le_rfl [] (by decide) n unit
  | based r upper n =>
      cases r with
      | hexadecimal =>
          rw [chars, unit, unitChars, Option.elim_none, List.append_nil]
          exact UnitSuffix.split_hexadecimal upper n.chars
      | octal =>
          exact UnitSuffix.split_numeral (by decide) ['0', Radix.octal.marker upper]
            (by cases upper <;> decide) n none
      | binary =>
          exact UnitSuffix.split_numeral (by decide) ['0', Radix.binary.marker upper]
            (by cases upper <;> decide) n none

/-! ## The value of a literal -/

theorem splitBase_numeral (n : Numeral 10) : Literal.splitBase n.chars = (10, n.chars) := by
  have hbase : ¬HasBase (n.chars ++ []) := not_hasBase_numeral n nofun
  rw [List.append_nil] at hbase
  unfold Literal.splitBase
  split
  · rename_i c cs heq
    split
    · rename_i base hc
      exact absurd ⟨c, cs, base, heq, hc⟩ hbase
    · rw [heq]
  · rfl

theorem splitBase_marker (r : Radix) (upper : Bool) (cs : List Char) :
    Literal.splitBase ('0' :: r.marker upper :: cs) = (r.base, cs) := by
  cases r <;> cases upper <;> rfl

theorem integerValue_of_splitBase {cs digits : List Char} {base : Nat}
    (hsign : Literal.splitSign cs = (false, cs)) (hbase : Literal.splitBase cs = (base, digits)) :
    Literal.integerValue cs =
      (Literal.dropSeparators digits).foldl (fun (k : Int) c => k * base + Literal.digitValue c)
        0 := by
  rw [Literal.integerValue, hsign]
  dsimp only
  rw [hbase]
  rfl

theorem integerValue_number (m : Magnitude) : Literal.integerValue m.number = m.value := by
  have hsign : Literal.splitSign m.number = (false, m.number) := by
    obtain ⟨c, cs, hnumber, hc⟩ := m.exists_number_eq
    rw [hnumber, Literal.splitSign_of_isDigit hc]
  cases m with
  | based r upper n =>
      rw [integerValue_of_splitBase hsign (splitBase_marker r upper n.chars)]
      exact n.foldl_chars r.base_le
  | decimal n unit hzero =>
      rw [integerValue_of_splitBase hsign (splitBase_numeral n)]
      exact n.foldl_chars (by decide)

end Lexeme.Magnitude

namespace Literal

/-- **A literal stands for its exact value** in the unit that is written, if it fits. -/
theorem integer_chars (t : IntegerText) :
    integer (.ofList t.chars) =
      match Integer.ofInt? t.value with
      | some n => .ok (.int n, t.unit)
      | none => .error (if t.value < 0 then .tooSmall else .tooLarge) := by
  obtain ⟨negative, m⟩ := t
  obtain ⟨c, cs, hnumber, hc⟩ := m.exists_number_eq
  have hchars : m.chars = c :: (cs ++ unitChars m.unit) := by
    rw [Magnitude.chars, hnumber, List.cons_append]
  have hsplit := m.split_chars
  have hvalue := m.integerValue_number
  have hfound : UnitSuffix.split (.ofList (IntegerText.chars ⟨negative, m⟩)) =
        (.ofList (signChars negative ++ m.number), m.unit) ∧
      integerValue (signChars negative ++ m.number) = IntegerText.value ⟨negative, m⟩ := by
    cases negative with
    | false => exact ⟨hsplit, hvalue⟩
    | true =>
        obtain ⟨n, unit, hunsigned, hsigned⟩ := UnitSuffix.split_sign hc (cs ++ unitChars m.unit)
        rw [← hchars, hsplit, Prod.mk.injEq, String.ofList_inj] at hunsigned
        obtain ⟨hn, rfl⟩ := hunsigned
        rw [← hchars, ← hn] at hsigned
        rw [hn] at hvalue
        refine ⟨hsigned, ?_⟩
        rw [hn]
        exact (integerValue_sign hc n).trans (congrArg Neg.neg hvalue)
  rw [integer_eq, hfound.1, String.toList_ofList, hfound.2]
  rfl

end Literal

/-! ## Tokens -/

namespace Lexer

variable {l : Lexer} {tail cs : List Char}

/-- A number is at the front, behind its sign if it has one. -/
structure AtNumber (l : Lexer) (negative : Bool) (cs : List Char) : Prop where
  rest : l.skipBlanks.rest = signChars negative ++ cs
  digit : startsDigit cs = true
  /-- A hyphen is part of the number unless an operand ends before it. -/
  folds : negative = true → l.last.any Kind.endsOperand = false
  /-- With a hyphen before it a number is no calendar literal. -/
  number : negative = false → moment? cs = none

/-- The number is the next token. -/
theorem AtNumber.next_eq {negative : Bool} (h : l.AtNumber negative cs) :
    l.next = l.skipBlanks.take (signedNumber (signChars negative) cs) := by
  have hrest := h.rest
  have hdigit := h.digit
  cases cs with
  | nil => cases hdigit
  | cons c cs =>
      cases negative with
      | true =>
          rw [next_of_cons hrest, atFront_hyphen, if_pos ⟨hdigit, by rw [h.folds rfl]; decide⟩]
          rfl
      | false =>
          rw [next_of_cons hrest, atFront_digit _ hdigit, unsigned, h.number rfl, Option.getD_none]
          rfl

theorem atNumber_integer {t : IntegerText} (hrest : l.skipBlanks.rest = t.chars ++ tail)
    (hend : EndsLine tail) (hfolds : t.negative = true → l.last.any Kind.endsOperand = false) :
    l.AtNumber t.negative (t.magnitude.chars ++ tail) where
  rest := by rw [hrest, IntegerText.chars, List.append_assoc]
  digit := by
    obtain ⟨c, cs, hnumber, hc⟩ := t.magnitude.exists_number_eq
    rw [Magnitude.chars, hnumber]
    exact hc
  folds := hfolds
  number _ := moment?_of_word t.magnitude.isNameChar_of_mem hend

theorem next_integer {t : IntegerText} (hrest : l.skipBlanks.rest = t.chars ++ tail)
    (hend : EndsLine tail) (hfolds : t.negative = true → l.last.any Kind.endsOperand = false) :
    l.next.1 = ⟨.integer, .ofList t.chars, l.skipBlanks.position⟩ ∧ l.next.2.rest = tail := by
  have hnext := (atNumber_integer hrest hend hfolds).next_eq
  rw [signedNumber_eq, scanNumber_magnitude t.magnitude hend] at hnext
  refine ⟨by rw [hnext]; rfl, ?_⟩
  rw [hnext, take, skip, hrest]
  exact List.drop_left

/-- What becomes of a token with the text of an integer literal. -/
theorem literal_integer (t : IntegerText) (position : Position) :
    Parse.literal ⟨.integer, .ofList t.chars, position⟩ =
      match Integer.ofInt? t.value with
      | some n => .ok (.literal ⟨.integer, .ofList t.chars, position⟩ (.int n) t.unit)
      | none =>
        .error (.invalidLiteral (.ofList t.chars) (if t.value < 0 then .tooSmall else .tooLarge)
          position) := by
  rw [Parse.literal, Literal.decode, Literal.integer_chars]
  cases Integer.ofInt? t.value <;> rfl

/-- **An integer literal in front of the end of a line is one token, which stands for its exact
value** in the unit that is written, unless this is beyond 64 bits; and **a malformed number is no
token**, whatever is behind it. -/
theorem integers_read (l : Lexer) :
    (∀ (t : IntegerText) (tail : List Char), l.skipBlanks.rest = t.chars ++ tail → EndsLine tail →
      (t.negative = true → l.last.any Kind.endsOperand = false) →
      l.next.1 = ⟨.integer, .ofList t.chars, l.skipBlanks.position⟩ ∧ l.next.2.rest = tail ∧
        (-2 ^ 63 ≤ t.value ∧ t.value < 2 ^ 63 → ∃ n : Int64, n.toInt = t.value ∧
          Parse.literal l.next.1 = .ok (.literal l.next.1 (.int n) t.unit)) ∧
        (¬(-2 ^ 63 ≤ t.value ∧ t.value < 2 ^ 63) → Parse.literal l.next.1 =
          .error (.invalidLiteral (.ofList t.chars) (if t.value < 0 then .tooSmall else .tooLarge)
            l.skipBlanks.position))) ∧
    ∀ (negative : Bool) (cs : List Char), l.AtNumber negative cs → Malformed cs →
      l.next.1.kind = .invalid := by
  have hleast := Integer.least_eq
  have hgreatest := Integer.greatest_eq
  constructor
  · intro t tail hrest hend hfolds
    obtain ⟨htoken, hleft⟩ := next_integer hrest hend hfolds
    refine ⟨htoken, hleft, fun hrange => ?_, fun hrange => ?_⟩
    · obtain ⟨n, hn, htoInt⟩ := Integer.exists_ofInt? (n := t.value) (by omega) (by omega)
      refine ⟨n, htoInt, ?_⟩
      rw [htoken, literal_integer, hn]
    · have hnone : Integer.ofInt? t.value = none := by
        rw [Integer.ofInt?, if_neg (by omega)]
      rw [htoken, literal_integer, hnone]
  · intro negative cs hnumber hmalformed
    obtain ⟨e, he⟩ := hmalformed.scanNumber_eq_error hnumber.digit (signChars negative)
    rw [hnumber.next_eq, signedNumber_eq, he]
    rfl

/-- The least integer is one literal, and a separator before a unit spoils a number. -/
theorem integers_read_of_least :
    ((ofText "-0x8000000000000000\n").next.1 = ⟨.integer, "-0x8000000000000000", .start⟩ ∧
      ∃ n : Int64, n.toInt = -2 ^ 63 ∧ Parse.literal (ofText "-0x8000000000000000\n").next.1 =
        .ok (.literal (ofText "-0x8000000000000000\n").next.1 (.int n) none)) ∧
    (ofText "1_MB").next.1.kind = .invalid := by
  let t : IntegerText :=
    ⟨true, .based .hexadecimal false
      ⟨⟨⟨8, by decide⟩, false⟩, List.replicate 15 (false, ⟨⟨0, by decide⟩, false⟩)⟩⟩
  have hvalue : t.value = -2 ^ 63 := by decide +kernel
  obtain ⟨htoken, -, hfits, -⟩ := (integers_read (ofText "-0x8000000000000000\n")).1 t ['\n'] rfl
    (fun _ h => (Option.some.inj h).symm) fun _ => rfl
  refine ⟨⟨htoken, hvalue ▸ hfits (by rw [hvalue]; decide)⟩, ?_⟩
  have hseparator : Malformed ['1', '_', 'M', 'B'] :=
    .separator .plain (a := ['1']) (b := ['M', 'B'])
      (List.forall_mem_singleton.mpr (.inl ⟨⟨1, false⟩, rfl⟩))
      (.inr fun c hc => mt (isDigitOf_iff (by decide)).mpr (by cases hc; decide))
  exact (integers_read (ofText "1_MB")).2 false _ ⟨rfl, rfl, nofun, fun _ => by decide⟩ hseparator

end Lexer

end ConfigLang
