import Mathlib
import ConfigLang.Token.Lexer
import ConfigLang.Proofs.Running

/-!
# The parts of a number

A number is read part by part, and each part says what it went past: digits, that may have
separators between them (`digits_eq_ok_iff`), and then either the end of a number with a base
marker (`basedNumber_eq_ok_iff`) or a fraction, an exponent and a unit
(`decimalNumber_eq_ok_iff`).  A fraction or an exponent is read exactly if a digit follows
its point or its marker.

## Strategy

* **Digits.**  A row of digits is the longest run of `isNumeralChar`, with which its first
  characters, its width and its fault are known (`digits_eq`).
* **Fractions and exponents.**  Each has a condition on what is in front (`HasFraction`,
  `HasExponent`), a theorem for the case that it fails, where nothing is read, and one for
  the case that it holds (`fraction_of_not`, `fraction_of_digit`, and so for exponents).
* **Numbers.**  `scanNumber` is what a number is before it becomes a lexeme.  The theorems
  on it are equivalences, so the modules that follow need not unfold the scanner.
-/

namespace ConfigLang.Lexeme

open Running

variable {sign cs read run number rest : List Char} {kind kind' : Kind}

/-! ## Digits -/

/-- The characters that a row of digits is read over. -/
def isNumeralChar (base : Nat) (c : Char) : Bool :=
  isDigitOf base c || c == '_'

theorem digits_eq (base : Nat) (read cs : List Char) :
    digits base read cs =
      if (cs.takeWhile (isNumeralChar base)).isEmpty then .error (.missingDigits, read)
      else if (cs.takeWhile (isNumeralChar base)).head? = some '_' ∨
          (cs.takeWhile (isNumeralChar base)).getLast? = some '_' ∨
          hasDoubleSeparator (cs.takeWhile (isNumeralChar base)) then
        .error (.misplacedSeparator (String.ofList (cs.takeWhile (isNumeralChar base))),
          read ++ cs.takeWhile (isNumeralChar base))
      else .ok (cs.takeWhile (isNumeralChar base)) :=
  rfl

theorem digits_eq_ok_iff {base : Nat} :
    digits base read cs = .ok run ↔
      run = cs.takeWhile (isNumeralChar base) ∧ run ≠ [] ∧
        ¬(run.head? = some '_' ∨ run.getLast? = some '_' ∨ hasDoubleSeparator run = true) := by
  rw [digits_eq]
  constructor
  · intro h
    split at h
    · cases h
    · rename_i hempty
      rw [List.isEmpty_iff] at hempty
      split at h
      · cases h
      · rename_i hseparators
        cases h
        exact ⟨rfl, hempty, hseparators⟩
  · rintro ⟨rfl, hempty, hseparators⟩
    rw [if_neg (by rwa [List.isEmpty_iff]), if_neg hseparators]

theorem eq_takeWhile_of_digits {base : Nat} (h : digits base read cs = .ok run) :
    run = cs.takeWhile (isNumeralChar base) :=
  (digits_eq_ok_iff.mp h).1

/-- A number with a base marker is digits of that base, with no character of a name behind them. -/
theorem basedNumber_eq_ok_iff {base : Nat} :
    basedNumber base read cs = .ok (kind, number) ↔
      ∃ run, digits base read cs = .ok run ∧
        (∀ c ∈ (cs.drop run.length).head?, isNameChar c = false) ∧
        kind = .integer ∧ number = read ++ run := by
  constructor
  · intro h
    obtain ⟨run, hrun, h⟩ := bind_eq_ok h
    refine ⟨run, hrun, ?_⟩
    dsimp only at h
    split at h
    · rename_i c rest hrest
      split at h
      · cases h
      · rename_i hc
        cases h
        rw [hrest]
        exact ⟨by rintro _ ⟨⟩; exact eq_false_of_ne_true hc, rfl, rfl⟩
    · rename_i hrest
      cases h
      rw [hrest]
      exact ⟨nofun, rfl, rfl⟩
  · rintro ⟨run, hrun, hrest, rfl, rfl⟩
    rw [basedNumber, hrun, ok_bind]
    dsimp only
    split
    · rename_i c rest hcs
      rw [hcs] at hrest
      rw [if_neg (ne_true_of_eq_false (hrest c rfl))]
    · rfl

/-! ## Fractions -/

/-- A fraction is at the front. -/
def HasFraction (cs : List Char) : Prop :=
  ∃ c s, cs = ['.'] ++ c :: s ∧ c.isDigit = true

theorem fraction_of_not (h : ¬HasFraction cs) :
    fraction read cs = .ok (.integer, read, cs) := by
  unfold fraction
  split
  · rename_i c s
    split
    · rename_i hc
      exact absurd ⟨c, s, rfl, hc⟩ h
    · rfl
  · rfl

theorem fraction_of_digit {c : Char} (hc : c.isDigit = true) (s : List Char) :
    fraction read ('.' :: c :: s) =
      (digits 10 (read ++ ['.']) (c :: s)).map fun run =>
        (.float, read ++ '.' :: run, (c :: s).drop run.length) := by
  rw [fraction, if_pos hc]
  cases digits 10 (read ++ ['.']) (c :: s) <;> rfl

theorem fraction_eq_ok_iff :
    fraction read cs = .ok (kind, number, rest) ↔
      (∃ c s run, c.isDigit = true ∧ cs = '.' :: c :: s ∧
        digits 10 (read ++ ['.']) (c :: s) = .ok run ∧
        kind = .float ∧ number = read ++ '.' :: run ∧ rest = (c :: s).drop run.length) ∨
      (¬HasFraction cs ∧ kind = .integer ∧ number = read ∧ rest = cs) := by
  constructor
  · intro h
    by_cases hfraction : HasFraction cs
    · obtain ⟨c, s, rfl, hc⟩ := hfraction
      rw [List.singleton_append, fraction_of_digit hc] at h
      obtain ⟨run, hrun, hresult⟩ := map_eq_ok h
      cases hresult
      exact .inl ⟨c, s, run, hc, rfl, hrun, rfl, rfl, rfl⟩
    · rw [fraction_of_not hfraction] at h
      cases h
      exact .inr ⟨hfraction, rfl, rfl, rfl⟩
  · rintro (⟨c, s, run, hc, rfl, hrun, rfl, rfl, rfl⟩ | ⟨hfraction, rfl, rfl, rfl⟩)
    · rw [fraction_of_digit hc, hrun, Except.map]
    · exact fraction_of_not hfraction

/-! ## Exponents -/

/-- The marker of an exponent with its sign. -/
def IsExponentLead (lead : List Char) : Prop :=
  ∃ marker sign, lead = marker :: sign ∧ (marker = 'e' ∨ marker = 'E') ∧
    (sign = [] ∨ sign = ['+'] ∨ sign = ['-'])

/-- An exponent is at the front. -/
def HasExponent (cs : List Char) : Prop :=
  ∃ lead c s, IsExponentLead lead ∧ cs = lead ++ c :: s ∧ c.isDigit = true

/-- The sign behind the marker of an exponent, and what follows. -/
def splitExponentSign : List Char → List Char × List Char
  | '+' :: s => (['+'], s)
  | '-' :: s => (['-'], s)
  | s => ([], s)

theorem exponent_cons (kind : Kind) (read : List Char) (marker : Char) (r : List Char) :
    exponent kind read (marker :: r) =
      if marker = 'e' ∨ marker = 'E' then
        match (splitExponentSign r).2 with
        | c :: s =>
          if c.isDigit then do
            let run ← digits 10 (read ++ 'e' :: (splitExponentSign r).1) (c :: s)
            .ok (.float, read ++ 'e' :: (splitExponentSign r).1 ++ run, (c :: s).drop run.length)
          else .ok (kind, read, marker :: r)
        | [] => .ok (kind, read, marker :: r)
      else .ok (kind, read, marker :: r) :=
  rfl

theorem splitExponentSign_append (r : List Char) :
    r = (splitExponentSign r).1 ++ (splitExponentSign r).2 ∧
      ((splitExponentSign r).1 = [] ∨ (splitExponentSign r).1 = ['+'] ∨
        (splitExponentSign r).1 = ['-']) := by
  unfold splitExponentSign
  split
  · exact ⟨rfl, .inr (.inl rfl)⟩
  · exact ⟨rfl, .inr (.inr rfl)⟩
  · exact ⟨rfl, .inl rfl⟩

theorem splitExponentSign_of_digit {sign s : List Char} {c : Char}
    (hsign : sign = [] ∨ sign = ['+'] ∨ sign = ['-']) (hc : c.isDigit = true) :
    splitExponentSign (sign ++ c :: s) = (sign, c :: s) := by
  rcases hsign with rfl | rfl | rfl
  · unfold splitExponentSign
    split
    · rename_i heq
      cases heq
      cases hc
    · rename_i heq
      cases heq
      cases hc
    · rfl
  · rfl
  · rfl

theorem exponent_of_not (h : ¬HasExponent cs) :
    exponent kind read cs = .ok (kind, read, cs) := by
  cases cs with
  | nil => rfl
  | cons marker r =>
      rw [exponent_cons]
      split
      · rename_i hmarker
        obtain ⟨hr, hsign⟩ := splitExponentSign_append r
        split
        · rename_i c s hcs
          split
          · rename_i hc
            refine absurd ⟨marker :: (splitExponentSign r).1, c, s, ⟨_, _, rfl, hmarker, hsign⟩,
              ?_, hc⟩ h
            rw [List.cons_append, ← hcs, ← hr]
          · rfl
        · rfl
      · rfl

theorem exponent_of_digit {lead s : List Char} {c : Char} (hlead : IsExponentLead lead)
    (hc : c.isDigit = true) :
    exponent kind read (lead ++ c :: s) =
      (digits 10 (read ++ 'e' :: lead.tail) (c :: s)).map fun run =>
        (.float, read ++ 'e' :: lead.tail ++ run, (c :: s).drop run.length) := by
  obtain ⟨marker, sign, rfl, hmarker, hsign⟩ := hlead
  rw [List.cons_append, exponent_cons, if_pos hmarker, splitExponentSign_of_digit hsign hc]
  dsimp only
  rw [if_pos hc, List.tail_cons]
  cases digits 10 (read ++ 'e' :: sign) (c :: s) <;> rfl

theorem exponent_eq_ok_iff :
    exponent kind read cs = .ok (kind', number, rest) ↔
      (∃ lead c s run, IsExponentLead lead ∧ c.isDigit = true ∧ cs = lead ++ c :: s ∧
        digits 10 (read ++ 'e' :: lead.tail) (c :: s) = .ok run ∧
        kind' = .float ∧ number = read ++ 'e' :: lead.tail ++ run ∧
        rest = (c :: s).drop run.length) ∨
      (¬HasExponent cs ∧ kind' = kind ∧ number = read ∧ rest = cs) := by
  constructor
  · intro h
    by_cases hexponent : HasExponent cs
    · obtain ⟨lead, c, s, hlead, rfl, hc⟩ := hexponent
      rw [exponent_of_digit hlead hc] at h
      obtain ⟨run, hrun, hresult⟩ := map_eq_ok h
      cases hresult
      exact .inl ⟨lead, c, s, run, hlead, hc, rfl, hrun, rfl, rfl, rfl⟩
    · rw [exponent_of_not hexponent] at h
      cases h
      exact .inr ⟨hexponent, rfl, rfl, rfl⟩
  · rintro (⟨lead, c, s, run, hlead, hc, rfl, hrun, rfl, rfl, rfl⟩ | ⟨hexponent, rfl, rfl, rfl⟩)
    · rw [exponent_of_digit hlead hc, hrun, Except.map]
    · exact exponent_of_not hexponent

/-! ## Numbers -/

/-- The unit that ends a number in front of `rest`: the name there, which has to be one, or none. -/
def EndsInUnit (rest unit : List Char) : Prop :=
  (startsName rest = true ∧ unit = rest.takeWhile isNameChar ∧
      UnitSuffix.ofText? (.ofList unit) ≠ none) ∨
    (startsName rest = false ∧ unit = [])

theorem EndsInUnit.isPrefix {unit : List Char} (h : EndsInUnit rest unit) : unit <+: rest := by
  rcases h with ⟨-, rfl, -⟩ | ⟨-, rfl⟩
  · exact List.takeWhile_prefix _
  · exact List.nil_prefix

/-- A decimal number is read part by part: its digits, its fraction, its exponent and its unit. -/
theorem decimalNumber_eq_ok_iff :
    decimalNumber read cs = .ok (kind, number) ↔
      ∃ run kind₁ number₁ rest₁ number₂ rest₂ unit,
        digits 10 read cs = .ok run ∧ ¬(1 < run.length ∧ run.head? = some '0') ∧
        fraction (read ++ run) (cs.drop run.length) = .ok (kind₁, number₁, rest₁) ∧
        exponent kind₁ number₁ rest₁ = .ok (kind, number₂, rest₂) ∧
        EndsInUnit rest₂ unit ∧ number = number₂ ++ unit := by
  constructor
  · intro h
    obtain ⟨run, hrun, h⟩ := bind_eq_ok h
    dsimp only at h
    split at h
    · cases h
    · rename_i hzero
      obtain ⟨⟨kind₁, number₁, rest₁⟩, hfraction, h⟩ := bind_eq_ok h
      obtain ⟨⟨kind₂, number₂, rest₂⟩, hexponent, h⟩ := bind_eq_ok h
      dsimp only at hexponent h
      split at h
      · rename_i hname
        split at h
        · cases h
        · rename_i hunit
          rw [Option.isNone_iff_eq_none] at hunit
          cases h
          exact ⟨_, _, _, _, _, _, _, hrun, hzero, hfraction, hexponent,
            .inl ⟨hname, rfl, hunit⟩, rfl⟩
      · rename_i hname
        cases h
        exact ⟨_, _, _, _, _, _, _, hrun, hzero, hfraction, hexponent,
          .inr ⟨eq_false_of_ne_true hname, rfl⟩, (List.append_nil _).symm⟩
  · rintro ⟨run, kind₁, number₁, rest₁, number₂, rest₂, unit, hrun, hzero, hfraction, hexponent,
      hunit, rfl⟩
    rw [decimalNumber, hrun]
    simp only [ok_bind, if_neg hzero, hfraction, hexponent]
    rcases hunit with ⟨hname, rfl, hunit⟩ | ⟨hname, rfl⟩
    · rw [if_pos hname, if_neg (by rwa [Option.isNone_iff_eq_none])]
      rfl
    · rw [if_neg (ne_true_of_eq_false hname), List.append_nil]
      rfl

/-- A base marker is at the front. -/
def HasBase (cs : List Char) : Prop :=
  ∃ c s base, cs = ['0'] ++ c :: s ∧ baseOf? c = some base

/-- What a number is, before it becomes a lexeme. -/
def scanNumber (sign cs : List Char) : Except (Flaw × List Char) (Kind × List Char) :=
  match cs with
  | '0' :: c :: r =>
    match baseOf? c with
    | some base => basedNumber base (sign ++ ['0', c]) r
    | none => decimalNumber sign cs
  | _ => decimalNumber sign cs

theorem signedNumber_eq (sign cs : List Char) :
    signedNumber sign cs =
      match scanNumber sign cs with
      | .ok (kind, number) => ⟨kind, String.ofList number, number.length⟩
      | .error (flaw, read) => flawed flaw read.length :=
  rfl

theorem exists_of_signedNumber (h : (signedNumber sign cs).kind ≠ .invalid) :
    ∃ kind number, scanNumber sign cs = .ok (kind, number) ∧
      signedNumber sign cs = ⟨kind, String.ofList number, number.length⟩ := by
  rw [signedNumber_eq] at h ⊢
  cases hfound : scanNumber sign cs with
  | error e =>
      rw [hfound] at h
      exact absurd rfl h
  | ok found => exact ⟨found.1, found.2, rfl, rfl⟩

theorem scanNumber_of_base {c : Char} {base : Nat} (h : baseOf? c = some base)
    (sign s : List Char) :
    scanNumber sign ('0' :: c :: s) = basedNumber base (sign ++ ['0', c]) s := by
  rw [scanNumber, h]

theorem scanNumber_of_not (h : ¬HasBase cs) :
    scanNumber sign cs = decimalNumber sign cs := by
  unfold scanNumber
  split
  · split
    · rename_i base hbase
      exact absurd ⟨_, _, base, rfl, hbase⟩ h
    · rfl
  · rfl

theorem scanNumber_eq_ok_iff :
    scanNumber sign cs = .ok (kind, number) ↔
      (∃ c s base, baseOf? c = some base ∧ cs = '0' :: c :: s ∧
        basedNumber base (sign ++ ['0', c]) s = .ok (kind, number)) ∨
      (¬HasBase cs ∧ decimalNumber sign cs = .ok (kind, number)) := by
  by_cases hbased : HasBase cs
  · constructor
    · intro h
      obtain ⟨c, s, base, rfl, hbase⟩ := hbased
      exact .inl ⟨c, s, base, hbase, rfl, scanNumber_of_base hbase sign s ▸ h⟩
    · rintro (⟨c, s, base, hbase, rfl, h⟩ | ⟨hnot, -⟩)
      · rwa [scanNumber_of_base hbase]
      · exact absurd hbased hnot
  · rw [scanNumber_of_not hbased]
    refine ⟨fun h => .inr ⟨hbased, h⟩, ?_⟩
    rintro (⟨c, s, base, hbase, hcs, -⟩ | ⟨-, h⟩)
    · exact absurd ⟨c, s, base, hcs, hbase⟩ hbased
    · exact h

end ConfigLang.Lexeme
