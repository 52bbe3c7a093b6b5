import Mathlib
import ConfigLang.Proofs.Token.Parts

/-!
# The kinds that each scanner gives

A scanner gives tokens of its own family or a malformed one.  So only words are
identifiers, and no scanner gives the end of the text.
-/

namespace ConfigLang.Lexeme

variable {cs : List Char} {lexeme : Lexeme}

/-- A scanner that gives tokens of one kind, if it succeeds. -/
def Gives (kind : Kind) (lexeme : Lexeme) : Prop :=
  lexeme.kind = kind ∨ lexeme.kind = .invalid

theorem gives_flawed (kind : Kind) (flaw : Flaw) (width : Nat) : (flawed flaw width).Gives kind :=
  .inr rfl

theorem gives_lineComment (cs : List Char) : (lineComment cs).Gives .comment :=
  .inl rfl

theorem gives_blockComment (cs : List Char) : (blockComment cs).Gives .comment := by
  unfold blockComment
  split
  · exact .inl rfl
  · exact gives_flawed _ _ _

theorem gives_stringBody (quote : Char) (body : List Char) (width : Nat) (cs : List Char) :
    (stringBody quote body width cs).Gives .string := by
  -- a string goes on behind a character or an escape, and the kind is set where it ends
  fun_induction stringBody quote body width cs with
  | case1 => exact gives_flawed _ _ _
  | case2 => exact .inl rfl
  | case3 => exact gives_flawed _ _ _
  | case4 => assumption
  | case5 => exact gives_flawed _ _ _
  | case6 => assumption

theorem gives_heredocBody (label : List Char) (lines : List (List Char)) (width : Nat)
    (cs : List Char) : (heredocBody label lines width cs).Gives .heredoc := by
  fun_induction heredocBody label lines width cs with
  | case1 => exact gives_flawed _ _ _
  | case2 => exact gives_flawed _ _ _
  | case3 => exact .inl rfl
  | case4 => exact gives_flawed _ _ _
  | case5 => assumption

theorem gives_heredoc (cs : List Char) : (heredoc cs).Gives .heredoc := by
  unfold heredoc
  dsimp only
  split
  · exact gives_flawed _ _ _
  · exact gives_heredocBody _ _ _ _
  · exact gives_flawed _ _ _

theorem gives_sigilName (kind : Kind) (sigil : Char) (cs : List Char) :
    (sigilName kind sigil cs).Gives kind := by
  unfold sigilName
  split
  · exact .inl rfl
  · exact gives_flawed _ _ _

/-! ## Numbers -/

/-- The kinds of numbers. -/
def IsNumber (kind : Kind) : Prop :=
  kind = .integer ∨ kind = .float

theorem isNumber_basedNumber {base : Nat} {read number : List Char} {kind : Kind}
    (h : basedNumber base read cs = .ok (kind, number)) : IsNumber kind := by
  obtain ⟨_, -, -, rfl, -⟩ := basedNumber_eq_ok_iff.mp h
  exact .inl rfl

theorem isNumber_fraction {read number rest : List Char} {kind : Kind}
    (h : fraction read cs = .ok (kind, number, rest)) : IsNumber kind := by
  rcases fraction_eq_ok_iff.mp h with ⟨_, _, _, -, -, -, hkind, -⟩ | ⟨-, hkind, -⟩
  · exact .inr hkind
  · exact .inl hkind

theorem isNumber_exponent {read number rest : List Char} {kind kind' : Kind}
    (hkind : IsNumber kind) (h : exponent kind read cs = .ok (kind', number, rest)) :
    IsNumber kind' := by
  rcases exponent_eq_ok_iff.mp h with ⟨_, _, _, _, -, -, -, -, hfloat, -⟩ | ⟨-, hsame, -⟩
  · exact .inr hfloat
  · rwa [hsame]

theorem isNumber_decimalNumber {read number : List Char} {kind : Kind}
    (h : decimalNumber read cs = .ok (kind, number)) : IsNumber kind := by
  obtain ⟨_, _, _, _, _, _, _, -, -, hfraction, hexponent, -⟩ := decimalNumber_eq_ok_iff.mp h
  exact isNumber_exponent (isNumber_fraction hfraction) hexponent

theorem kind_signedNumber (sign cs : List Char) :
    IsNumber (signedNumber sign cs).kind ∨ (signedNumber sign cs).kind = .invalid := by
  by_cases hvalid : (signedNumber sign cs).kind = .invalid
  · exact .inr hvalid
  obtain ⟨kind, number, hnumber, hlexeme⟩ := exists_of_signedNumber hvalid
  rw [hlexeme]
  rcases scanNumber_eq_ok_iff.mp hnumber with ⟨_, _, _, -, -, hbased⟩ | ⟨-, hdecimal⟩
  · exact .inl (isNumber_basedNumber hbased)
  · exact .inl (isNumber_decimalNumber hdecimal)

theorem kind_moment? (h : moment? cs = some lexeme) :
    lexeme.kind = .dateTime ∨ lexeme.kind = .date ∨ lexeme.kind = .time := by
  simp only [moment?, Option.or_eq_some_iff, Option.map_eq_some_iff] at h
  rcases h with ⟨r, -, rfl⟩ | ⟨-, ⟨r, -, rfl⟩ | ⟨-, r, -, rfl⟩⟩
  · exact .inl rfl
  · exact .inr (.inl rfl)
  · exact .inr (.inr rfl)

/-- A literal that starts with a digit is no name, and it is not the end of the text. -/
theorem kind_unsigned (cs : List Char) :
    (unsigned cs).kind ≠ .identifier ∧ (unsigned cs).kind ≠ .eof := by
  unfold unsigned
  cases h : moment? cs with
  | some lexeme =>
      rcases kind_moment? h with h | h | h <;> rw [Option.getD_some, h] <;> decide
  | none =>
      rcases kind_signedNumber [] cs with (h | h) | h <;> rw [Option.getD_none, h] <;> decide

/-! ## The front of a text -/

theorem kind_word (cs : List Char) : (word cs).kind ≠ .eof := by
  unfold word ofWord
  dsimp only
  repeat' split
  all_goals rintro ⟨⟩

theorem Gives.ne {kind other : Kind} (h : lexeme.Gives kind) (hkind : kind ≠ other)
    (hinvalid : other ≠ .invalid) : lexeme.kind ≠ other := by
  intro heq
  rcases h with h | h
  · exact hkind (h.symm.trans heq)
  · exact hinvalid (heq.symm.trans h)

/-- The kinds that have a scanner of their own, which gives no other. -/
def scannedKinds : List Kind :=
  [.comment, .directive, .localVar, .envVar, .string, .heredoc]

/-- What a lexeme in front of a text may come from. -/
inductive Scanned (c : Char) (cs : List Char) : Lexeme → Prop
  | eol : Scanned c cs ⟨.eol, "\n", 1⟩
  | gives {lexeme : Lexeme} {kind : Kind} (hkind : kind ∈ scannedKinds) (h : lexeme.Gives kind) :
    Scanned c cs lexeme
  | negative (hc : c = '-') : Scanned c cs (signedNumber ['-'] cs)
  | unsigned : Scanned c cs (unsigned (c :: cs))
  | word (hc : isNameStart c = true) : Scanned c cs (word (c :: cs))
  | mark (m : Mark) : Scanned c cs ⟨.mark m, m.toText, m.spelling.length⟩
  | unexpected : Scanned c cs (flawed (.unexpectedCharacter c) 1)

theorem scanned_atFront (last : Option Kind) (c : Char) (cs : List Char) :
    Scanned c cs (atFront last c cs) := by
  unfold atFront
  split
  · exact .eol
  · exact .gives (by decide) (gives_lineComment _)
  · exact .gives (by decide) (gives_blockComment _)
  · exact .gives (by decide) (gives_sigilName .directive _ _)
  · exact .gives (by decide) (gives_sigilName .localVar _ _)
  · exact .gives (by decide) (gives_sigilName .envVar _ _)
  · split
    · exact .gives (by decide) (gives_stringBody _ _ _ _)
    · split
      · exact .gives (by decide) (gives_heredoc _)
      · split
        · rename_i hminus
          exact .negative hminus.1
        · split
          · exact .unsigned
          · split
            · rename_i hc
              exact .word hc
            · split
              · exact .mark _
              · exact .unexpected

/-- **No token at the front of a text is the end of the text.** -/
theorem kind_atFront_ne_eof (last : Option Kind) (c : Char) (cs : List Char) :
    (atFront last c cs).kind ≠ .eof := by
  have h := scanned_atFront last c cs
  generalize atFront last c cs = lexeme at h ⊢
  cases h with
  | eol => decide
  | gives hkind h => exact h.ne (ne_of_mem_of_not_mem hkind (by decide)) (by decide)
  | negative => rcases kind_signedNumber ['-'] cs with (h | h) | h <;> rw [h] <;> decide
  | unsigned => exact (kind_unsigned _).2
  | word => exact kind_word _
  | mark => exact nofun
  | unexpected => exact nofun

end ConfigLang.Lexeme
