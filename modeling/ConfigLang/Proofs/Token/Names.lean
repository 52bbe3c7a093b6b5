import Mathlib
import ConfigLang.Parse.Step
import ConfigLang.Proofs.Token.Kinds

/-!
# The text of an identifier is a name

Of all the scanners only that of words gives identifiers, and a word starts with a
character that a name may start with.
-/

namespace ConfigLang

namespace Lexeme

/-- If a lexeme is an identifier, its text is a name. -/
def Proper (lexeme : Lexeme) : Prop :=
  lexeme.kind = .identifier → startsName lexeme.text.toList = true

theorem proper_word {c : Char} (cs : List Char) (hc : isNameStart c = true) :
    (word (c :: cs)).Proper := by
  have hchar : isNameChar c = true := by
    simp only [isNameStart, isNameChar, Char.isAlphanum, Bool.or_eq_true] at hc ⊢
    rcases hc with hc | hc
    · exact .inl (.inl hc)
    · exact .inr hc
  unfold Proper word
  dsimp only
  unfold ofWord
  repeat' split
  case isFalse.isFalse.isFalse.isFalse => simp [startsName, hchar, hc]
  all_goals rintro ⟨⟩

/-- Only a word is an identifier. -/
theorem eq_word_of_identifier {last : Option Kind} {c : Char} {cs : List Char}
    (hkind : (atFront last c cs).kind = .identifier) :
    atFront last c cs = word (c :: cs) ∧ isNameStart c = true := by
  have h := scanned_atFront last c cs
  generalize atFront last c cs = lexeme at h hkind ⊢
  cases h with
  | eol => cases hkind
  | gives hmem h =>
      exact absurd hkind (h.ne (ne_of_mem_of_not_mem hmem (by decide)) (by decide))
  | negative =>
      rcases kind_signedNumber ['-'] cs with (h | h) | h <;> rw [h] at hkind <;> cases hkind
  | unsigned => exact absurd hkind (kind_unsigned _).1
  | word hc => exact ⟨rfl, hc⟩
  | mark => cases hkind
  | unexpected => cases hkind

theorem proper_atFront (last : Option Kind) (c : Char) (cs : List Char) :
    (atFront last c cs).Proper := by
  intro hkind
  obtain ⟨hword, hc⟩ := eq_word_of_identifier hkind
  rw [hword] at hkind ⊢
  exact proper_word cs hc hkind

/-- Every character of an identifier is one of a name. -/
theorem isNameChar_of_identifier {last : Option Kind} {c : Char} {cs : List Char}
    (hkind : (atFront last c cs).kind = .identifier) :
    ∀ d ∈ (atFront last c cs).text.toList, isNameChar d = true := by
  obtain ⟨hword, -⟩ := eq_word_of_identifier hkind
  rw [hword] at hkind ⊢
  have htext : (word (c :: cs)).text = String.ofList ((c :: cs).takeWhile isNameChar) := by
    unfold word at hkind ⊢
    dsimp only at hkind ⊢
    unfold ofWord at hkind ⊢
    split_ifs at hkind ⊢
    rfl
  intro d hd
  rw [htext, String.toList_ofList] at hd
  exact List.mem_takeWhile_imp hd

end Lexeme

/-- If a token is an identifier, its text is a name. -/
def Token.Proper (t : Token) : Prop :=
  t.kind = .identifier → Lexeme.startsName t.text.toList = true

/-- What holds of the end of a text and of what stands at the front of any holds of every token. -/
theorem Lexer.forall_mem_run {P : Token → Prop} (hend : ∀ position, P ⟨.eof, "", position⟩)
    (hfront : ∀ last c cs position,
      P ⟨(Lexeme.atFront last c cs).kind, (Lexeme.atFront last c cs).text, position⟩)
    (l : Lexer) : ∀ t ∈ l.run.1, P t := by
  induction l using Lexer.run.induct with
  | case1 l hrest =>
      rw [run]
      split
      · exact List.forall_mem_singleton.mpr (hend _)
      · rename_i c cs hrest'
        rw [hrest] at hrest'
        cases hrest'
  | case2 l c cs hrest taken tokens stop htokens ih =>
      rw [run]
      split
      · rename_i hrest'
        rw [hrest] at hrest'
        cases hrest'
      · rename_i c' cs' hrest'
        rw [hrest] at hrest'
        cases hrest'
        exact List.forall_mem_cons.mpr ⟨hfront _ _ _ _, ih⟩

theorem Lexer.proper_run (l : Lexer) : ∀ t ∈ l.run.1, t.Proper :=
  l.forall_mem_run (fun _ => nofun) fun last c cs _ => Lexeme.proper_atFront last c cs

/-- **The text of an identifier is a name**, in every text. -/
theorem TokenList.proper (text : String) : ∀ t ∈ (TokenList.ofText text).tokens, t.Proper :=
  fun t hmem => Lexer.proper_run _ t (List.mem_of_mem_dropLast hmem)

/-- Every character of an identifier is one of a name, in every text. -/
theorem TokenList.isNameChar_of_identifier {text : String} {t : Token}
    (ht : t ∈ (TokenList.ofText text).tokens) (hkind : t.kind = .identifier) :
    ∀ c ∈ t.text.toList, Lexeme.isNameChar c = true := by
  have hall := Lexer.forall_mem_run
    (P := fun t => t.kind = .identifier → ∀ c ∈ t.text.toList, Lexeme.isNameChar c = true)
    (fun _ => nofun) fun last c cs _ => Lexeme.isNameChar_of_identifier
  exact hall _ t (List.mem_of_mem_dropLast ht) hkind

end ConfigLang
