import Mathlib
import ConfigLang.Proofs.Token.Front
import ConfigLang.Proofs.Token.Spelling

/-!
# A token spans no more than is left

`Lexeme.width_atFront_le` says that a token that is not malformed spans no more
characters than the text has.  A scanner that counts as it goes has gone past what it
counts; a number is made of the characters that were read of it, one for one.
-/

namespace ConfigLang.Lexeme

open ConfigLang.Text (isBlank)

variable {cs read number : List Char} {kind : Kind}

theorem length_takeWhile_le (p : Char → Bool) (cs : List Char) :
    (cs.takeWhile p).length ≤ cs.length :=
  (List.takeWhile_sublist p).length_le

/-! ## Scanners that count -/

theorem length_blockBody?_le {body found : List Char} (h : blockBody? body cs = some found) :
    found.length + 2 ≤ body.length + cs.length := by
  fun_induction blockBody? body cs with
  | case1 body cs =>
      cases h
      simp
  | case2 body c cs _ ih =>
      have hle := ih h
      simp only [List.length_cons] at hle ⊢
      omega
  | case3 => cases h

theorem width_stringBody_le (quote : Char) (body : List Char) (width : Nat) (cs : List Char) :
    (stringBody quote body width cs).width ≤ width + cs.length := by
  fun_induction stringBody quote body width cs <;> simp_all [flawed] <;> omega

theorem width_heredocBody_le (label : List Char) (lines : List (List Char)) (width : Nat)
    (cs : List Char) : (heredocBody label lines width cs).width ≤ width + cs.length := by
  have hline (cs : List Char) := length_takeWhile_le (· != '\n') cs
  fun_induction heredocBody label lines width cs with
  | case1 lines width cs => exact Nat.le_add_right _ _
  | case2 lines width cs => exact Nat.add_le_add_left (hline cs) _
  | case3 lines width cs => exact Nat.add_le_add_left (hline cs) _
  | case4 lines width cs => exact Nat.add_le_add_left (hline cs) _
  | case5 lines width cs _ line _ c rest hrest ih =>
      -- the end of the line and what is behind it are left of the text
      have hcs := congrArg List.length
        (List.takeWhile_append_dropWhile (p := (· != '\n')) (l := cs))
      rw [hrest, List.length_append, List.length_cons] at hcs
      have hline : line.length = (cs.takeWhile (· != '\n')).length := rfl
      omega

theorem width_heredoc_le (cs : List Char) : (heredoc cs).width ≤ cs.length + 2 := by
  have hlabel := length_takeWhile_le isLabelChar cs
  unfold heredoc
  dsimp only
  have hblanks := length_takeWhile_le (fun c => c != '\n' && isBlank c)
    (cs.drop (cs.takeWhile isLabelChar).length)
  rw [List.length_drop] at hblanks
  generalize (cs.drop (cs.takeWhile isLabelChar).length).takeWhile _ = blanks at hblanks ⊢
  split
  · simp only [flawed]
    omega
  · rename_i body hbody
    have hle := width_heredocBody_le (cs.takeWhile isLabelChar) []
      (2 + (cs.takeWhile isLabelChar).length + blanks.length + 1) body
    have hlength := congrArg List.length hbody
    simp only [List.length_drop, List.length_cons] at hlength
    omega
  · simp only [flawed]
    omega

/-! ## Numbers -/

theorem length_basedNumber {base : Nat} (h : basedNumber base read cs = .ok (kind, number)) :
    number.length ≤ read.length + cs.length := by
  obtain ⟨-, part, hpart, rfl⟩ := basedNumber_keeps h
  rw [List.length_append]
  exact Nat.add_le_add_left hpart.length_le _

/-- A number has as many characters as its scanner goes past. -/
theorem length_decimalNumber (h : decimalNumber read cs = .ok (kind, number)) :
    number.length ≤ read.length + cs.length := by
  obtain ⟨rest, part, rfl, rfl, -⟩ := puts_decimalNumber h
  rw [List.length_append, List.length_map, List.length_append]
  exact Nat.add_le_add_left (Nat.le_add_right _ _) _

theorem width_signedNumber_le {sign : List Char} (h : (signedNumber sign cs).kind ≠ .invalid) :
    (signedNumber sign cs).width ≤ sign.length + cs.length := by
  obtain ⟨kind, number, hnumber, heq⟩ := exists_of_signedNumber h
  rw [heq]
  change number.length ≤ sign.length + cs.length
  rcases scanNumber_eq_ok_iff.mp hnumber with ⟨c, s, base, -, rfl, hbased⟩ | ⟨-, hdecimal⟩
  · have hle := length_basedNumber hbased
    simp only [List.length_append, List.length_cons, List.length_nil] at hle ⊢
    omega
  · exact length_decimalNumber hdecimal

theorem width_moment?_le {lexeme : Lexeme} (h : moment? cs = some lexeme) :
    lexeme.width ≤ cs.length := by
  have hwindow : (cs.take momentWindow).length ≤ cs.length := by
    rw [List.length_take]
    exact Nat.min_le_right _ _
  simp only [moment?, Option.or_eq_some_iff, Option.map_eq_some_iff] at h
  rcases h with ⟨r, -, rfl⟩ | ⟨-, ⟨r, -, rfl⟩ | ⟨-, r, -, rfl⟩⟩ <;>
    exact (Nat.sub_le _ _).trans hwindow

theorem width_unsigned_le (h : (unsigned cs).kind ≠ .invalid) :
    (unsigned cs).width ≤ cs.length := by
  unfold unsigned at h ⊢
  cases hmoment : moment? cs with
  | some lexeme => exact width_moment?_le hmoment
  | none =>
      rw [hmoment] at h
      have hle := width_signedNumber_le h
      rwa [List.length_nil, Nat.zero_add] at hle

/-! ## The front of a text -/

theorem width_sigilName_le (kind : Kind) (sigil : Char) (cs : List Char) :
    (sigilName kind sigil cs).width ≤ cs.length + 1 := by
  unfold sigilName
  split
  · exact Nat.succ_le_succ (length_takeWhile_le _ cs)
  · exact Nat.le_add_left 1 _

theorem width_blockComment_le (cs : List Char) : (blockComment cs).width ≤ cs.length + 2 := by
  unfold blockComment
  split
  · rename_i body hbody
    have hle := length_blockBody?_le hbody
    rw [List.length_nil] at hle
    change body.length + 4 ≤ cs.length + 2
    omega
  · exact le_rfl

theorem length_spelling_le {m : Mark} (h : Mark.atFront? cs = some m) :
    m.spelling.length ≤ cs.length :=
  (List.isPrefixOf_iff_prefix.mp
    (List.find?_some (p := fun m : Mark => m.spelling.isPrefixOf cs) h)).length_le

/-- **A token that is not malformed spans no more than is left.** -/
theorem width_atFront_le {last : Option Kind} {c : Char} {cs : List Char}
    (h : (atFront last c cs).kind ≠ .invalid) : (atFront last c cs).width ≤ cs.length + 1 := by
  revert h
  unfold atFront
  split
  · exact fun _ => Nat.le_add_left 1 _
  · exact fun _ => Nat.succ_le_succ (length_takeWhile_le _ cs)
  · exact fun _ => width_blockComment_le _
  · exact fun _ => width_sigilName_le _ _ _
  · exact fun _ => width_sigilName_le _ _ _
  · exact fun _ => width_sigilName_le _ _ _
  · split
    · exact fun _ => (width_stringBody_le c [] 1 cs).trans_eq (Nat.add_comm _ _)
    · split
      · -- the scanner is given what is behind the second angle bracket
        rename_i hheredoc
        intro _
        have hle := width_heredoc_le (cs.drop 1)
        have hpos : 0 < cs.length := by
          cases cs with
          | nil => cases hheredoc.2.1
          | cons => exact Nat.succ_pos _
        rw [List.length_drop] at hle
        omega
      · split
        · exact fun h => (width_signedNumber_le h).trans_eq (Nat.add_comm _ _)
        · split
          · exact width_unsigned_le
          · split
            · exact fun _ => length_takeWhile_le isNameChar (c :: cs)
            · split
              · exact fun _ => length_spelling_le (by assumption)
              · exact fun _ => Nat.le_add_left 1 _

end ConfigLang.Lexeme
