import ConfigLang.Token.Lexeme

/-!
# Every lexeme spans a character

`Lexeme.atFront_width_pos` says that the token at the front of a text spans at least one
character, malformed tokens included, so taking tokens off a text comes to an end.

The scanners that count as they go never fall below the count they start with; a number is at
least as long as what was read of it; and a pattern that matches leaves a shorter text.
-/

namespace ConfigLang.Lexeme

/-! ## Scanners that count -/

theorem le_width_stringBody (quote : Char) (body : List Char) (width : Nat) (cs : List Char) :
    width ≤ (stringBody quote body width cs).width := by
  fun_induction stringBody quote body width cs <;> simp_all [flawed] <;> omega

theorem le_width_heredocBody (label : List Char) (lines : List (List Char)) (width : Nat)
    (cs : List Char) : width ≤ (heredocBody label lines width cs).width := by
  fun_induction heredocBody label lines width cs with
  | case1 => exact Nat.le_refl _
  | case2 => exact Nat.le_add_right _ _
  | case3 => exact Nat.le_add_right _ _
  | case4 => exact Nat.le_add_right _ _
  | case5 => omega

theorem width_heredoc_pos (cs : List Char) : 0 < (heredoc cs).width := by
  unfold heredoc
  dsimp only
  split
  · simp only [flawed]; omega
  · exact Nat.lt_of_lt_of_le (by omega) (le_width_heredocBody _ _ _ _)
  · simp only [flawed]; omega

theorem width_blockComment_pos (cs : List Char) : 0 < (blockComment cs).width := by
  unfold blockComment
  split <;> simp [flawed]

/-! ## Numbers -/

theorem digits_ok {base : Nat} {read cs run : List Char} (h : digits base read cs = .ok run) :
    0 < run.length := by
  unfold digits at h
  dsimp only at h
  split at h
  · simp at h
  · split at h
    · simp at h
    · rename_i hne _
      cases h
      exact List.length_pos_iff.2 (by simpa using hne)

theorem digits_error {base : Nat} {read cs : List Char} {flaw : Flaw} {seen : List Char}
    (h : digits base read cs = .error (flaw, seen)) : read.length ≤ seen.length := by
  unfold digits at h
  dsimp only at h
  split at h
  · cases h; exact Nat.le_refl _
  · split at h
    · cases h; simp
    · simp at h

/-- The number of characters that a scanner of numbers went past, whether it succeeded or not. -/
def spanned {α : Type} (size : α → Nat) : Except (Flaw × List Char) α → Nat
  | .ok a => size a
  | .error (_, seen) => seen.length

/-- A scanner that goes on behind digits has gone past what was read before them. -/
theorem le_spanned_bind_digits {α : Type} {size : α → Nat} {base n : Nat} {read cs : List Char}
    {next : List Char → Except (Flaw × List Char) α} (hread : n ≤ read.length)
    (hnext : ∀ run, n ≤ spanned size (next run)) :
    n ≤ spanned size (digits base read cs >>= next) := by
  cases h : digits base read cs with
  | error e => exact Nat.le_trans hread (digits_error h)
  | ok run => exact hnext run

theorem le_spanned_basedNumber (base : Nat) (read cs : List Char) :
    read.length ≤ spanned (·.2.length) (basedNumber base read cs) := by
  refine le_spanned_bind_digits (Nat.le_refl _) fun run => ?_
  split
  · split <;> simp [spanned]
  · simp [spanned]

theorem le_spanned_fraction (read cs : List Char) :
    read.length ≤ spanned (·.2.1.length) (fraction read cs) := by
  unfold fraction
  split
  · split
    · exact le_spanned_bind_digits (by simp) fun run => by simp [spanned]
    · simp [spanned]
  · simp [spanned]

theorem le_spanned_exponent (kind : Kind) (read cs : List Char) :
    read.length ≤ spanned (·.2.1.length) (exponent kind read cs) := by
  unfold exponent
  split
  · split
    · dsimp only
      split
      · split
        · exact le_spanned_bind_digits (by simp) fun run => by simp [spanned]
        · simp [spanned]
      · simp [spanned]
    · simp [spanned]
  · simp [spanned]

theorem le_spanned_decimalNumber {read cs run : List Char} (h : digits 10 read cs = .ok run) :
    read.length + run.length ≤ spanned (·.2.length) (decimalNumber read cs) := by
  unfold decimalNumber
  rw [h]
  simp only [bind, Except.bind]
  split
  · simp [throw, throwThe, MonadExceptOf.throw, spanned]
  · simp only [pure, Except.pure]
    have hf := le_spanned_fraction (read ++ run) (cs.drop run.length)
    cases hfr : fraction (read ++ run) (cs.drop run.length) with
    | error e =>
      rw [hfr] at hf
      simp only [spanned, List.length_append] at hf ⊢
      omega
    | ok f =>
      obtain ⟨kind, number, rest⟩ := f
      rw [hfr] at hf
      simp only [spanned, List.length_append] at hf
      dsimp only
      have he := le_spanned_exponent kind number rest
      cases hex : exponent kind number rest with
      | error e =>
        rw [hex] at he
        simp only [spanned] at he ⊢
        omega
      | ok e =>
        obtain ⟨kind, number', rest⟩ := e
        rw [hex] at he
        simp only [spanned] at he
        dsimp only
        split
        · split
          · simp [throw, throwThe, MonadExceptOf.throw, spanned]
            omega
          · simp [spanned]
            omega
        · simp only [spanned]
          omega

theorem isDigitOf_ten {c : Char} (h : c.isDigit = true) : isDigitOf 10 c = true := by
  simp only [Char.isDigit, Bool.and_eq_true, decide_eq_true_eq, ge_iff_le,
    UInt32.le_iff_toNat_le] at h
  have hn : c.toNat = c.val.toNat := rfl
  have h48 : '0'.val.toNat = 48 := rfl
  have h57 : '9'.val.toNat = 57 := rfl
  simp only [isDigitOf, Bool.or_eq_true, Bool.and_eq_true, decide_eq_true_eq]
  omega

/-- A number goes past its sign, and past a digit if it starts with one. -/
theorem spanned_decimalNumber_pos {read cs : List Char} (h : read ≠ [] ∨ startsDigit cs = true) :
    0 < spanned (·.2.length) (decimalNumber read cs) := by
  cases hd : digits 10 read cs with
  | ok run => have := le_spanned_decimalNumber hd; have := digits_ok hd; omega
  | error e =>
    obtain ⟨flaw, seen⟩ := e
    have hlen := digits_error hd
    have : spanned (·.2.length) (decimalNumber read cs) = seen.length := by
      simp [decimalNumber, hd, bind, Except.bind, spanned]
    rw [this]
    rcases h with h | h
    · have := List.length_pos_iff.2 h; omega
    · cases cs with
      | nil => simp [startsDigit] at h
      | cons c cs =>
        have hc := isDigitOf_ten (show c.isDigit = true from h)
        simp only [digits, List.takeWhile_cons, hc, Bool.true_or, ↓reduceIte, List.isEmpty_cons,
          Bool.false_eq_true] at hd
        split at hd
        · cases hd; simp only [List.length_append, List.length_cons]; omega
        · simp at hd

theorem width_signedNumber (sign cs : List Char) :
    (signedNumber sign cs).width =
      spanned (·.2.length)
        (match cs with
          | '0' :: c :: r =>
            match baseOf? c with
            | some base => basedNumber base (sign ++ ['0', c]) r
            | none => decimalNumber sign cs
          | _ => decimalNumber sign cs) := by
  unfold signedNumber
  dsimp only
  split
  · rename_i h
    exact (congrArg (spanned (·.2.length)) h).symm
  · rename_i h
    exact (congrArg (spanned (·.2.length)) h).symm

theorem width_signedNumber_pos {sign cs : List Char} (h : sign ≠ [] ∨ startsDigit cs = true) :
    0 < (signedNumber sign cs).width := by
  have hdecimal := spanned_decimalNumber_pos h
  rw [width_signedNumber]
  split
  · rename_i c r
    split
    · rename_i base _
      have hle := le_spanned_basedNumber base (sign ++ ['0', c]) r
      simp only [List.length_append, List.length_cons] at hle
      omega
    · exact hdecimal
  · exact hdecimal

/-! ## Calendar literals -/

theorem length_behindDigits? {n : Nat} {cs r : List Char} (h : behindDigits? n cs = some r) :
    cs.length = r.length + n := by
  fun_induction behindDigits? n cs with
  | case1 =>
    cases h
    rfl
  | case2 n c cs _ ih => exact congrArg (· + 1) (ih h)
  | case3 => cases h
  | case4 => cases h

theorem length_behind? {wanted : Char → Bool} {cs r : List Char} (h : behind? wanted cs = some r) :
    cs.length = r.length + 1 := by
  unfold behind? at h
  split at h
  · split at h
    · cases h; rfl
    · simp at h
  · simp at h

theorem length_behindMinutes? {cs r : List Char} (h : behindMinutes? cs = some r) :
    cs.length = r.length + 5 := by
  simp only [behindMinutes?, Option.bind_eq_bind, Option.bind_eq_some_iff] at h
  obtain ⟨a, ha, b, hb, hr⟩ := h
  have := length_behindDigits? ha
  have := length_behind? hb
  have := length_behindDigits? hr
  omega

theorem length_behindDate? {cs r : List Char} (h : behindDate? cs = some r) :
    cs.length = r.length + 10 := by
  simp only [behindDate?, Option.bind_eq_bind, Option.bind_eq_some_iff] at h
  obtain ⟨a, ha, b, hb, c, hc, d, hd, hr⟩ := h
  have := length_behindDigits? ha
  have := length_behind? hb
  have := length_behindDigits? hc
  have := length_behind? hd
  have := length_behindDigits? hr
  omega

theorem length_behindFraction_le (cs : List Char) : (behindFraction cs).length ≤ cs.length := by
  unfold behindFraction
  split
  · rename_i c r
    split
    · have := (List.dropWhile_sublist (l := r) Char.isDigit).length_le
      simp only [List.length_cons]
      omega
    · exact Nat.le_refl _
  · exact Nat.le_refl _

theorem length_behindSeconds_le (cs : List Char) : (behindSeconds cs).length ≤ cs.length := by
  unfold behindSeconds
  split
  · rename_i r h
    simp only [Option.bind_eq_bind, Option.bind_eq_some_iff] at h
    obtain ⟨a, ha, hr⟩ := h
    have := length_behind? ha
    have := length_behindDigits? hr
    have := length_behindFraction_le r
    omega
  · exact Nat.le_refl _

theorem length_behindZone_le (cs : List Char) : (behindZone cs).length ≤ cs.length := by
  unfold behindZone
  split
  · simp
  · split
    · rename_i c cs _ _
      cases h : behindMinutes? cs with
      | none => simp
      | some r => have := length_behindMinutes? h; simp; omega
    · exact Nat.le_refl _
  · exact Nat.le_refl _

theorem length_behindTime?_lt {cs r : List Char} (h : behindTime? cs = some r) :
    r.length < cs.length := by
  simp only [behindTime?, Option.map_eq_some_iff] at h
  obtain ⟨a, ha, rfl⟩ := h
  have := length_behindMinutes? ha
  have := length_behindSeconds_le a
  have := length_behindZone_le (behindSeconds a)
  omega

theorem length_behindDateTime?_lt {cs r : List Char} (h : behindDateTime? cs = some r) :
    r.length < cs.length := by
  simp only [behindDateTime?, Option.bind_eq_bind, Option.bind_eq_some_iff] at h
  obtain ⟨a, ha, b, hb, hr⟩ := h
  have := length_behindDate? ha
  have := length_behind? hb
  have := length_behindTime?_lt hr
  omega

theorem width_moment?_pos {cs : List Char} {lexeme : Lexeme} (h : moment? cs = some lexeme) :
    0 < lexeme.width := by
  simp only [moment?, Option.or_eq_some_iff, Option.map_eq_some_iff] at h
  rcases h with ⟨r, hr, rfl⟩ | ⟨_, ⟨r, hr, rfl⟩ | ⟨_, r, hr, rfl⟩⟩
  · have := length_behindDateTime?_lt hr; dsimp only; omega
  · have := length_behindDate? hr; dsimp only; omega
  · have := length_behindTime?_lt hr; dsimp only; omega

/-! ## The front of a text -/

theorem width_unsigned_pos {cs : List Char} (h : startsDigit cs = true) :
    0 < (unsigned cs).width := by
  unfold unsigned
  cases hm : moment? cs with
  | some lexeme => exact width_moment?_pos hm
  | none => exact width_signedNumber_pos (.inr h)

theorem width_word_pos {c : Char} (cs : List Char) (h : isNameStart c = true) :
    0 < (word (c :: cs)).width := by
  have : isNameChar c = true := by
    simp only [isNameStart, isNameChar, Char.isAlphanum, Bool.or_eq_true] at h ⊢
    rcases h with h | h
    · exact .inl (.inl h)
    · exact .inr h
  simp [word, this]

theorem width_sigilName_pos (kind : Kind) (sigil : Char) (cs : List Char) :
    0 < (sigilName kind sigil cs).width := by
  unfold sigilName
  split <;> simp [flawed]

theorem spelling_length_pos (m : Mark) : 0 < m.spelling.length := by
  cases m <;> decide

/-- The token at the front of a text spans at least one character. -/
theorem atFront_width_pos (last : Option Kind) (c : Char) (cs : List Char) :
    0 < (atFront last c cs).width := by
  unfold atFront
  split
  · decide
  · simp [lineComment]
  · exact width_blockComment_pos _
  · exact width_sigilName_pos _ _ _
  · exact width_sigilName_pos _ _ _
  · exact width_sigilName_pos _ _ _
  · split
    · exact Nat.lt_of_lt_of_le (by decide) (le_width_stringBody _ _ 1 _)
    · split
      · exact width_heredoc_pos _
      · split
        · exact width_signedNumber_pos (.inl (by simp))
        · split
          · rename_i h; exact width_unsigned_pos h
          · split
            · rename_i h; exact width_word_pos _ h
            · split
              · exact spelling_length_pos _
              · simp [flawed]

end ConfigLang.Lexeme
