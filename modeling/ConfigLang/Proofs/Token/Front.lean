import Mathlib
import ConfigLang.Proofs.Token.Moments

/-!
# The token at the front does not look past what severs it

`Lexeme.atFront_seam` is what the scanners say, put together: a token that spans no more
than `w` is the same in front of all that severs tokens.  The first characters pick the
scanner; where these are not all in `w`, the scanner that `y` would pick spans more, and
what severs tokens picks none of those.
-/

namespace ConfigLang.Lexeme

open ConfigLang.Text (isBlank)

variable {w y y' : List Char} {last : Option Kind}

/-- The token at the front where its first character alone does not tell what it is. -/
def atPlainFront (last : Option Kind) (c : Char) (cs : List Char) : Lexeme :=
  if c = '\x22' ∨ c = '\x27' then stringBody c [] 1 cs
  else if c = '<' ∧ cs.head? = some '<' ∧ startsLabel (cs.drop 1) then heredoc (cs.drop 1)
  else if c = '-' ∧ startsDigit cs ∧ ¬(last.any Kind.endsOperand) then signedNumber ['-'] cs
  else if c.isDigit then unsigned (c :: cs)
  else if isNameStart c then word (c :: cs)
  else
    match Mark.atFront? (c :: cs) with
    | some m => ⟨.mark m, m.toText, m.spelling.length⟩
    | none => flawed (.unexpectedCharacter c) 1

theorem atFront_eq (last : Option Kind) {c : Char} {cs : List Char}
    (hc : c ≠ '\n' ∧ c ≠ '#' ∧ c ≠ '.' ∧ c ≠ '$' ∧ c ≠ '@')
    (hcomment : c = '/' → cs.head? ≠ some '*') :
    atFront last c cs = atPlainFront last c cs := by
  obtain ⟨hline, hhash, hdot, hdollar, hat⟩ := hc
  unfold atFront
  split
  · exact absurd rfl hline
  · exact absurd rfl hhash
  · exact absurd rfl (hcomment rfl)
  · exact absurd rfl hdot
  · exact absurd rfl hdollar
  · exact absurd rfl hat
  · rfl

/-! ## Marks -/

theorem spelling_cases (m : Mark) :
    (∃ a, m.spelling = [a]) ∨ ∃ a b, m.spelling = [a, b] ∧ Solid b := by
  cases m <;> first
    | exact .inl ⟨_, rfl⟩
    | exact .inr ⟨_, _, rfl, by decide⟩

theorem spelling_of_prefix {c : Char} {m : Mark} (hy' : Severs y')
    (h : m.spelling <+: c :: (w ++ y')) : m.spelling <+: c :: w := by
  rcases spelling_cases m with ⟨a, hm⟩ | ⟨a, b, hm, hb⟩
  · rw [hm] at h ⊢
    exact List.cons_prefix_cons.mpr ⟨(List.cons_prefix_cons.mp h).1, List.nil_prefix⟩
  · rw [hm] at h ⊢
    obtain ⟨hfirst, hsecond⟩ := List.cons_prefix_cons.mp h
    refine List.cons_prefix_cons.mpr ⟨hfirst, ?_⟩
    cases w with
    | cons d w =>
        exact List.cons_prefix_cons.mpr ⟨(List.cons_prefix_cons.mp hsecond).1, List.nil_prefix⟩
    | nil =>
        cases y' with
        | nil => cases List.prefix_nil.mp hsecond
        | cons d cs =>
            have hd := (List.cons_prefix_cons.mp hsecond).1
            exact absurd (hd ▸ hb) (hy'.not_solid rfl)

theorem mark_seam {c : Char} {m : Mark} (hy' : Severs y')
    (h : Mark.atFront? (c :: (w ++ y)) = some m) (hlength : m.spelling.length ≤ w.length + 1) :
    Mark.atFront? (c :: (w ++ y')) = some m := by
  obtain ⟨hm, before, after, hall, hbefore⟩ := List.find?_eq_some_iff_append.mp h
  refine List.find?_eq_some_iff_append.mpr ⟨?_, before, after, hall, fun m' hm' => ?_⟩
  · have hwithin : m.spelling <+: c :: w :=
      List.prefix_of_prefix_length_le (List.isPrefixOf_iff_prefix.mp hm)
        (List.prefix_append (c :: w) y) hlength
    exact List.isPrefixOf_iff_prefix.mpr (hwithin.trans (List.prefix_append (c :: w) y'))
  · have hno := hbefore m' hm'
    -- a mark that is tried before `m` would have to go on in `y'`
    rw [Bool.not_eq_true'] at hno ⊢
    rw [Bool.eq_false_iff] at hno ⊢
    intro hyes
    have hwithin := spelling_of_prefix hy' (List.isPrefixOf_iff_prefix.mp hyes)
    exact hno (List.isPrefixOf_iff_prefix.mpr (hwithin.trans (List.prefix_append (c :: w) y)))

/-! ## The choice of the scanner -/

theorem head?_seam (hy' : Severs y') {c : Char} (hc : Solid c)
    (h : (w ++ y').head? = some c) : (w ++ y).head? = some c := by
  cases w with
  | cons d w => exact h
  | nil => exact absurd hc (hy'.not_solid h)

theorem startsLabel_seam (hy' : Severs y') (h : startsLabel (w ++ y') = true) :
    startsLabel (w ++ y) = true := by
  cases w with
  | cons d w => exact h
  | nil =>
      cases y' with
      | nil => cases h
      | cons c cs =>
          have hc : isNameChar c = true := by
            simp [isNameChar, Char.isAlphanum, Char.isAlpha, show c.isUpper = true from h]
          exact absurd (solid_of_isNameChar hc) (hy'.not_solid rfl)

theorem two_lt_width_heredoc {cs : List Char} (h : (heredoc cs).kind ≠ .invalid) :
    2 < (heredoc cs).width := by
  unfold heredoc at h ⊢
  dsimp only at h ⊢
  generalize (cs.drop (cs.takeWhile isLabelChar).length).takeWhile _ = blanks at h ⊢
  generalize (cs.drop (cs.takeWhile isLabelChar).length).drop blanks.length = rest at h ⊢
  split at h
  · exact absurd rfl h
  · rename_i body
    have hle := le_width_heredocBody (cs.takeWhile isLabelChar) []
      (2 + (cs.takeWhile isLabelChar).length + blanks.length + 1) body
    exact Nat.lt_of_lt_of_le (by omega) hle
  · exact absurd rfl h

theorem lt_width_signedNumber {sign cs : List Char} (h : (signedNumber sign cs).kind ≠ .invalid) :
    sign.length < (signedNumber sign cs).width := by
  obtain ⟨kind, number, hnumber, heq⟩ := exists_of_signedNumber h
  rw [heq]
  change sign.length < number.length
  rcases scanNumber_eq_ok_iff.mp hnumber with ⟨c, s, base, -, -, hbased⟩ | ⟨-, hdecimal⟩
  · have hle := le_spanned_basedNumber base (sign ++ ['0', c]) s
    rw [hbased] at hle
    simp only [spanned, List.length_append, List.length_cons, List.length_nil] at hle
    omega
  · obtain ⟨run, _, _, _, _, _, _, hrun, -⟩ := decimalNumber_eq_ok_iff.mp hdecimal
    have hpos := digits_ok hrun
    have hle := le_spanned_decimalNumber hrun
    rw [hdecimal] at hle
    simp only [spanned] at hle
    omega

theorem startsDigit_seam (hy' : Severs y') (h : startsDigit (w ++ y') = true) :
    startsDigit (w ++ y) = true := by
  cases w with
  | cons d w => exact h
  | nil =>
      rw [List.nil_append, hy'.startsDigit] at h
      cases h

/-- What opens a heredoc behind an angle bracket is not among what severs tokens. -/
theorem opensHeredoc_seam (hy' : Severs y')
    (h : (w ++ y').head? = some '<' ∧ startsLabel ((w ++ y').drop 1) = true) :
    (w ++ y).head? = some '<' ∧ startsLabel ((w ++ y).drop 1) = true := by
  cases w with
  | cons d w => exact ⟨h.1, startsLabel_seam hy' h.2⟩
  | nil => exact absurd (by decide) (hy'.not_solid h.1)

/-- A heredoc that ends within `w` is opened there, since it is longer than what opens it. -/
theorem heredoc_front_seam (hy' : Severs y')
    (hopens : (w ++ y).head? = some '<' ∧ startsLabel ((w ++ y).drop 1) = true)
    (hline : (heredoc ((w ++ y).drop 1)).width = w.length + 1 → EndsLine y → EndsLine y')
    (hvalid : (heredoc ((w ++ y).drop 1)).kind ≠ .invalid)
    (hwidth : (heredoc ((w ++ y).drop 1)).width ≤ w.length + 1) :
    ((w ++ y').head? = some '<' ∧ startsLabel ((w ++ y').drop 1) = true) ∧
      heredoc ((w ++ y').drop 1) = heredoc ((w ++ y).drop 1) := by
  have hlt := two_lt_width_heredoc hvalid
  match w with
  | [] | [d] =>
      simp only [List.length_nil, List.length_singleton] at hwidth
      omega
  | d :: e :: w => exact ⟨hopens, heredoc_seam (w := e :: w) hy' hline hopens.2 hvalid hwidth⟩

/-- A number that ends within `w` starts there, since it is longer than its hyphen. -/
theorem signedNumber_front_seam (hy' : Severs y') (hstarts : startsDigit (w ++ y) = true)
    (hvalid : (signedNumber ['-'] (w ++ y)).kind ≠ .invalid)
    (hwidth : (signedNumber ['-'] (w ++ y)).width ≤ w.length + 1) :
    startsDigit (w ++ y') = true ∧
      signedNumber ['-'] (w ++ y') = signedNumber ['-'] (w ++ y) := by
  cases w with
  | nil =>
      have hlt := lt_width_signedNumber hvalid
      simp only [List.length_nil, List.length_singleton] at hwidth hlt
      omega
  | cons d w => exact ⟨hstarts, signedNumber_seam (w := d :: w) hy' hvalid hwidth⟩

theorem atPlainFront_seam {c : Char} (hy' : Severs y')
    (hline : (atPlainFront last c (w ++ y)).kind = .heredoc →
      (atPlainFront last c (w ++ y)).width = w.length + 1 → EndsLine y → EndsLine y')
    (hvalid : (atPlainFront last c (w ++ y)).kind ≠ .invalid)
    (hwidth : (atPlainFront last c (w ++ y)).width ≤ w.length + 1) :
    atPlainFront last c (w ++ y') = atPlainFront last c (w ++ y) := by
  unfold atPlainFront at hline hvalid hwidth ⊢
  -- the same scanner is picked in front of `y'`, and it gives the same there
  by_cases hquote : c = '\x22' ∨ c = '\x27'
  · simp only [if_pos hquote] at hvalid hwidth ⊢
    exact stringBody_seam w hvalid (hwidth.trans_eq (Nat.add_comm _ _))
  simp only [if_neg hquote] at hline hvalid hwidth ⊢
  by_cases hheredoc : c = '<' ∧ (w ++ y).head? = some '<' ∧ startsLabel ((w ++ y).drop 1) = true
  · rw [if_pos hheredoc] at hline hvalid hwidth ⊢
    have hkind := (gives_heredoc ((w ++ y).drop 1)).resolve_right hvalid
    obtain ⟨hopens, hsame⟩ := heredoc_front_seam hy' hheredoc.2 (hline hkind) hvalid hwidth
    rw [if_pos ⟨hheredoc.1, hopens⟩, hsame]
  rw [if_neg hheredoc] at hvalid hwidth ⊢
  rw [if_neg (mt (And.imp_right (opensHeredoc_seam hy')) hheredoc)]
  by_cases hnumber : c = '-' ∧ startsDigit (w ++ y) = true ∧ ¬(last.any Kind.endsOperand = true)
  · rw [if_pos hnumber] at hvalid hwidth ⊢
    obtain ⟨hstarts, hsame⟩ := signedNumber_front_seam hy' hnumber.2.1 hvalid hwidth
    rw [if_pos ⟨hnumber.1, hstarts, hnumber.2.2⟩, hsame]
  rw [if_neg hnumber] at hvalid hwidth ⊢
  rw [if_neg (mt (And.imp_right (And.imp_left (startsDigit_seam hy'))) hnumber)]
  by_cases hdigit : c.isDigit = true
  · rw [if_pos hdigit] at hvalid hwidth ⊢
    rw [if_pos hdigit]
    exact unsigned_seam (w := c :: w) hy' hvalid hwidth
  rw [if_neg hdigit] at hvalid hwidth ⊢
  rw [if_neg hdigit]
  by_cases hname : isNameStart c = true
  · rw [if_pos hname] at hvalid hwidth ⊢
    rw [if_pos hname]
    exact word_seam (w := c :: w) hy' hwidth
  rw [if_neg hname] at hvalid hwidth ⊢
  rw [if_neg hname]
  cases hmark : Mark.atFront? (c :: (w ++ y)) with
  | none =>
      rw [hmark] at hvalid
      exact absurd rfl hvalid
  | some m =>
      rw [hmark] at hwidth
      rw [mark_seam hy' hmark hwidth]

theorem four_le_width_blockComment {cs : List Char} (h : (blockComment cs).kind ≠ .invalid) :
    4 ≤ (blockComment cs).width := by
  unfold blockComment at h ⊢
  split
  · exact Nat.le_add_left _ _
  · rename_i hnone
    rw [hnone] at h
    exact absurd rfl h

theorem blockComment_front_seam (hcomment : (w ++ y).head? = some '*')
    (hvalid : (atFront last '/' (w ++ y)).kind ≠ .invalid)
    (hwidth : (atFront last '/' (w ++ y)).width ≤ w.length + 1) :
    atFront last '/' (w ++ y') = atFront last '/' (w ++ y) := by
  cases w with
  | nil =>
      cases y with
      | nil => cases hcomment
      | cons d cs =>
          cases hcomment
          -- with its star in `y` the comment would span the slash alone
          have hle := four_le_width_blockComment hvalid
          exact absurd (hle.trans hwidth) (by decide)
  | cons d w =>
      cases hcomment
      exact blockComment_seam hvalid hwidth

/-- **The token at the front does not look past what severs it.**  A comment and a heredoc go on to
the end of their line, so this has to stay where it was if they go up to it. -/
theorem atFront_seam {c : Char} (hy' : Severs y')
    (hline : (atFront last c (w ++ y)).kind = .comment ∨ (atFront last c (w ++ y)).kind = .heredoc →
      (atFront last c (w ++ y)).width = w.length + 1 → EndsLine y → EndsLine y')
    (hvalid : (atFront last c (w ++ y)).kind ≠ .invalid)
    (hwidth : (atFront last c (w ++ y)).width ≤ w.length + 1) :
    atFront last c (w ++ y') = atFront last c (w ++ y) := by
  by_cases hspecial : c = '\n' ∨ c = '#' ∨ c = '.' ∨ c = '$' ∨ c = '@'
  · rcases hspecial with rfl | rfl | rfl | rfl | rfl
    · rfl
    · exact lineComment_seam (hline (.inl rfl)) hwidth
    · exact sigilName_seam hy' hvalid hwidth
    · exact sigilName_seam hy' hvalid hwidth
    · exact sigilName_seam hy' hvalid hwidth
  · simp only [not_or] at hspecial
    by_cases hcomment : c = '/' ∧ (w ++ y).head? = some '*'
    · obtain ⟨rfl, hstar⟩ := hcomment
      exact blockComment_front_seam hstar hvalid hwidth
    · rw [not_and] at hcomment
      have heq := atFront_eq last hspecial hcomment
      have heq' := atFront_eq last hspecial
        fun hc hstar => hcomment hc (head?_seam hy' (by decide) hstar)
      rw [heq] at hline hvalid hwidth ⊢
      rw [heq']
      exact atPlainFront_seam hy' (fun hkind => hline (.inr hkind)) hvalid hwidth

end ConfigLang.Lexeme
