import Mathlib
import ConfigLang.Proofs.Token.Coverage
import ConfigLang.Proofs.Token.Span

/-!
# Other characters behind some tokens

`Takes l ts m` says that the tokens `ts` are taken off the text of `l` one after the
other, which leaves `m`.  What is left may be replaced by what severs tokens: the
same tokens are taken, at the same places (`Takes.seam`).

The induction is on the tokens.  One token does not look past what severs it
(`next_seam`, which is `Lexeme.atFront_seam` with the blanks in front); a comment and a
heredoc end with their line, which only the last of the tokens can share with what is
replaced.
-/

namespace ConfigLang.Lexer

open Lexeme (Severs EndsLine)

variable {l m : Lexer} {ts : List Token} {w y y' : List Char}

/-! ## Line breaks -/

theorem normalize_cons {c : Char} (hc : c ≠ '\r') (cs : List Char) :
    normalize (c :: cs) = c :: normalize cs := by
  rw [normalize]
  · rintro _ rfl
    exact absurd rfl hc
  · rintro rfl
    exact absurd rfl hc

theorem normalize_return {cs : List Char} (hcs : cs.head? ≠ some '\n') :
    normalize ('\r' :: cs) = '\n' :: normalize cs := by
  rw [normalize]
  rintro cs rfl
  exact hcs rfl

/-- A part of a text without returns stays as it is. -/
theorem normalize_append_of_ne_return {x : List Char} (hx : ∀ c ∈ x, c ≠ '\r') (z : List Char) :
    normalize (x ++ z) = x ++ normalize z := by
  induction x with
  | nil => rfl
  | cons c x ih =>
      rw [List.cons_append, normalize_cons (hx c List.mem_cons_self),
        ih fun c' hc' => hx c' (List.mem_cons_of_mem _ hc'), List.cons_append]

/-- Line breaks are the same in two parts of a text, unless the parts meet within one. -/
theorem normalize_append {x z : List Char}
    (h : x.getLast? = some '\r' → z.head? ≠ some '\n') :
    normalize (x ++ z) = normalize x ++ normalize z := by
  have hmore {c : Char} {cs : List Char} (hlast : cs.getLast? = some '\r') :
      (c :: cs).getLast? = some '\r' := by
    rw [List.getLast?_cons, hlast]
    rfl
  fun_induction normalize x with
  | case1 cs ih =>
      rw [List.cons_append, List.cons_append, normalize, ih fun hlast => h (hmore (hmore hlast)),
        List.cons_append]
  | case2 cs hcs ih =>
      have hhead : (cs ++ z).head? ≠ some '\n' := by
        cases cs with
        | nil => exact h rfl
        | cons c cs =>
            rintro ⟨⟩
            exact hcs cs rfl
      rw [List.cons_append, normalize_return hhead, ih fun hlast => h (hmore hlast),
        List.cons_append]
  | case3 c cs _ hc ih =>
      rw [List.cons_append, normalize_cons fun heq => hc heq, ih fun hlast => h (hmore hlast),
        List.cons_append]
  | case4 => rfl

/-! ## A hyphen or a digit at the front -/

theorem isGap_of_isDigit {d : Char} (hd : d.isDigit = true) : isGap d = false := by
  have hsolid := Lexeme.solid_of_isNameChar (Lexeme.isNameChar_of_isDigit hd)
  rw [isGap, Bool.and_eq_false_iff]
  exact .inr (Bool.eq_false_iff.mpr fun hblank => Lexeme.not_solid_of_isBlank hblank hsolid)

theorem atFront_hyphen (last : Option Kind) (cs : List Char) :
    Lexeme.atFront last '-' cs =
      if Lexeme.startsDigit cs = true ∧ ¬last.any Kind.endsOperand = true then
        Lexeme.signedNumber ['-'] cs
      else ⟨.mark .minus, "-", 1⟩ := by
  have hmark : Mark.atFront? ('-' :: cs) = some .minus := rfl
  rw [Lexeme.atFront_eq last (by decide) fun h => absurd h (by decide), Lexeme.atPlainFront,
    if_neg (by decide), if_neg (by simp)]
  split
  · rename_i h
    rw [if_pos h.2]
  · rename_i h
    rw [if_neg fun hnumber => h ⟨rfl, hnumber⟩, if_neg (by decide), if_neg (by decide), hmark]
    rfl

theorem atFront_digit {d : Char} (last : Option Kind) (hd : d.isDigit = true) (cs : List Char) :
    Lexeme.atFront last d cs = Lexeme.unsigned (d :: cs) := by
  have hne {c : Char} (hc : c.isDigit = false) : d ≠ c := by
    rintro rfl
    rw [hd] at hc
    cases hc
  rw [Lexeme.atFront_eq last
      ⟨hne (by decide), hne (by decide), hne (by decide), hne (by decide), hne (by decide)⟩
      fun h => absurd h (hne (by decide)),
    Lexeme.atPlainFront, if_neg (not_or.mpr ⟨hne (by decide), hne (by decide)⟩),
    if_neg fun h => hne (by decide) h.1, if_neg fun h => hne (by decide) h.1, if_pos hd]

/-! ## The tokens before the end of the text -/

/-- The tokens before the end of the text. -/
def words (l : Lexer) : List Token :=
  l.run.1.dropLast

theorem run_ne_nil (l : Lexer) : l.run.1 ≠ [] := by
  by_cases h : l.next.1.kind = .eof
  · rw [run_of_eof h]
    exact List.cons_ne_nil _ _
  · rw [run_of_ne_eof h]
    exact List.cons_ne_nil _ _

theorem words_of_nil (h : l.skipBlanks.rest = []) : l.words = [] := by
  have hkind : l.next.1.kind = .eof := by
    rw [next_of_nil h]
    rfl
  rw [words, run_of_eof hkind]
  rfl

theorem words_of_ne_eof (h : l.next.1.kind ≠ .eof) : l.words = l.next.1 :: l.next.2.words := by
  rw [words, run_of_ne_eof h]
  exact List.dropLast_cons_of_ne_nil (run_ne_nil _)

theorem next_ne_eof {c : Char} {cs : List Char} (h : l.skipBlanks.rest = c :: cs) :
    l.next.1.kind ≠ .eof := by
  rw [next_of_cons h]
  exact Lexeme.kind_atFront_ne_eof _ _ _

theorem rest_next {c : Char} {cs : List Char} (h : l.skipBlanks.rest = c :: cs) :
    l.next.2.rest = (c :: cs).drop (Lexeme.atFront l.last c cs).width := by
  rw [next_of_cons h, take, skip, h]

/-- Tokens are taken off the front of a text one after the other. -/
inductive Takes : Lexer → List Token → Lexer → Prop
  | nil (l : Lexer) : Takes l [] l
  | cons {l m : Lexer} {ts : List Token} (hkind : l.next.1.kind ≠ .eof)
      (h : Takes l.next.2 ts m) : Takes l (l.next.1 :: ts) m

namespace Takes

theorem words (h : Takes l ts m) : l.words = ts ++ m.words := by
  induction h with
  | nil => rfl
  | cons hkind _ ih => rw [words_of_ne_eof hkind, ih, List.cons_append]

theorem length_rest_le (h : Takes l ts m) : m.rest.length ≤ l.rest.length := by
  induction h with
  | nil => exact le_rfl
  | cons hkind _ ih => exact ih.trans (length_next_lt hkind).le

theorem length_rest_lt (h : Takes l ts m) (hts : ts ≠ []) : m.rest.length < l.rest.length := by
  cases h with
  | nil => exact absurd rfl hts
  | cons hkind h => exact h.length_rest_le.trans_lt (length_next_lt hkind)

end Takes

/-! ## One token in front of a seam -/

/-- The lexer in front of other characters. -/
def withRest (cs : List Char) (l : Lexer) : Lexer :=
  { l with rest := cs }

theorem skipBlanks_withRest {c : Char} {v : List Char} (h : w.dropWhile isGap = c :: v)
    (l : Lexer) (z : List Char) :
    (l.withRest (w ++ z)).skipBlanks =
      ⟨c :: (v ++ z), l.position.after (w.takeWhile isGap), l.last⟩ := by
  have hsplit : w = w.takeWhile isGap ++ c :: v := by
    rw [← h, List.takeWhile_append_dropWhile]
  have hc : isGap c = false := by
    have hhead := List.head_dropWhile_not isGap (l := w) (by rw [h]; exact List.cons_ne_nil _ _)
    simpa [h] using hhead
  have hrun : (w ++ z).takeWhile isGap = w.takeWhile isGap := by
    conv_lhs => rw [hsplit, List.append_assoc]
    rw [List.takeWhile_append_of_pos fun a ha => List.mem_takeWhile_imp ha, List.cons_append,
      List.takeWhile_cons_of_neg (by simp [hc]), List.append_nil]
  have hdrop : (w ++ z).drop (w.takeWhile isGap).length = c :: (v ++ z) := by
    conv_lhs => arg 2; rw [hsplit, List.append_assoc]
    exact List.drop_left
  have htake : (w ++ z).take (w.takeWhile isGap).length = w.takeWhile isGap := by
    conv_lhs => arg 2; rw [hsplit, List.append_assoc]
    exact List.take_left
  rw [skipBlanks, skip, withRest]
  simp only [hrun, hdrop, htake]

/-- What is behind some blanks, if it starts in front of a seam. -/
theorem dropWhile_seam {p : Char → Bool} {c : Char} {cs : List Char}
    (h : (w ++ y).dropWhile p = c :: cs) (hlength : y.length ≤ cs.length) :
    ∃ v, w.dropWhile p = c :: v ∧ cs = v ++ y := by
  rw [List.dropWhile_append] at h
  split at h
  · have hle := (List.dropWhile_sublist p (l := y)).length_le
    rw [h, List.length_cons] at hle
    omega
  · cases hw : w.dropWhile p with
    | nil =>
        rename_i hempty
        exact absurd (by rw [hw]; rfl) hempty
    | cons d v =>
        rw [hw] at h
        cases h
        exact ⟨v, rfl, rfl⟩

/-- **One token in front of a seam** is the same in front of all that severs tokens. -/
theorem next_seam (hl : l.rest = w ++ y) (hy' : Severs y') (hkind : l.next.1.kind ≠ .eof)
    (hvalid : l.next.1.kind ≠ .invalid) (hwithin : y.length ≤ l.next.2.rest.length)
    (hline : l.next.1.kind = .comment ∨ l.next.1.kind = .heredoc →
      l.next.2.rest = y → EndsLine y → EndsLine y') :
    ∃ v, l.next.2.rest = v ++ y ∧
      (l.withRest (w ++ y')).next = (l.next.1, l.next.2.withRest (v ++ y')) := by
  cases hcs : l.skipBlanks.rest with
  | nil =>
      rw [next_of_nil hcs] at hkind
      exact absurd rfl hkind
  | cons c cs =>
      have hrest := rest_next hcs
      have hpos := Lexeme.atFront_width_pos l.last c cs
      have hlength : y.length ≤ cs.length := by
        rw [hrest, List.length_drop, List.length_cons] at hwithin
        omega
      -- the blanks and the first character of the token are in front of the seam
      obtain ⟨v, hv, rfl⟩ := dropWhile_seam (hl ▸ rest_skipBlanks l ▸ hcs) hlength
      have hskip := skipBlanks_withRest hv l
      have hself : l.withRest (w ++ y) = l := by rw [← hl]; rfl
      have hskip₀ := hskip y
      rw [hself] at hskip₀
      have hnext := next_of_cons hcs
      have hnext' : (l.withRest (w ++ y')).next =
          (l.withRest (w ++ y')).skipBlanks.take (Lexeme.atFront l.last c (v ++ y')) :=
        next_of_cons (by rw [hskip])
      rw [hnext] at hvalid hline
      have hwidth : (Lexeme.atFront l.last c (v ++ y)).width ≤ (c :: v).length := by
        have hle := Lexeme.width_atFront_le hvalid
        rw [hrest, List.length_drop, List.length_cons] at hwithin
        rw [List.length_append] at hwithin hle
        rw [List.length_cons]
        omega
      have hsame : Lexeme.atFront l.last c (v ++ y') = Lexeme.atFront l.last c (v ++ y) := by
        refine Lexeme.atFront_seam hy' (fun hk heq => hline hk ?_) hvalid hwidth
        rw [← hnext, hrest, heq]
        exact (List.drop_left : (c :: v ++ y).drop (c :: v).length = y)
      rw [hskip, hsame] at hnext'
      rw [hskip₀] at hnext
      generalize Lexeme.atFront l.last c (v ++ y) = lexeme at *
      have hdrop (z : List Char) :
          (c :: (v ++ z)).drop lexeme.width = (c :: v).drop lexeme.width ++ z :=
        List.drop_append_of_le_length hwidth
      have htake (z : List Char) : (c :: (v ++ z)).take lexeme.width = (c :: v).take lexeme.width :=
        List.take_append_of_le_length hwidth
      refine ⟨(c :: v).drop lexeme.width, hrest.trans (hdrop y), ?_⟩
      rw [hnext, hnext', take, take, skip, skip, withRest]
      simp only [hdrop, htake]

/-! ## Many tokens -/

/-- **Tokens in front of a seam** are the same in front of all that severs tokens.  If the last of
them is a comment or a heredoc, its line has to end where it did. -/
theorem Takes.seam (h : Takes l ts m) (hvalid : ∀ t ∈ ts, t.kind ≠ .invalid)
    (hl : l.rest = w ++ y) (hm : m.rest = y) (hy' : Severs y')
    (hline : ∀ t ∈ ts.getLast?, t.kind = .comment ∨ t.kind = .heredoc → EndsLine y → EndsLine y') :
    Takes (l.withRest (w ++ y')) ts (m.withRest y') := by
  induction h generalizing w with
  | nil l =>
      obtain rfl : w = [] := by
        rw [hm] at hl
        exact (List.self_eq_append_left.mp hl)
      exact .nil _
  | @cons l m ts hkind h ih =>
      have hlength : y.length ≤ l.next.2.rest.length := hm ▸ h.length_rest_le
      -- a token that ends at the seam is the last one
      have hlast : l.next.2.rest = y → ts = [] := by
        intro heq
        by_contra hne
        have hlt := h.length_rest_lt hne
        rw [heq, hm] at hlt
        exact lt_irrefl _ hlt
      obtain ⟨v, hv, hnext⟩ := next_seam hl hy' hkind (hvalid _ List.mem_cons_self) hlength
        fun hk heq => hline _ (by rw [hlast heq]; rfl) hk
      have hrest : Takes (l.next.2.withRest (v ++ y')) ts (m.withRest y') := by
        refine ih (fun t ht => hvalid t (List.mem_cons_of_mem _ ht)) hv hm fun t ht => hline t ?_
        cases ts with
        | nil => cases ht
        | cons u us => rwa [List.getLast?_cons_cons]
      have hcons : Takes (l.withRest (w ++ y')) ((l.withRest (w ++ y')).next.1 :: ts)
          (m.withRest y') := by
        refine .cons ?_ ?_
        · rw [hnext]
          exact hkind
        · rw [hnext]
          exact hrest
      rwa [hnext] at hcons

/-! ## A place in a text -/

theorem Takes.exists_rest (h : Takes l ts m) : ∃ w, l.rest = w ++ m.rest := by
  induction h with
  | nil => exact ⟨[], rfl⟩
  | cons hkind _ ih =>
      obtain ⟨p, hp, -⟩ := next_piece hkind
      obtain ⟨w, hw⟩ := ih
      exact ⟨p.chars ++ w, by rw [hp, hw, List.append_assoc]⟩

/-- Blanks in front of what severs tokens sever them too. -/
theorem severs_gap {gap : List Char} (hgap : ∀ c ∈ gap, isGap c = true) (h : Severs y') :
    Severs (gap ++ y') := by
  induction gap with
  | nil => exact h
  | cons c cs ih =>
      have hc := Bool.and_eq_true_iff.mp (hgap c List.mem_cons_self)
      have hcs := ih fun c' hc' => hgap c' (List.mem_cons_of_mem _ hc')
      exact .inr ⟨.inl hc.2, hcs.startsDigit⟩

/-- **Tokens in front of a place in a text** are the same with other characters behind the place,
if these sever tokens.  If the last of them is a comment or a heredoc, its line has to end where it
did. -/
theorem Takes.splice {x z z' : List Char} (h : Takes (ofText (.ofList (x ++ z))) ts m)
    (hvalid : ∀ t ∈ ts, t.kind ≠ .invalid) (hrest : m.skipBlanks.rest = normalize z)
    (hz : x.getLast? = some '\r' → z.head? ≠ some '\n')
    (hz' : x.getLast? = some '\r' → z'.head? ≠ some '\n') (hsevers : Severs (normalize z'))
    (hline : ∀ t ∈ ts.getLast?, t.kind = .comment ∨ t.kind = .heredoc →
      EndsLine (normalize z) → EndsLine (normalize z')) :
    ∃ gap, (∀ c ∈ gap, isGap c = true) ∧ m.rest = gap ++ normalize z ∧
      Takes (ofText (.ofList (x ++ z'))) ts (m.withRest (gap ++ normalize z')) := by
  obtain ⟨w, hw⟩ := h.exists_rest
  have htext (v : List Char) (hv : x.getLast? = some '\r' → v.head? ≠ some '\n') :
      (ofText (.ofList (x ++ v))).rest = normalize x ++ normalize v := by
    rw [ofText, String.toList_ofList, normalize_append hv]
  have hm : m.rest = m.rest.takeWhile isGap ++ normalize z := by
    rw [← hrest, rest_skipBlanks, List.takeWhile_append_dropWhile]
  have hgap : ∀ c ∈ m.rest.takeWhile isGap, isGap c = true := fun c hc => List.mem_takeWhile_imp hc
  generalize m.rest.takeWhile isGap = gap at hm hgap
  refine ⟨gap, hgap, hm, ?_⟩
  -- the blanks before the place belong to what is in front of it
  have hx : normalize x = w ++ gap := by
    rw [htext z hz, hm, ← List.append_assoc] at hw
    exact List.append_cancel_right hw
  have hl : (ofText (.ofList (x ++ z))).rest = w ++ (gap ++ normalize z) := by
    rw [htext z hz, hx, List.append_assoc]
  have htakes := h.seam hvalid hl hm (severs_gap hgap hsevers) ?_
  · have hself : ofText (.ofList (x ++ z')) =
        (ofText (.ofList (x ++ z))).withRest (normalize x ++ normalize z') := by
      rw [← htext z' hz']
      rfl
    rwa [hself, hx, List.append_assoc]
  · intro t ht hkind hends
    cases gap with
    | nil => exact hline t ht hkind hends
    | cons c cs =>
        have hc := hgap c List.mem_cons_self
        rw [hends c rfl] at hc
        cases hc

end ConfigLang.Lexer
