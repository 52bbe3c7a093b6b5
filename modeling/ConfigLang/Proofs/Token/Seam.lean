import Mathlib
import ConfigLang.Proofs.Token.Kinds
import ConfigLang.Token.Width

/-!
# Scanners do not look past what severs a token

A token is read off a text `w ++ y` and spans no more than `w`.  If `y'` severs tokens,
which is to say that none goes on with it, then the same token is read off `w ++ y'`.
This file says so for names, comments, strings and heredocs.

## Strategy

* **Runs.**  A run of characters of a class that ends within `w`, or right behind it, is
  the same in front of `y'` (`takeWhile_seam`).  Words and names are runs
  (`word_seam`, `sigilName_seam`), and the classes are of solid characters, which what
  severs tokens does not start with (`Severs.not_solid`).
* **Scanners that count.**  Strings, comments and heredocs grow with every character that
  they go past, so one that spans no more than `w` has found its end there
  (`stringBody_seam`, `blockComment_seam`).  A comment up to the end of a line needs `y'`
  to end the line if `y` did (`lineComment_seam`).
* **Heredocs.**  The body is taken line by line: `heredocBody_unterminated`,
  `heredocBody_line` and `heredocBody_close` are its three cases, and `heredocBody_seam`
  goes by the lines of `w`.
* **Leads.**  Numbers and calendar literals have parts that start with a character such
  as a point if a digit follows; `exists_of_lead` says that the two are not parted.
-/

namespace ConfigLang.Lexeme

open ConfigLang.Text (isBlank trim)

/-- Characters that no token goes on with: the end of the text, the end of a line, or a blank or a
hyphen without a digit behind it. -/
def Severs : List Char → Prop
  | [] => True
  | c :: cs => c = '\n' ∨ (isBlank c = true ∨ c = '-') ∧ startsDigit cs = false

/-- The text ends or a line does. -/
def EndsLine (cs : List Char) : Prop :=
  ∀ c ∈ cs.head?, c = '\n'

variable {w y y' : List Char}

/-! ## The first character of what severs tokens -/

/-- The printable characters of ASCII but the hyphen and the space. -/
def Solid (c : Char) : Prop :=
  32 < c.toNat ∧ c.toNat < 127 ∧ c ≠ '-'

instance : DecidablePred Solid :=
  fun c => inferInstanceAs (Decidable (32 < c.toNat ∧ c.toNat < 127 ∧ c ≠ '-'))

theorem not_solid_of_isBlank {c : Char} (h : isBlank c = true) : ¬Solid c := by
  simp only [isBlank, Bool.or_eq_true, Bool.and_eq_true, decide_eq_true_eq, beq_iff_eq] at h
  rintro ⟨hlow, hhigh, -⟩
  omega

theorem Severs.not_solid (h : Severs y') {c : Char} (hc : c ∈ y'.head?) : ¬Solid c := by
  cases y' with
  | nil => cases hc
  | cons c' cs =>
      cases hc
      rcases h with rfl | ⟨hblank | rfl, -⟩
      · exact fun hsolid => absurd hsolid.1 (by decide)
      · exact not_solid_of_isBlank hblank
      · exact fun hsolid => hsolid.2.2 rfl

theorem solid_of_isNameChar {c : Char} (h : isNameChar c = true) : Solid c := by
  simp only [isNameChar, Char.isAlphanum, Char.isAlpha, Char.isUpper, Char.isLower, Char.isDigit,
    Bool.or_eq_true, Bool.and_eq_true, decide_eq_true_eq, beq_iff_eq, ge_iff_le,
    UInt32.le_iff_toNat_le] at h
  change (((65 ≤ c.toNat ∧ c.toNat ≤ 90) ∨ (97 ≤ c.toNat ∧ c.toNat ≤ 122)) ∨
    (48 ≤ c.toNat ∧ c.toNat ≤ 57)) ∨ c = '_' at h
  rcases h with h | rfl
  · refine ⟨by omega, by omega, ?_⟩
    rintro rfl
    have : '-'.toNat = 45 := rfl
    omega
  · decide

theorem solid_of_isDigitOf {base : Nat} (hbase : base ≤ 16) {c : Char}
    (h : isDigitOf base c = true) : Solid c := by
  simp only [isDigitOf, Bool.or_eq_true, Bool.and_eq_true, decide_eq_true_eq] at h
  refine ⟨by omega, by omega, ?_⟩
  rintro rfl
  have : '-'.toNat = 45 := rfl
  omega

theorem isNameChar_of_isDigit {c : Char} (h : c.isDigit = true) : isNameChar c = true := by
  simp [isNameChar, Char.isAlphanum, h]

theorem isNameChar_of_isNameStart {c : Char} (h : isNameStart c = true) : isNameChar c = true := by
  simp only [isNameStart, isNameChar, Char.isAlphanum, Bool.or_eq_true] at h ⊢
  rcases h with h | h
  · exact .inl (.inl h)
  · exact .inr h

theorem isNameChar_of_isLabelChar {c : Char} (h : isLabelChar c = true) : isNameChar c = true := by
  simp only [isLabelChar, isNameChar, Char.isAlphanum, Char.isAlpha, Bool.or_eq_true] at h ⊢
  tauto

/-- A class of solid characters. -/
def SolidClass (p : Char → Bool) : Prop :=
  ∀ c, p c = true → Solid c

theorem Severs.head_false {p : Char → Bool} (h : Severs y') (hp : SolidClass p) :
    ∀ c ∈ y'.head?, p c = false :=
  fun c hc => Bool.eq_false_iff.mpr fun hpc => h.not_solid hc (hp c hpc)

theorem Severs.startsDigit (h : Severs y') : startsDigit y' = false := by
  cases y' with
  | nil => rfl
  | cons c cs =>
      exact h.head_false (fun c hc => solid_of_isNameChar (isNameChar_of_isDigit hc)) c rfl

theorem Severs.startsName (h : Severs y') : startsName y' = false := by
  cases y' with
  | nil => rfl
  | cons c cs =>
      exact h.head_false (fun c hc => solid_of_isNameChar (isNameChar_of_isNameStart hc)) c rfl

/-! ## Runs -/

/-- A run that ends within `w` or right behind it is the same in front of other characters, if these
do not go on with it. -/
theorem takeWhile_seam {p : Char → Bool} (hlength : ((w ++ y).takeWhile p).length ≤ w.length)
    (hy : (∃ c ∈ y.head?, p c = true) ∨ ∀ c ∈ y'.head?, p c = false) :
    (w ++ y').takeWhile p = (w ++ y).takeWhile p := by
  induction w with
  | nil =>
      have hnil : y.takeWhile p = [] := List.length_eq_zero_iff.mp (Nat.le_zero.mp hlength)
      rw [List.nil_append, List.nil_append, hnil]
      rcases hy with ⟨c, hc, hpc⟩ | hy'
      · cases y with
        | nil => cases hc
        | cons c' cs =>
            cases hc
            rw [List.takeWhile_cons_of_pos hpc] at hnil
            cases hnil
      · cases y' with
        | nil => rfl
        | cons c cs => exact List.takeWhile_cons_of_neg (by rw [hy' c rfl]; decide)
  | cons c w ih =>
      simp only [List.cons_append, List.takeWhile_cons] at hlength ⊢
      split
      · rename_i hpc
        rw [if_pos hpc, List.length_cons, List.length_cons] at hlength
        rw [ih (Nat.le_of_succ_le_succ hlength)]
      · rfl

theorem takeWhile_of_lt {p : Char → Bool} (hlength : ((w ++ y).takeWhile p).length < w.length) :
    (w ++ y').takeWhile p = (w ++ y).takeWhile p := by
  induction w with
  | nil => cases hlength
  | cons c w ih =>
      simp only [List.cons_append, List.takeWhile_cons] at hlength ⊢
      split
      · rename_i hpc
        rw [if_pos hpc, List.length_cons, List.length_cons] at hlength
        rw [ih (Nat.lt_of_succ_lt_succ hlength)]
      · rfl

/-- What is behind a run that ends within `w`. -/
theorem drop_seam {n : Nat} (h : n ≤ w.length) (y : List Char) :
    (w ++ y).drop n = w.drop n ++ y :=
  List.drop_append_of_le_length h

/-- The text and width of the word at the front. -/
theorem word_seam (hy' : Severs y') (hwidth : (word (w ++ y)).width ≤ w.length) :
    word (w ++ y') = word (w ++ y) := by
  have hrun : (w ++ y').takeWhile isNameChar = (w ++ y).takeWhile isNameChar :=
    takeWhile_seam hwidth (.inr (hy'.head_false fun c => solid_of_isNameChar))
  rw [word, word, hrun]

theorem sigilName_seam {kind : Kind} {sigil : Char} (hy' : Severs y')
    (hvalid : (sigilName kind sigil (w ++ y)).kind ≠ .invalid)
    (hwidth : (sigilName kind sigil (w ++ y)).width ≤ w.length + 1) :
    sigilName kind sigil (w ++ y') = sigilName kind sigil (w ++ y) := by
  unfold sigilName at hvalid hwidth ⊢
  split at hvalid
  · rename_i hname
    rw [if_pos hname] at hwidth ⊢
    have hlength := Nat.le_of_succ_le_succ hwidth
    have hrun : (w ++ y').takeWhile isNameChar = (w ++ y).takeWhile isNameChar :=
      takeWhile_seam hlength (.inr (hy'.head_false fun c => solid_of_isNameChar))
    cases w with
    | nil =>
        -- a name has a character, which would be one of `y`
        cases y with
        | nil => cases hname
        | cons c cs =>
            have hc : isNameChar c = true := isNameChar_of_isNameStart hname
            rw [List.nil_append, List.takeWhile_cons_of_pos hc] at hlength
            cases hlength
    | cons c w =>
        rw [if_pos (show startsName (c :: w ++ y') = true from hname), hrun]
  · exact absurd rfl hvalid

/-! ## Comments and strings -/

/-- Either the first characters do not end a line, or those in their place do. -/
theorem seam_of_line (hline : EndsLine y → EndsLine y') :
    (∃ c ∈ y.head?, (c != '\n') = true) ∨ ∀ c ∈ y'.head?, (c != '\n') = false := by
  by_cases hy : EndsLine y
  · exact .inr fun c hc => by rw [hline hy c hc]; rfl
  · rw [EndsLine] at hy
    push Not at hy
    obtain ⟨c, hc, hne⟩ := hy
    exact .inl ⟨c, hc, bne_iff_ne.mpr hne⟩

/-- The rest of a line is the same in front of other characters; where it goes up to these, they
have to end the line if the first ones did. -/
theorem line_seam (hlength : ((w ++ y).takeWhile (· != '\n')).length ≤ w.length)
    (hline : ((w ++ y).takeWhile (· != '\n')).length = w.length → EndsLine y → EndsLine y') :
    (w ++ y').takeWhile (· != '\n') = (w ++ y).takeWhile (· != '\n') := by
  rcases hlength.lt_or_eq with hlt | heq
  · exact takeWhile_of_lt hlt
  · exact takeWhile_seam hlength (seam_of_line (hline heq))

theorem lineComment_seam
    (hline : (lineComment (w ++ y)).width = w.length + 1 → EndsLine y → EndsLine y')
    (hwidth : (lineComment (w ++ y)).width ≤ w.length + 1) :
    lineComment (w ++ y') = lineComment (w ++ y) := by
  have hrun : (w ++ y').takeWhile (· != '\n') = (w ++ y).takeWhile (· != '\n') :=
    line_seam (Nat.le_of_succ_le_succ hwidth) fun heq => hline (congrArg (· + 1) heq)
  rw [lineComment, lineComment, hrun]

theorem length_le_of_blockBody? {body cs found : List Char} (h : blockBody? body cs = some found) :
    body.length ≤ found.length := by
  fun_induction blockBody? body cs with
  | case1 body cs => cases h; exact Nat.le_refl _
  | case2 body c cs _ ih => exact (Nat.le_succ _).trans (ih h)
  | case3 => cases h

theorem blockBody?_seam {body found : List Char} (h : blockBody? body (w ++ y) = some found)
    (hlength : found.length + 2 ≤ body.length + w.length) :
    blockBody? body (w ++ y') = some found := by
  induction w generalizing body with
  | nil =>
      have hle := length_le_of_blockBody? h
      rw [List.length_nil] at hlength
      omega
  | cons a w ih =>
      cases w with
      | nil =>
          have hle := length_le_of_blockBody? h
          rw [List.length_singleton] at hlength
          omega
      | cons b w =>
          simp only [List.cons_append] at h ⊢
          by_cases hend : a = '*' ∧ b = '/'
          · obtain ⟨rfl, rfl⟩ := hend
            exact h
          · have hstep (cs : List Char) :
                blockBody? body (a :: b :: cs) = blockBody? (a :: body) (b :: cs) := by
              rw [blockBody?]
              rintro cs' rfl hcs
              cases hcs
              exact hend ⟨rfl, rfl⟩
            rw [hstep] at h ⊢
            refine ih h ?_
            simp only [List.length_cons] at hlength ⊢
            omega

theorem blockComment_seam (hvalid : (blockComment (w ++ y)).kind ≠ .invalid)
    (hwidth : (blockComment (w ++ y)).width ≤ w.length + 2) :
    blockComment (w ++ y') = blockComment (w ++ y) := by
  unfold blockComment at hvalid hwidth ⊢
  cases hbody : blockBody? [] (w ++ y) with
  | none =>
      rw [hbody] at hvalid
      exact absurd rfl hvalid
  | some body =>
      rw [hbody] at hwidth
      have hlength : body.length + 2 ≤ ([] : List Char).length + w.length := by
        dsimp only at hwidth
        rw [List.length_nil]
        omega
      rw [blockBody?_seam hbody hlength]

theorem lt_width_stringBody {quote : Char} {body cs : List Char} {width : Nat}
    (h : (stringBody quote body width cs).kind ≠ .invalid) :
    width < (stringBody quote body width cs).width := by
  fun_induction stringBody quote body width cs with
  | case1 => exact absurd rfl h
  | case2 => exact Nat.lt_succ_self _
  | case3 => exact absurd rfl h
  | case4 _ _ _ _ _ _ _ _ _ ih => exact Nat.lt_of_succ_lt (Nat.lt_of_succ_lt (ih h))
  | case5 => exact absurd rfl h
  | case6 _ _ _ _ _ _ ih => exact Nat.lt_of_succ_lt (ih h)

theorem stringBody_seam {quote : Char} : ∀ (w : List Char) {body : List Char} {width : Nat},
    (stringBody quote body width (w ++ y)).kind ≠ .invalid →
    (stringBody quote body width (w ++ y)).width ≤ width + w.length →
    stringBody quote body width (w ++ y') = stringBody quote body width (w ++ y)
  | [], body, width, hvalid, hwidth => by
    have hlt := lt_width_stringBody hvalid
    rw [List.length_nil] at hwidth
    omega
  | [c], body, width, hvalid, hwidth => by
    rw [List.length_singleton] at hwidth
    simp only [List.cons_append, List.nil_append] at hvalid hwidth ⊢
    unfold stringBody at hvalid hwidth ⊢
    by_cases hquote : c = quote
    · rw [if_pos hquote, if_pos hquote]
    · rw [if_neg hquote] at hvalid hwidth
      by_cases hescape : c = '\\' ∧ quote = '\x22'
      · rw [if_pos hescape] at hvalid hwidth
        -- the escape and the quote behind it are longer than `w`
        cases y with
        | nil => exact absurd rfl hvalid
        | cons e cs =>
            dsimp only at hvalid hwidth
            cases hd : escaped? e with
            | some d =>
                rw [hd] at hvalid hwidth
                have hlt := lt_width_stringBody hvalid
                dsimp only at hwidth hlt
                omega
            | none =>
                rw [hd] at hvalid
                exact absurd rfl hvalid
      · rw [if_neg hescape] at hvalid hwidth
        have hlt := lt_width_stringBody hvalid
        omega
  | c :: e :: w, body, width, hvalid, hwidth => by
    have hlength : width + (c :: e :: w).length = width + 2 + w.length := by
      simp only [List.length_cons]
      omega
    rw [hlength] at hwidth
    simp only [List.cons_append] at hvalid hwidth ⊢
    unfold stringBody at hvalid hwidth ⊢
    by_cases hquote : c = quote
    · rw [if_pos hquote, if_pos hquote]
    · rw [if_neg hquote] at hvalid hwidth ⊢
      rw [if_neg hquote]
      by_cases hescape : c = '\\' ∧ quote = '\x22'
      · rw [if_pos hescape] at hvalid hwidth ⊢
        rw [if_pos hescape]
        dsimp only at hvalid hwidth ⊢
        cases hd : escaped? e with
        | some d =>
            rw [hd] at hvalid hwidth
            exact stringBody_seam w hvalid hwidth
        | none => rfl
      · rw [if_neg hescape] at hvalid hwidth ⊢
        rw [if_neg hescape]
        refine stringBody_seam (e :: w) hvalid (hwidth.trans ?_)
        rw [List.length_cons]
        omega

/-! ## Heredocs -/

theorem exists_line (cs : List Char) :
    (∀ c ∈ cs, (c != '\n') = true) ∨
      ∃ line rest, cs = line ++ '\n' :: rest ∧ ∀ c ∈ line, (c != '\n') = true := by
  induction cs with
  | nil => exact .inl nofun
  | cons c cs ih =>
      by_cases hc : c = '\n'
      · exact .inr ⟨[], cs, by rw [hc]; rfl, nofun⟩
      · have hne : (c != '\n') = true := bne_iff_ne.mpr hc
        rcases ih with ih | ⟨line, rest, rfl, ih⟩
        · exact .inl (List.forall_mem_cons.mpr ⟨hne, ih⟩)
        · exact .inr ⟨c :: line, rest, rfl, List.forall_mem_cons.mpr ⟨hne, ih⟩⟩

section

variable {label line : List Char} {lines : List (List Char)} {width : Nat}

theorem heredocBody_unterminated (hline : ∀ c ∈ line, (c != '\n') = true)
    (hlabel : trim line ≠ label) : (heredocBody label lines width line).kind = .invalid := by
  have htake : line.takeWhile (· != '\n') = line := List.takeWhile_eq_self_iff.mpr hline
  have hdrop : line.dropWhile (· != '\n') = [] := List.dropWhile_eq_nil_iff.mpr hline
  rw [heredocBody]
  split
  · rfl
  · dsimp only
    rw [htake, if_neg hlabel]
    split
    · rfl
    · rename_i hcons
      rw [hdrop] at hcons
      cases hcons

/-- A line of the body of a heredoc. -/
theorem heredocBody_line (hline : ∀ c ∈ line, (c != '\n') = true) (hlabel : trim line ≠ label)
    (lines : List (List Char)) (width : Nat) (rest : List Char) :
    heredocBody label lines width (line ++ '\n' :: rest) =
      heredocBody label (line :: lines) (width + line.length + 1) rest := by
  have htake : (line ++ '\n' :: rest).takeWhile (· != '\n') = line := by
    rw [List.takeWhile_append_of_pos hline]
    exact List.append_nil line
  have hdrop : (line ++ '\n' :: rest).dropWhile (· != '\n') = '\n' :: rest := by
    rw [List.dropWhile_append_of_pos hline]
    rfl
  have hempty : (line ++ '\n' :: rest).isEmpty = false := by
    cases line <;> rfl
  rw [heredocBody, hempty, htake]
  simp only [Bool.false_eq_true, if_false, if_neg hlabel]
  split
  · rename_i hnil
    rw [hdrop] at hnil
    cases hnil
  · rename_i hcons
    rw [hdrop] at hcons
    cases hcons
    rfl

/-- The last line of a heredoc. -/
theorem heredocBody_close {cs : List Char} (hcs : cs ≠ [])
    (hlabel : trim (cs.takeWhile (· != '\n')) = label) (lines : List (List Char)) (width : Nat) :
    heredocBody label lines width cs =
      if lines.isEmpty then
        flawed (.emptyHeredoc (String.ofList label))
          (width + (cs.takeWhile (· != '\n')).length)
      else
        ⟨.heredoc, String.ofList (List.intercalate ['\n'] lines.reverse),
          width + (cs.takeWhile (· != '\n')).length⟩ := by
  have hempty : cs.isEmpty = false := by
    cases cs with
    | nil => exact absurd rfl hcs
    | cons => rfl
  rw [heredocBody, hempty]
  simp only [Bool.false_eq_true, if_false, if_pos hlabel]

end

/-- A heredoc that ends within `w` is the same in front of `y'`, unless its last line goes on. -/
theorem heredocBody_seam {label : List Char} (hlabel : label ≠ [])
    (w : List Char) {lines : List (List Char)} {width : Nat}
    (hline : (heredocBody label lines width (w ++ y)).width = width + w.length →
      EndsLine y → EndsLine y')
    (hvalid : (heredocBody label lines width (w ++ y)).kind ≠ .invalid)
    (hwidth : (heredocBody label lines width (w ++ y)).width ≤ width + w.length) :
    heredocBody label lines width (w ++ y') = heredocBody label lines width (w ++ y) := by
  have hne : w ++ y ≠ [] := by
    intro hnil
    rw [hnil, heredocBody] at hvalid
    exact hvalid rfl
  by_cases htrim : trim ((w ++ y).takeWhile (· != '\n')) = label
  · have hclose := heredocBody_close hne htrim lines width
    rw [hclose] at hline hvalid hwidth
    split at hvalid
    · exact absurd rfl hvalid
    · rename_i hlines
      rw [if_neg hlines] at hline hwidth
      have hrun : (w ++ y').takeWhile (· != '\n') = (w ++ y).takeWhile (· != '\n') :=
        line_seam (Nat.le_of_add_le_add_left hwidth) fun heq => hline (congrArg (width + ·) heq)
      have hne' : w ++ y' ≠ [] := by
        rintro hnil
        rw [← hrun, hnil] at htrim
        exact hlabel htrim.symm
      rw [hclose, heredocBody_close hne' (by rw [hrun, htrim]), hrun]
  · rcases exists_line (w ++ y) with hall | ⟨first, rest, hcs, hfirst⟩
    · rw [List.takeWhile_eq_self_iff.mpr hall] at htrim
      exact absurd (heredocBody_unterminated hall htrim) hvalid
    · have htake : (w ++ y).takeWhile (· != '\n') = first := by
        rw [hcs, List.takeWhile_append_of_pos hfirst]
        exact List.append_nil first
      rw [htake] at htrim
      have hstep := heredocBody_line hfirst htrim lines width
      have hle := le_width_heredocBody label (first :: lines) (width + first.length + 1) rest
      rw [hcs, hstep] at hline hvalid hwidth
      -- the line and its end are within `w`
      obtain ⟨w', rfl, rfl⟩ : ∃ w', w = first ++ '\n' :: w' ∧ rest = w' ++ y := by
        have hlength : (first ++ ['\n']).length ≤ w.length := by
          rw [List.length_append, List.length_singleton]
          omega
        have hprefix : first ++ ['\n'] <+: w := by
          have hfront : first ++ ['\n'] <+: w ++ y := ⟨rest, by rw [hcs, List.append_assoc]; rfl⟩
          exact List.prefix_of_prefix_length_le hfront (List.prefix_append w y) hlength
        obtain ⟨w', rfl⟩ := hprefix
        refine ⟨w', List.append_assoc .., ?_⟩
        simpa using hcs.symm
      have hwidth' :
          (heredocBody label (first :: lines) (width + first.length + 1) (w' ++ y)).width ≤
          width + first.length + 1 + w'.length := by
        rw [List.length_append, List.length_cons] at hwidth
        omega
      rw [List.append_assoc, List.cons_append, hstep, List.append_assoc, List.cons_append, hstep]
      refine heredocBody_seam hlabel w' (fun heq => hline ?_) hvalid hwidth'
      rw [heq, List.length_append, List.length_cons]
      omega
termination_by w.length

theorem heredoc_seam (hy' : Severs y')
    (hline : (heredoc (w ++ y)).width = w.length + 2 → EndsLine y → EndsLine y')
    (hlabel : startsLabel (w ++ y) = true) (hvalid : (heredoc (w ++ y)).kind ≠ .invalid)
    (hwidth : (heredoc (w ++ y)).width ≤ w.length + 2) :
    heredoc (w ++ y') = heredoc (w ++ y) := by
  unfold heredoc at hline hvalid hwidth ⊢
  dsimp only at hline hvalid hwidth ⊢
  have hlabelRun : (w ++ y).takeWhile isLabelChar ≠ [] := by
    cases hcs : w ++ y with
    | nil => rw [hcs] at hlabel; cases hlabel
    | cons c cs =>
        rw [hcs] at hlabel
        have hc : isLabelChar c = true := by
          simp only [isLabelChar, show c.isUpper = true from hlabel, Bool.true_or]
        rw [List.takeWhile_cons_of_pos hc]
        exact List.cons_ne_nil _ _
  split at hvalid
  · exact absurd rfl hvalid
  · rename_i body hbody
    simp only [hbody] at hline hwidth
    have hle := le_width_heredocBody ((w ++ y).takeWhile isLabelChar) []
      (2 + ((w ++ y).takeWhile isLabelChar).length +
        (((w ++ y).drop ((w ++ y).takeWhile isLabelChar).length).takeWhile fun c =>
          c != '\n' && isBlank c).length + 1) body
    have hlabelLength : ((w ++ y).takeWhile isLabelChar).length ≤ w.length := by omega
    have hlabelSeam : (w ++ y').takeWhile isLabelChar = (w ++ y).takeWhile isLabelChar :=
      takeWhile_seam hlabelLength
        (.inr (hy'.head_false fun c hc => solid_of_isNameChar (isNameChar_of_isLabelChar hc)))
    rw [hlabelSeam]
    generalize (w ++ y).takeWhile isLabelChar = label at *
    rw [drop_seam hlabelLength] at hbody hline hwidth hle hvalid ⊢
    rw [drop_seam hlabelLength]
    have hlength : (w.drop label.length).length + label.length = w.length := by
      rw [List.length_drop]
      omega
    generalize w.drop label.length = w' at *
    have hblanksLength :
        ((w' ++ y).takeWhile fun c => c != '\n' && isBlank c).length < w'.length := by omega
    rw [takeWhile_of_lt hblanksLength]
    generalize (w' ++ y).takeWhile (fun c => c != '\n' && isBlank c) = blanks at *
    rw [drop_seam hblanksLength.le] at hbody
    rw [drop_seam hblanksLength.le]
    have hrest : (w'.drop blanks.length).length + blanks.length = w'.length := by
      rw [List.length_drop]
      omega
    cases hdrop : w'.drop blanks.length with
    | nil =>
        rw [hdrop, List.length_nil] at hrest
        omega
    | cons c w'' =>
        rw [hdrop, List.cons_append] at hbody
        cases hbody
        rw [hdrop, List.length_cons] at hrest
        refine heredocBody_seam hlabelRun w'' (fun heq => hline ?_) hvalid (hwidth.trans ?_)
        · rw [heq]
          omega
        · omega
  · exact absurd rfl hvalid

/-! ## Digits behind a lead

A fraction, an exponent and the parts of a calendar literal start with characters that
belong to them if a digit follows. -/

/-- Characters that what severs tokens cannot hold in front of a digit. -/
def IsLead (lead : List Char) : Prop :=
  ∀ a t, a :: t <:+ lead → Solid a ∨ a ≠ '\n' ∧ t = []

theorem isLead_singleton {a : Char} (ha : a ≠ '\n') : IsLead [a] := by
  intro b t h
  rcases List.suffix_cons_iff.mp h with h | h
  · cases h
    exact .inr ⟨ha, rfl⟩
  · cases List.suffix_nil.mp h

theorem isLead_cons {a : Char} {lead : List Char} (ha : Solid a) (hlead : IsLead lead) :
    IsLead (a :: lead) := by
  intro b t h
  rcases List.suffix_cons_iff.mp h with h | h
  · cases h
    exact .inl ha
  · exact hlead b t h

/-- A lead and the digit behind it are not parted by what severs tokens. -/
theorem exists_of_lead {lead s : List Char} {c : Char} (hy' : Severs y') (hlead : IsLead lead)
    (hc : c.isDigit = true) (h : w ++ y' = lead ++ c :: s) : ∃ w', w = lead ++ c :: w' := by
  rcases List.append_eq_append_iff.mp h with ⟨t, rfl, hy⟩ | ⟨t, rfl, ht⟩
  · -- the digit would be in `y'`
    exfalso
    cases t with
    | nil =>
        have hstart := hy'.startsDigit
        rw [hy, List.nil_append, startsDigit, hc] at hstart
        cases hstart
    | cons a t =>
        rcases hlead a t ⟨w, rfl⟩ with hsolid | ⟨hne, rfl⟩
        · exact hy'.not_solid (by rw [hy]; rfl) hsolid
        · rw [hy] at hy'
          rcases hy' with heq | ⟨-, hstart⟩
          · exact hne heq
          · have hdigit : c.isDigit = false := hstart
            rw [hc] at hdigit
            cases hdigit
  · cases t with
    | nil =>
        rw [List.nil_append] at ht
        have hstart := hy'.startsDigit
        rw [← ht, startsDigit, hc] at hstart
        cases hstart
    | cons a t =>
        cases ht
        exact ⟨t, rfl⟩

theorem eq_of_lt_length {lead s : List Char} {c : Char} (h : w ++ y = lead ++ c :: s)
    (hlength : lead.length < w.length) : ∃ w', w = lead ++ c :: w' ∧ s = w' ++ y := by
  rcases List.append_eq_append_iff.mp h with ⟨t, rfl, -⟩ | ⟨t, rfl, ht⟩
  · rw [List.length_append] at hlength
    omega
  · cases t with
    | nil =>
        rw [List.append_nil] at hlength
        omega
    | cons a t =>
        cases ht
        exact ⟨t, rfl, rfl⟩

end ConfigLang.Lexeme
