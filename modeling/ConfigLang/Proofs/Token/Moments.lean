import Mathlib
import ConfigLang.Proofs.Token.Numbers

/-!
# Calendar literals do not look past what severs a token

A calendar literal is read by patterns, the longer before the shorter.  A pattern that
matches within `w` is to match the same in front of `y'`, and one that does not match is
not to match there either, since otherwise a shorter one would lose its turn.

## Strategy

* **Groups of digits.**  The patterns are put together of groups of digits, and what
  stands between two groups is a lead of the second (`behindGroup?`).  So a group that
  reaches past `w` finds no digit in `y'` (`agree_behindGroup?`).
* **Parts that have to be there.**  `Agree` says what becomes of a pattern in front of `y`
  and of `y'`, and is kept when another group follows (`Agree.bind`); so it holds of dates
  and of hours with minutes (`agree_behindDate?`, `agree_behindMinutes?`).
* **Parts that may be left out.**  Seconds, fractions and zones go on for as long as they
  can, and always match.  `Ends` says what they leave (`ends_behindSeconds`,
  `ends_behindZone`).
* **Whole patterns.**  `Fits` says of a pattern only what the choice between the patterns
  needs, and `SameLiteral` says it of the literal (`Fits.sameLiteral`).  The choice is
  made by `SameLiteral.or`, and `unsigned_seam` makes a token of it.  The window that the
  patterns look at may end within `w` or behind it, and cuts both texts alike there
  (`Severs.take`).
-/

namespace ConfigLang.Lexeme

variable {w y y' : List Char}

/-- What is left by a pattern in front of `y` and of `y'`: the same part of `w`, or nothing in front
of `y'`, if it has gone past `w` in front of `y`. -/
inductive Agree (y y' : List Char) : Option (List Char) → Option (List Char) → Prop
  | within (w : List Char) : Agree y y' (some (w ++ y)) (some (w ++ y'))
  | nowhere : Agree y y' none none
  | past {r : List Char} (h : r.length < y.length) : Agree y y' (some r) none

/-- A pattern that does not match in front of `y` does not match in front of `y'`, and one that
matches within `w` matches the same. -/
structure Fits (y y' : List Char) (o o' : Option (List Char)) : Prop where
  of_none : o = none → o' = none
  of_some : ∀ r, o = some r → y.length ≤ r.length → ∃ w, r = w ++ y ∧ o' = some (w ++ y')

/-- A pattern leaves no more than it gets. -/
def Shortens (f : List Char → Option (List Char)) : Prop :=
  ∀ r r', f r = some r' → r'.length ≤ r.length

section

variable {o o' : Option (List Char)} {f : List Char → Option (List Char)}

theorem Agree.fits (h : Agree y y' o o') : Fits y y' o o' := by
  cases h with
  | within w => exact ⟨nofun, fun r hr _ => ⟨w, (Option.some.inj hr).symm, rfl⟩⟩
  | nowhere => exact ⟨fun _ => rfl, nofun⟩
  | past h =>
      refine ⟨nofun, fun r hr hle => ?_⟩
      cases hr
      omega

theorem Agree.bind (h : Agree y y' o o') (hf : Shortens f)
    (hagree : ∀ w, Agree y y' (f (w ++ y)) (f (w ++ y'))) :
    Agree y y' (o.bind f) (o'.bind f) := by
  cases h with
  | within w => exact hagree w
  | nowhere => exact .nowhere
  | @past r h =>
      change Agree y y' (f r) none
      cases hr : f r with
      | none => exact .nowhere
      | some r' => exact .past ((hf r r' hr).trans_lt h)

theorem Agree.bind_fits (h : Agree y y' o o') (hf : Shortens f)
    (hfits : ∀ w, Fits y y' (f (w ++ y)) (f (w ++ y'))) :
    Fits y y' (o.bind f) (o'.bind f) := by
  cases h with
  | within w => exact hfits w
  | nowhere => exact Agree.nowhere.fits
  | @past r h =>
      refine ⟨fun _ => rfl, fun r' hr hle => ?_⟩
      have hshorter := hf r r' hr
      omega

end

/-! ## Groups of digits -/

/-- The text behind one character of a class and some digits. -/
def behindGroup? (wanted : Char → Bool) (n : Nat) (cs : List Char) : Option (List Char) :=
  (behind? wanted cs).bind (behindDigits? n)

theorem behindMinutes?_eq (cs : List Char) :
    behindMinutes? cs = (behindDigits? 2 cs).bind (behindGroup? (· == ':') 2) := by
  simp only [behindMinutes?, behindGroup?, Option.bind_eq_bind]
  rfl

theorem behindDate?_eq (cs : List Char) :
    behindDate? cs =
      ((behindDigits? 4 cs).bind (behindGroup? (· == '-') 2)).bind
        (behindGroup? (· == '-') 2) := by
  simp only [behindDate?, behindGroup?, Option.bind_eq_bind, Option.bind_assoc]
  rfl

theorem shortens_behindGroup? (wanted : Char → Bool) (n : Nat) :
    Shortens (behindGroup? wanted n) := by
  intro r r' h
  obtain ⟨a, ha, hr⟩ := Option.bind_eq_some_iff.mp h
  have hlength := length_behind? ha
  have hlength' := length_behindDigits? hr
  omega

theorem behindDigits?_of_not_startsDigit {n : Nat} {cs : List Char} (h : startsDigit cs = false) :
    behindDigits? (n + 1) cs = none := by
  cases cs with
  | nil => rfl
  | cons c cs => exact if_neg (by rw [show c.isDigit = false from h]; decide)

theorem behindMinutes?_of_not_startsDigit {cs : List Char} (h : startsDigit cs = false) :
    behindMinutes? cs = none := by
  rw [behindMinutes?_eq, behindDigits?_of_not_startsDigit h, Option.bind_none]

theorem agree_behindDigits? (hy' : Severs y') (n : Nat) (w : List Char) :
    Agree y y' (behindDigits? n (w ++ y)) (behindDigits? n (w ++ y')) := by
  induction n generalizing w with
  | zero => exact .within w
  | succ n ih =>
      cases w with
      | cons c w =>
          simp only [List.cons_append, behindDigits?]
          split
          · exact ih w
          · exact .nowhere
      | nil =>
          rw [List.nil_append, List.nil_append, behindDigits?_of_not_startsDigit hy'.startsDigit]
          cases hr : behindDigits? (n + 1) y with
          | none => exact .nowhere
          | some r =>
              have hlength := length_behindDigits? hr
              exact .past (by omega)

theorem exists_of_behindGroup? {wanted : Char → Bool} {n : Nat} {cs r : List Char}
    (h : behindGroup? wanted (n + 1) cs = some r) :
    ∃ a c s, cs = [a] ++ c :: s ∧ wanted a = true ∧ c.isDigit = true := by
  obtain ⟨b, hb, hr⟩ := Option.bind_eq_some_iff.mp h
  cases cs with
  | nil => cases hb
  | cons a cs =>
      rw [behind?] at hb
      split at hb
      · rename_i ha
        cases hb
        cases b with
        | nil => cases hr
        | cons c s =>
            rw [behindDigits?] at hr
            split at hr
            · exact ⟨a, c, s, rfl, ha, by assumption⟩
            · cases hr
      · cases hb

/-- The first character of a group does not end a line, so a group that reaches past `w` finds no
digit in `y'`. -/
theorem agree_behindGroup? {wanted : Char → Bool} (hwanted : wanted '\n' = false) (n : Nat)
    (hy' : Severs y') (w : List Char) :
    Agree y y' (behindGroup? wanted (n + 1) (w ++ y)) (behindGroup? wanted (n + 1) (w ++ y')) := by
  cases w with
  | cons c w =>
      simp only [List.cons_append, behindGroup?, behind?]
      split
      · exact agree_behindDigits? hy' (n + 1) w
      · exact .nowhere
  | nil =>
      have hnone : behindGroup? wanted (n + 1) y' = none := by
        cases hr : behindGroup? wanted (n + 1) y' with
        | none => rfl
        | some r =>
            obtain ⟨a, c, s, hcs, ha, hc⟩ := exists_of_behindGroup? hr
            have hlead : IsLead [a] := by
              refine isLead_singleton ?_
              rintro rfl
              rw [hwanted] at ha
              cases ha
            obtain ⟨w', hw'⟩ := exists_of_lead (w := []) hy' hlead hc hcs
            cases hw'
      rw [List.nil_append, List.nil_append, hnone]
      cases hr : behindGroup? wanted (n + 1) y with
      | none => exact .nowhere
      | some r =>
          obtain ⟨a, ha, hr⟩ := Option.bind_eq_some_iff.mp hr
          have hlength := length_behind? ha
          have hlength' := length_behindDigits? hr
          exact .past (by omega)

theorem agree_behindMinutes? (hy' : Severs y') (w : List Char) :
    Agree y y' (behindMinutes? (w ++ y)) (behindMinutes? (w ++ y')) := by
  rw [behindMinutes?_eq, behindMinutes?_eq]
  exact (agree_behindDigits? hy' 2 w).bind (shortens_behindGroup? _ _)
    (agree_behindGroup? rfl 1 hy')

theorem agree_behindDate? (hy' : Severs y') (w : List Char) :
    Agree y y' (behindDate? (w ++ y)) (behindDate? (w ++ y')) := by
  rw [behindDate?_eq, behindDate?_eq]
  exact ((agree_behindDigits? hy' 4 w).bind (shortens_behindGroup? _ _)
    (agree_behindGroup? rfl 1 hy')).bind (shortens_behindGroup? _ _) (agree_behindGroup? rfl 1 hy')

/-! ## What may be left out -/

/-- What is left in front of `y` and of `y'`, where what is read may be left out: the same part of
`w`, if it has not gone past that. -/
inductive Ends (y y' : List Char) : List Char → List Char → Prop
  | within (w : List Char) : Ends y y' (w ++ y) (w ++ y')
  | past {r r' : List Char} (h : r.length < y.length) : Ends y y' r r'

theorem Ends.fits {r r' : List Char} (h : Ends y y' r r') : Fits y y' (some r) (some r') := by
  cases h with
  | within w => exact (Agree.within w).fits
  | past h =>
      refine ⟨nofun, fun r' hr hle => ?_⟩
      cases hr
      omega

theorem Ends.map {r r' : List Char} {f : List Char → List Char} (h : Ends y y' r r')
    (hf : ∀ r, (f r).length ≤ r.length) (hends : ∀ w, Ends y y' (f (w ++ y)) (f (w ++ y'))) :
    Ends y y' (f r) (f r') := by
  cases h with
  | within w => exact hends w
  | past h => exact .past ((hf _).trans_lt h)

theorem ends_dropDigits (hy' : Severs y') (w : List Char) :
    Ends y y' ((w ++ y).dropWhile Char.isDigit) ((w ++ y').dropWhile Char.isDigit) := by
  induction w with
  | cons c w ih =>
      simp only [List.cons_append, List.dropWhile_cons]
      split
      · exact ih
      · exact .within (c :: w)
  | nil =>
      have hnone : y'.dropWhile Char.isDigit = y' := by
        have hstart := hy'.startsDigit
        cases y' with
        | nil => rfl
        | cons c cs =>
            have hdigit : c.isDigit = false := hstart
            exact List.dropWhile_cons_of_neg (by rw [hdigit]; decide)
      rw [List.nil_append, List.nil_append, hnone]
      cases y with
      | nil => exact .within []
      | cons c cs =>
          rw [List.dropWhile_cons]
          split
          · exact .past (Nat.lt_succ_of_le (List.dropWhile_sublist _).length_le)
          · exact .within []

theorem behindFraction_of_digit {c : Char} (hc : c.isDigit = true) (s : List Char) :
    behindFraction ('.' :: c :: s) = s.dropWhile Char.isDigit := by
  rw [behindFraction, if_pos hc]

theorem behindFraction_of_not {cs : List Char} (h : ¬HasFraction cs) : behindFraction cs = cs := by
  unfold behindFraction
  split
  · split
    · rename_i hc
      exact absurd ⟨_, _, rfl, hc⟩ h
    · rfl
  · rfl

theorem ends_behindFraction (hy' : Severs y') (w : List Char) :
    Ends y y' (behindFraction (w ++ y)) (behindFraction (w ++ y')) := by
  by_cases hfraction : HasFraction (w ++ y)
  · obtain ⟨c, s, hcs, hc⟩ := hfraction
    rcases Nat.lt_or_ge 1 w.length with hlt | hge
    · obtain ⟨w', rfl, rfl⟩ := eq_of_lt_length hcs hlt
      change Ends y y' (behindFraction ('.' :: c :: (w' ++ y)))
        (behindFraction ('.' :: c :: (w' ++ y')))
      rw [behindFraction_of_digit hc, behindFraction_of_digit hc]
      exact ends_dropDigits hy' w'
    · refine .past ?_
      have hlength := congrArg List.length hcs
      simp only [List.length_append, List.length_cons, List.length_nil] at hlength
      rw [hcs, List.singleton_append, behindFraction_of_digit hc]
      have hle := (List.dropWhile_sublist (l := s) Char.isDigit).length_le
      omega
  · rw [behindFraction_of_not hfraction, behindFraction_of_not]
    · exact .within w
    · rintro ⟨c, s, hcs, hc⟩
      obtain ⟨w', rfl⟩ := exists_of_lead hy' (isLead_singleton (by decide)) hc hcs
      exact hfraction ⟨c, w' ++ y, by simp, hc⟩

theorem behindSeconds_eq (cs : List Char) :
    behindSeconds cs =
      match behindGroup? (· == ':') 2 cs with
      | some r => behindFraction r
      | none => cs :=
  rfl

theorem ends_behindSeconds (hy' : Severs y') (w : List Char) :
    Ends y y' (behindSeconds (w ++ y)) (behindSeconds (w ++ y')) := by
  rw [behindSeconds_eq, behindSeconds_eq]
  have hagree : Agree y y' (behindGroup? (· == ':') 2 (w ++ y))
      (behindGroup? (· == ':') 2 (w ++ y')) :=
    agree_behindGroup? rfl 1 hy' w
  generalize behindGroup? (· == ':') 2 (w ++ y) = o at hagree
  generalize behindGroup? (· == ':') 2 (w ++ y') = o' at hagree
  cases hagree with
  | within w => exact ends_behindFraction hy' w
  | nowhere => exact .within w
  | past h => exact .past ((length_behindFraction_le _).trans_lt h)

theorem behindZone_cons {c : Char} (hc : c ≠ 'Z') (cs : List Char) :
    behindZone (c :: cs) =
      if c = '+' ∨ c = '-' then (behindMinutes? cs).getD (c :: cs) else c :: cs := by
  rw [behindZone]
  rintro rfl
  exact hc rfl

theorem behindZone_of_severs (hy' : Severs y') : behindZone y' = y' := by
  cases y' with
  | nil => rfl
  | cons c cs =>
      have hsolid := hy'.not_solid (c := c) rfl
      rw [behindZone_cons (by rintro rfl; exact hsolid (by decide))]
      split
      · rename_i hsign
        have hminus : c = '-' := hsign.resolve_left (by rintro rfl; exact hsolid (by decide))
        have hstart : startsDigit cs = false := by
          rcases hy' with rfl | ⟨-, hstart⟩
          · cases hminus
          · exact hstart
        rw [behindMinutes?_of_not_startsDigit hstart, Option.getD_none]
      · rfl

theorem behindZone_eq_or_lt (cs : List Char) :
    behindZone cs = cs ∨ (behindZone cs).length < cs.length := by
  cases cs with
  | nil => exact .inl rfl
  | cons c cs =>
      by_cases hc : c = 'Z'
      · rw [hc]
        exact .inr (Nat.lt_succ_self _)
      · rw [behindZone_cons hc]
        split
        · cases hr : behindMinutes? cs with
          | none => exact .inl rfl
          | some r =>
              have hlength := length_behindMinutes? hr
              rw [Option.getD_some, List.length_cons]
              exact .inr (by omega)
        · exact .inl rfl

theorem ends_behindZone (hy' : Severs y') (w : List Char) :
    Ends y y' (behindZone (w ++ y)) (behindZone (w ++ y')) := by
  cases w with
  | nil =>
      rw [List.nil_append, List.nil_append, behindZone_of_severs hy']
      rcases behindZone_eq_or_lt y with heq | hlt
      · rw [heq]
        exact .within []
      · exact .past hlt
  | cons c w =>
      by_cases hc : c = 'Z'
      · rw [hc]
        exact .within w
      · rw [List.cons_append, List.cons_append, behindZone_cons hc, behindZone_cons hc]
        split
        · have hagree := agree_behindMinutes? (y := y) hy' w
          generalize behindMinutes? (w ++ y) = o at hagree
          generalize behindMinutes? (w ++ y') = o' at hagree
          cases hagree with
          | within w => exact .within w
          | nowhere => exact .within (c :: w)
          | past h => exact .past h
        · exact .within (c :: w)

theorem fits_behindTime? (hy' : Severs y') (w : List Char) :
    Fits y y' (behindTime? (w ++ y)) (behindTime? (w ++ y')) := by
  have hends (w : List Char) :
      Ends y y' (behindZone (behindSeconds (w ++ y))) (behindZone (behindSeconds (w ++ y'))) :=
    (ends_behindSeconds hy' w).map length_behindZone_le (ends_behindZone hy')
  rw [behindTime?, behindTime?, Option.map_eq_bind, Option.map_eq_bind]
  refine (agree_behindMinutes? hy' w).bind_fits ?_ fun w => (hends w).fits
  intro r r' hr
  cases hr
  exact (length_behindZone_le _).trans (length_behindSeconds_le _)

/-- The text behind a time, which stands behind one character. -/
def behindTimePart? (cs : List Char) : Option (List Char) :=
  (behind? (fun c => c == 'T' || c == ' ') cs).bind behindTime?

theorem behindDateTime?_eq (cs : List Char) :
    behindDateTime? cs = (behindDate? cs).bind behindTimePart? := by
  simp only [behindDateTime?, behindTimePart?, Option.bind_eq_bind]
  rfl

theorem length_behindTimePart?_lt {cs r : List Char} (h : behindTimePart? cs = some r) :
    r.length < cs.length := by
  obtain ⟨a, ha, hr⟩ := Option.bind_eq_some_iff.mp h
  have hlength := length_behind? ha
  have hlength' := length_behindTime?_lt hr
  omega

theorem fits_behindTimePart? (hy' : Severs y') (w : List Char) :
    Fits y y' (behindTimePart? (w ++ y)) (behindTimePart? (w ++ y')) := by
  cases w with
  | cons c w =>
      simp only [List.cons_append, behindTimePart?, behind?]
      split
      · exact fits_behindTime? hy' w
      · exact Agree.nowhere.fits
  | nil =>
      have hnone : behindTimePart? y' = none := by
        cases y' with
        | nil => rfl
        | cons c cs =>
            rw [behindTimePart?, behind?]
            split
            · rename_i hc
              have hstart : startsDigit cs = false := by
                rcases hy' with rfl | ⟨-, hstart⟩
                · cases hc
                · exact hstart
              change behindTime? cs = none
              rw [behindTime?, behindMinutes?_of_not_startsDigit hstart]
              rfl
            · rfl
      rw [List.nil_append, List.nil_append, hnone]
      refine ⟨fun _ => rfl, fun r hr hle => ?_⟩
      have hlength := length_behindTimePart?_lt hr
      omega

theorem fits_behindDateTime? (hy' : Severs y') (w : List Char) :
    Fits y y' (behindDateTime? (w ++ y)) (behindDateTime? (w ++ y')) := by
  rw [behindDateTime?_eq, behindDateTime?_eq]
  exact (agree_behindDate? hy' w).bind_fits (fun _ _ h => (length_behindTimePart?_lt h).le)
    (fits_behindTimePart? hy')

/-! ## The literal at the front -/

/-- The literal that is left by a pattern in a window. -/
def matched (window : List Char) (kind : Kind) (rest : List Char) : Lexeme :=
  ⟨kind, String.ofList (window.take (window.length - rest.length)), window.length - rest.length⟩

theorem moment?_eq (cs : List Char) :
    moment? cs =
      ((behindDateTime? (cs.take momentWindow)).map (matched (cs.take momentWindow) .dateTime)).or
        (((behindDate? (cs.take momentWindow)).map (matched (cs.take momentWindow) .date)).or
          ((behindTime? (cs.take momentWindow)).map (matched (cs.take momentWindow) .time))) :=
  rfl

/-- A literal that spans no more than `w` is the same in front of `y'`, and where there is none
there is none. -/
structure SameLiteral (n : Nat) (o o' : Option Lexeme) : Prop where
  of_none : o = none → o' = none
  of_some : ∀ lexeme, o = some lexeme → lexeme.width ≤ n → o' = some lexeme

theorem SameLiteral.or {n : Nat} {a a' b b' : Option Lexeme} (ha : SameLiteral n a a')
    (hb : SameLiteral n b b') : SameLiteral n (a.or b) (a'.or b') := by
  cases a with
  | none =>
      rw [ha.of_none rfl]
      exact hb
  | some lexeme =>
      refine ⟨nofun, fun found hfound hwidth => ?_⟩
      cases hfound
      rw [ha.of_some lexeme rfl hwidth]
      rfl

theorem Fits.sameLiteral {o o' : Option (List Char)} (h : Fits y y' o o') (kind : Kind)
    (hle : ∀ r, o = some r → r.length ≤ (w ++ y).length) :
    SameLiteral w.length (o.map (matched (w ++ y) kind)) (o'.map (matched (w ++ y') kind)) := by
  cases o with
  | none =>
      rw [h.of_none rfl]
      exact ⟨fun _ => rfl, nofun⟩
  | some r =>
      refine ⟨nofun, fun found hfound hwidth => ?_⟩
      cases hfound
      have hr := hle r rfl
      rw [List.length_append] at hr
      simp only [matched, List.length_append] at hwidth
      obtain ⟨w', rfl, rfl⟩ := h.of_some r rfl (by omega)
      rw [List.length_append] at hr
      have hwithin : w.length - w'.length ≤ w.length := Nat.sub_le _ _
      rw [Option.map_some, matched, matched]
      simp only [List.length_append, Nat.add_sub_add_right]
      rw [List.take_append_of_le_length hwithin, List.take_append_of_le_length hwithin]

theorem Severs.take (h : Severs y') (n : Nat) : Severs (y'.take n) := by
  cases n with
  | zero => trivial
  | succ n =>
      cases y' with
      | nil => trivial
      | cons c cs =>
          rcases h with h | ⟨h, hstart⟩
          · exact .inl h
          · refine .inr ⟨h, ?_⟩
            cases cs with
            | nil => rw [List.take_nil]; rfl
            | cons d cs =>
                cases n with
                | zero => rfl
                | succ n => exact hstart

theorem sameLiteral_moment? (hy' : Severs y') :
    SameLiteral w.length (moment? (w ++ y)) (moment? (w ++ y')) := by
  rw [moment?_eq, moment?_eq]
  rcases Nat.lt_or_ge w.length momentWindow with hlt | hge
  · have htake (z : List Char) :
        (w ++ z).take momentWindow = w ++ z.take (momentWindow - w.length) := by
      rw [List.take_append, List.take_of_length_le hlt.le]
    rw [htake, htake]
    have hy' := hy'.take (momentWindow - w.length)
    generalize y'.take (momentWindow - w.length) = z' at hy'
    generalize y.take (momentWindow - w.length) = z
    refine SameLiteral.or ?_ (SameLiteral.or ?_ ?_)
    · exact (fits_behindDateTime? hy' w).sameLiteral _ fun r h => (length_behindDateTime?_lt h).le
    · refine (agree_behindDate? hy' w).fits.sameLiteral _ fun r h => ?_
      have hlength := length_behindDate? h
      omega
    · exact (fits_behindTime? hy' w).sameLiteral _ fun r h => (length_behindTime?_lt h).le
  · -- the patterns look at `w` only
    rw [List.take_append_of_le_length hge, List.take_append_of_le_length hge]
    exact ⟨id, fun _ h _ => h⟩

theorem unsigned_seam (hy' : Severs y') (hvalid : (unsigned (w ++ y)).kind ≠ .invalid)
    (hwidth : (unsigned (w ++ y)).width ≤ w.length) :
    unsigned (w ++ y') = unsigned (w ++ y) := by
  have hsame := sameLiteral_moment? (w := w) (y := y) hy'
  unfold unsigned at hvalid hwidth ⊢
  cases hmoment : moment? (w ++ y) with
  | some lexeme =>
      rw [hmoment] at hwidth
      rw [hsame.of_some lexeme hmoment hwidth]
      rfl
  | none =>
      rw [hmoment] at hvalid hwidth
      rw [hsame.of_none hmoment]
      exact signedNumber_seam hy' hvalid hwidth

end ConfigLang.Lexeme
