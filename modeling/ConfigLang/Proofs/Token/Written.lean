import Mathlib
import ConfigLang.Proofs.Token.Names
import ConfigLang.Proofs.Token.Calendar

/-!
# Calendar tokens are literals of the grammar

The patterns of calendar literals find nothing that the grammar does not have: what a pattern goes
past is the part of the grammar that it is for.  So every token with the kind of a date, a time or
a date with a time is written as a literal of this kind (`exists_of_calendar`), whatever stands
around it and wherever the window ends.
-/

namespace ConfigLang

/-- Whether a token of this kind is a calendar literal. -/
def Kind.isCalendar : Kind → Bool
  | .date | .time | .dateTime => true
  | _ => false

namespace Lexeme

variable {cs r : List Char}

/-! ## What the patterns go past -/

theorem exists_of_behindDigits? {n : Nat} (h : behindDigits? n cs = some r) :
    ∃ g : DigitGroup n, cs = g.chars ++ r := by
  induction n generalizing cs with
  | zero => exact ⟨⟨[], rfl, rfl⟩, Option.some.inj h⟩
  | succ n ih =>
      cases cs with
      | nil => cases h
      | cons c cs =>
          rw [behindDigits?] at h
          split at h
          · rename_i hc
            obtain ⟨g, rfl⟩ := ih h
            refine ⟨⟨c :: g.chars, congrArg (· + 1) g.length_eq, ?_⟩, rfl⟩
            rw [List.all_cons, hc, g.isDigit, Bool.and_self]
          · cases h

theorem exists_digits_of_behindGroup? {a : Char} {n : Nat}
    (h : behindGroup? (· == a) n cs = some r) : ∃ g : DigitGroup n, cs = a :: (g.chars ++ r) := by
  obtain ⟨s, hs, hdigits⟩ := Option.bind_eq_some_iff.mp h
  cases cs with
  | nil => cases hs
  | cons c cs =>
      rw [behind?] at hs
      split at hs
      · rename_i hc
        cases hs
        obtain ⟨g, rfl⟩ := exists_of_behindDigits? hdigits
        exact ⟨g, congrArg (· :: _) (beq_iff_eq.mp hc)⟩
      · cases hs

theorem exists_of_behindDate? (h : behindDate? cs = some r) :
    ∃ d : DateText, cs = d.chars ++ r := by
  rw [behindDate?_eq, Option.bind_eq_some_iff] at h
  obtain ⟨s, h, hday⟩ := h
  obtain ⟨s', hyear, hmonth⟩ := Option.bind_eq_some_iff.mp h
  obtain ⟨year, rfl⟩ := exists_of_behindDigits? hyear
  obtain ⟨month, rfl⟩ := exists_digits_of_behindGroup? hmonth
  obtain ⟨day, rfl⟩ := exists_digits_of_behindGroup? hday
  refine ⟨⟨year, month, day⟩, ?_⟩
  simp only [DateText.chars, List.append_assoc, List.cons_append]

theorem exists_of_behindMinutes? (h : behindMinutes? cs = some r) :
    ∃ m : MinutesText, cs = m.chars ++ r := by
  rw [behindMinutes?_eq] at h
  obtain ⟨s, hhour, hminute⟩ := Option.bind_eq_some_iff.mp h
  obtain ⟨hour, rfl⟩ := exists_of_behindDigits? hhour
  obtain ⟨minute, rfl⟩ := exists_digits_of_behindGroup? hminute
  refine ⟨⟨hour, minute⟩, ?_⟩
  simp only [MinutesText.chars, List.append_assoc, List.cons_append]

theorem exists_of_behindFraction (cs : List Char) :
    ∃ f : Option FractionText, cs = (f.elim [] fun f => '.' :: f.chars) ++ behindFraction cs := by
  by_cases h : HasFraction cs
  · obtain ⟨c, s, rfl, hc⟩ := h
    rw [List.singleton_append, behindFraction_of_digit hc]
    refine ⟨some ⟨c :: s.takeWhile Char.isDigit, nofun, ?_⟩, ?_⟩
    · rw [List.all_cons, hc, List.all_takeWhile, Bool.and_self]
    · rw [Option.elim_some, List.cons_append, List.cons_append, List.takeWhile_append_dropWhile]
  · exact ⟨none, (behindFraction_of_not h).symm⟩

theorem exists_of_behindSeconds (cs : List Char) :
    ∃ s : Option SecondsText, cs = s.elim [] SecondsText.chars ++ behindSeconds cs := by
  rw [behindSeconds_eq]
  split
  · rename_i r h
    obtain ⟨second, rfl⟩ := exists_digits_of_behindGroup? h
    obtain ⟨fraction, hr⟩ := exists_of_behindFraction r
    refine ⟨some ⟨second, fraction⟩, ?_⟩
    rw [Option.elim_some, SecondsText.chars, List.cons_append, List.append_assoc, ← hr]
  · exact ⟨none, rfl⟩

theorem exists_of_behindZone (cs : List Char) :
    ∃ z : Option ZoneText, cs = z.elim [] ZoneText.chars ++ behindZone cs := by
  cases cs with
  | nil => exact ⟨none, rfl⟩
  | cons c cs =>
      by_cases hc : c = 'Z'
      · subst hc
        exact ⟨some .utc, rfl⟩
      · rw [behindZone_cons hc]
        split
        · rename_i hsign
          cases h : behindMinutes? cs with
          | none => exact ⟨none, rfl⟩
          | some r =>
              obtain ⟨m, rfl⟩ := exists_of_behindMinutes? h
              rcases hsign with rfl | rfl
              · exact ⟨some (.ahead m), rfl⟩
              · exact ⟨some (.behind m), rfl⟩
        · exact ⟨none, rfl⟩

theorem exists_of_behindTime? (h : behindTime? cs = some r) :
    ∃ t : TimeText, cs = t.chars ++ r := by
  obtain ⟨s, hminutes, rfl⟩ := Option.map_eq_some_iff.mp h
  obtain ⟨minutes, rfl⟩ := exists_of_behindMinutes? hminutes
  obtain ⟨seconds, hseconds⟩ := exists_of_behindSeconds s
  obtain ⟨zone, hzone⟩ := exists_of_behindZone (behindSeconds s)
  refine ⟨⟨minutes, seconds, zone⟩, ?_⟩
  rw [TimeText.chars, TimeText.clock, List.append_assoc, List.append_assoc, ← hzone, ← hseconds]

theorem exists_of_behindDateTime? (h : behindDateTime? cs = some r) :
    ∃ (d : DateText) (spaced : Bool) (t : TimeText),
      cs = d.chars ++ separator spaced :: (t.chars ++ r) := by
  rw [behindDateTime?_eq] at h
  obtain ⟨s, hdate, hpart⟩ := Option.bind_eq_some_iff.mp h
  obtain ⟨d, rfl⟩ := exists_of_behindDate? hdate
  obtain ⟨s', hs, htime⟩ := Option.bind_eq_some_iff.mp hpart
  cases s with
  | nil => cases hs
  | cons c s =>
      rw [behind?] at hs
      split at hs
      · rename_i hc
        cases hs
        obtain ⟨t, rfl⟩ := exists_of_behindTime? htime
        rw [Bool.or_eq_true, beq_iff_eq, beq_iff_eq] at hc
        rcases hc with rfl | rfl
        · exact ⟨d, false, t, rfl⟩
        · exact ⟨d, true, t, rfl⟩
      · cases hs

/-! ## What stands at the front -/

/-- What is found of a calendar literal is a literal of the grammar. -/
theorem exists_of_moment? {lexeme : Lexeme} (h : moment? cs = some lexeme) :
    ∃ t : CalendarText, lexeme.kind = t.kind ∧ lexeme.text = String.ofList t.chars := by
  have hfound : ∀ (t : CalendarText) (r : List Char), cs.take momentWindow = t.chars ++ r →
      matched (cs.take momentWindow) t.kind r = lexeme →
        lexeme.kind = t.kind ∧ lexeme.text = String.ofList t.chars := by
    rintro t r hwindow rfl
    rw [hwindow, matched_append]
    exact ⟨rfl, rfl⟩
  rw [moment?_eq] at h
  simp only [Option.or_eq_some_iff, Option.map_eq_some_iff] at h
  rcases h with ⟨r, hr, h⟩ | ⟨-, ⟨r, hr, h⟩ | ⟨-, r, hr, h⟩⟩
  · obtain ⟨d, spaced, t, hwindow⟩ := exists_of_behindDateTime? hr
    refine ⟨.dateTime d spaced t, hfound (.dateTime d spaced t) r ?_ h⟩
    rw [hwindow, CalendarText.chars, List.append_assoc, List.cons_append]
  · obtain ⟨d, hwindow⟩ := exists_of_behindDate? hr
    exact ⟨.date d, hfound (.date d) r hwindow h⟩
  · obtain ⟨t, hwindow⟩ := exists_of_behindTime? hr
    exact ⟨.time t, hfound (.time t) r hwindow h⟩

theorem isCalendar_signedNumber (sign cs : List Char) :
    (signedNumber sign cs).kind.isCalendar = false := by
  rcases kind_signedNumber sign cs with (h | h) | h <;> rw [h] <;> rfl

theorem isCalendar_word (cs : List Char) : (word cs).kind.isCalendar = false := by
  unfold word ofWord
  dsimp only
  repeat' split
  all_goals rfl

/-- Only the patterns of calendar literals give their kinds. -/
theorem moment?_of_isCalendar {last : Option Kind} {c : Char}
    (h : (atFront last c cs).kind.isCalendar = true) :
    moment? (c :: cs) = some (atFront last c cs) := by
  have hscanned := scanned_atFront last c cs
  generalize atFront last c cs = lexeme at h hscanned ⊢
  cases hscanned with
  | eol => cases h
  | @gives _ kind hkind hgives =>
      have hother : ∀ kind ∈ scannedKinds, kind.isCalendar = false := by decide
      rcases hgives with hgives | hgives
      · rw [hgives, hother kind hkind] at h
        cases h
      · rw [hgives] at h
        cases h
  | negative =>
      rw [isCalendar_signedNumber] at h
      cases h
  | unsigned =>
      unfold unsigned at h ⊢
      cases hm : moment? (c :: cs) with
      | some lexeme => rfl
      | none =>
          rw [hm, Option.getD_none, isCalendar_signedNumber] at h
          cases h
  | word =>
      rw [isCalendar_word] at h
      cases h
  | mark => cases h
  | unexpected => cases h

end Lexeme

/-- A token that is a calendar literal is written as a literal of its kind. -/
theorem Lexer.exists_of_calendar {text : String} {token : Token} (hmem : token ∈ tokens text)
    (hkind : token.kind.isCalendar = true) :
    ∃ t : Lexeme.CalendarText, token.kind = t.kind ∧ token.text = String.ofList t.chars := by
  refine (ofText text).forall_mem_run
    (P := fun token => token.kind.isCalendar = true → ∃ t : Lexeme.CalendarText,
      token.kind = t.kind ∧ token.text = String.ofList t.chars) ?_ ?_ token hmem hkind
  · exact fun _ => nofun
  · exact fun _ _ _ _ h => Lexeme.exists_of_moment? (Lexeme.moment?_of_isCalendar h)

end ConfigLang
