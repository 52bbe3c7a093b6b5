import Mathlib
import ConfigLang.Proofs.Token.Seam

/-!
# Numbers do not look past what severs a token

A number is read part by part: its digits, a fraction, an exponent and a unit.  Each
part that ends within `w` is the same in front of `y'`, and says how much of `w` it leaves
for the next one.  All of them do, if the number as a whole spans no more than `w`,
since what is read only grows.
-/

namespace ConfigLang.Lexeme

variable {w y y' read run number rest : List Char} {kind kind' : Kind}

/-! ## The parts -/

theorem digits_seam {base : Nat} (hbase : base ≤ 16) (hy' : Severs y')
    (h : digits base read (w ++ y) = .ok run) (hlength : run.length ≤ w.length) :
    digits base read (w ++ y') = .ok run := by
  obtain ⟨rfl, hempty, hseparators⟩ := digits_eq_ok_iff.mp h
  have hsolid : SolidClass (isNumeralChar base) := by
    intro c hc
    rcases Bool.or_eq_true_iff.mp hc with hc | hc
    · exact solid_of_isDigitOf hbase hc
    · rw [beq_iff_eq.mp hc]
      decide
  have hrun := takeWhile_seam hlength (.inr (hy'.head_false hsolid))
  exact digits_eq_ok_iff.mpr ⟨hrun.symm, hempty, hseparators⟩

theorem basedNumber_seam {base : Nat} (hbase : base ≤ 16) (hy' : Severs y')
    (h : basedNumber base read (w ++ y) = .ok (kind, number))
    (hlength : number.length ≤ read.length + w.length) :
    basedNumber base read (w ++ y') = .ok (kind, number) := by
  obtain ⟨run, hrun, hrest, rfl, rfl⟩ := basedNumber_eq_ok_iff.mp h
  rw [List.length_append] at hlength
  have hle : run.length ≤ w.length := by omega
  rw [drop_seam hle] at hrest
  refine basedNumber_eq_ok_iff.mpr ⟨run, digits_seam hbase hy' hrun hle, ?_, rfl, rfl⟩
  rw [drop_seam hle]
  -- the character behind the digits is one of `w`, or the first that severs
  cases hleft : w.drop run.length with
  | cons c cs => rwa [hleft] at hrest
  | nil => exact hy'.head_false fun c => solid_of_isNameChar

theorem fraction_seam (hy' : Severs y') (h : fraction read (w ++ y) = .ok (kind, number, rest))
    (hlength : number.length ≤ read.length + w.length) :
    ∃ w', rest = w' ++ y ∧ number.length + w'.length = read.length + w.length ∧
      fraction read (w ++ y') = .ok (kind, number, w' ++ y') := by
  rcases fraction_eq_ok_iff.mp h with
    ⟨c, s, run, hc, hcs, hrun, rfl, rfl, rfl⟩ | ⟨hfraction, rfl, rfl, rfl⟩
  · have hpos := digits_ok hrun
    rw [List.length_append, List.length_cons] at hlength
    -- the point and the digits are within `w`
    change w ++ y = ['.'] ++ c :: s at hcs
    obtain ⟨w', rfl, rfl⟩ := eq_of_lt_length hcs (by rw [List.length_singleton]; omega)
    have hle : run.length ≤ (c :: w').length := by
      rw [List.length_append, List.length_singleton] at hlength
      omega
    refine ⟨(c :: w').drop run.length, drop_seam hle y, ?_, fraction_eq_ok_iff.mpr (.inl ?_)⟩
    · simp only [List.length_append, List.length_drop, List.length_cons, List.length_nil] at hle ⊢
      omega
    · have hdigits := digits_seam (by decide) hy' hrun hle
      exact ⟨c, w' ++ y', run, hc, rfl, hdigits, rfl, rfl, (drop_seam hle y').symm⟩
  · refine ⟨w, rfl, rfl, fraction_of_not ?_⟩
    rintro ⟨c, s, hcs, hc⟩
    obtain ⟨w', rfl⟩ := exists_of_lead hy' (isLead_singleton (by decide)) hc hcs
    exact hfraction ⟨c, w' ++ y, by simp, hc⟩

theorem IsExponentLead.isLead {lead : List Char} (h : IsExponentLead lead) : IsLead lead := by
  obtain ⟨marker, sign, rfl, hmarker, hsign⟩ := h
  have hsolid : Solid marker := by
    rcases hmarker with rfl | rfl <;> decide
  refine isLead_cons hsolid ?_
  rcases hsign with rfl | rfl | rfl
  · intro a t h
    cases List.suffix_nil.mp h
  · exact isLead_singleton (by decide)
  · exact isLead_singleton (by decide)

theorem exponent_seam (hy' : Severs y')
    (h : exponent kind read (w ++ y) = .ok (kind', number, rest))
    (hlength : number.length ≤ read.length + w.length) :
    ∃ w', rest = w' ++ y ∧ number.length + w'.length = read.length + w.length ∧
      exponent kind read (w ++ y') = .ok (kind', number, w' ++ y') := by
  rcases exponent_eq_ok_iff.mp h with
    ⟨lead, c, s, run, hlead, hc, hcs, hrun, rfl, rfl, rfl⟩ | ⟨hexponent, rfl, rfl, rfl⟩
  · have hpos := digits_ok hrun
    have hleadLength : lead.tail.length + 1 = lead.length := by
      obtain ⟨marker, sign, rfl, -⟩ := hlead
      rfl
    rw [List.length_append, List.length_append, List.length_cons] at hlength
    -- the marker, the sign and the digits are within `w`
    obtain ⟨w', rfl, rfl⟩ := eq_of_lt_length hcs (by omega)
    have hle : run.length ≤ (c :: w').length := by
      rw [List.length_append] at hlength
      omega
    refine ⟨(c :: w').drop run.length, drop_seam hle y, ?_, exponent_eq_ok_iff.mpr (.inl ?_)⟩
    · simp only [List.length_append, List.length_drop, List.length_cons] at hle ⊢
      omega
    · have hdigits := digits_seam (by decide) hy' hrun hle
      exact ⟨lead, c, w' ++ y', run, hlead, hc, List.append_assoc .., hdigits, rfl, rfl,
        (drop_seam hle y').symm⟩
  · refine ⟨w, rfl, rfl, exponent_of_not ?_⟩
    rintro ⟨lead, c, s, hlead, hcs, hc⟩
    obtain ⟨w', rfl⟩ := exists_of_lead hy' hlead.isLead hc hcs
    exact hexponent ⟨lead, c, w' ++ y, hlead, by simp, hc⟩

/-- The unit at the end, or that there is none, is the same in front of `y'`. -/
theorem EndsInUnit.seam {unit : List Char} (hy' : Severs y') (h : EndsInUnit (w ++ y) unit)
    (hlength : unit.length ≤ w.length) : EndsInUnit (w ++ y') unit := by
  cases w with
  | nil =>
      cases List.length_eq_zero_iff.mp (Nat.le_zero.mp hlength)
      exact .inr ⟨hy'.startsName, rfl⟩
  | cons c w =>
      rcases h with ⟨hname, rfl, hunit⟩ | ⟨hname, rfl⟩
      · have hrun := takeWhile_seam hlength (.inr (hy'.head_false fun c => solid_of_isNameChar))
        exact .inl ⟨hname, hrun.symm, hunit⟩
      · exact .inr ⟨hname, rfl⟩

theorem decimalNumber_seam (hy' : Severs y')
    (h : decimalNumber read (w ++ y) = .ok (kind, number))
    (hlength : number.length ≤ read.length + w.length) :
    decimalNumber read (w ++ y') = .ok (kind, number) := by
  obtain ⟨run, kind₁, number₁, rest₁, number₂, rest₂, unit, hrun, hzero, hfraction, hexponent,
    hunit, rfl⟩ := decimalNumber_eq_ok_iff.mp h
  -- each part ends within `w`, since the whole number does
  have hle₁ := le_spanned_fraction (read ++ run) ((w ++ y).drop run.length)
  have hle₂ := le_spanned_exponent kind₁ number₁ rest₁
  rw [hfraction] at hle₁
  rw [hexponent] at hle₂
  simp only [spanned, List.length_append] at hle₁ hle₂ hlength
  have hle : run.length ≤ w.length := by omega
  have hdrop : (w.drop run.length).length = w.length - run.length := List.length_drop
  rw [drop_seam hle] at hfraction
  obtain ⟨w₁, rfl, hw₁, hfraction'⟩ := fraction_seam hy' hfraction (by
    rw [List.length_append]
    omega)
  rw [List.length_append] at hw₁
  obtain ⟨w₂, rfl, hw₂, hexponent'⟩ := exponent_seam hy' hexponent (by omega)
  rw [← drop_seam hle] at hfraction'
  exact decimalNumber_eq_ok_iff.mpr ⟨run, _, _, _, _, _, unit, digits_seam (by decide) hy' hrun hle,
    hzero, hfraction', hexponent', hunit.seam hy' (by omega), rfl⟩

/-! ## Numbers -/

theorem baseOf?_le {c : Char} {base : Nat} (h : baseOf? c = some base) : base ≤ 16 ∧ Solid c := by
  unfold baseOf? at h
  split at h
  any_goals (cases h; decide)
  cases h

theorem scanNumber_seam {sign : List Char} (hy' : Severs y')
    (h : scanNumber sign (w ++ y) = .ok (kind, number))
    (hlength : number.length ≤ sign.length + w.length) :
    scanNumber sign (w ++ y') = .ok (kind, number) := by
  rcases scanNumber_eq_ok_iff.mp h with ⟨c, s, base, hbase, hcs, hbased⟩ | ⟨hnot, hdecimal⟩
  · have hle := le_spanned_basedNumber base (sign ++ ['0', c]) s
    rw [hbased] at hle
    simp only [spanned, List.length_append, List.length_cons, List.length_nil] at hle
    -- the marker is within `w`
    change w ++ y = ['0'] ++ c :: s at hcs
    obtain ⟨w', rfl, rfl⟩ := eq_of_lt_length hcs (by rw [List.length_singleton]; omega)
    have hbased' := basedNumber_seam (baseOf?_le hbase).1 hy' hbased (by
      simp only [List.length_append, List.length_cons, List.length_nil] at hlength ⊢
      omega)
    exact scanNumber_eq_ok_iff.mpr (.inl ⟨c, w' ++ y', base, hbase, rfl, hbased'⟩)
  · refine scanNumber_eq_ok_iff.mpr (.inr ⟨?_, decimalNumber_seam hy' hdecimal hlength⟩)
    rintro ⟨c, s, base, hcs, hbase⟩
    rcases w with _ | ⟨a, _ | ⟨b, w⟩⟩
    · exact hy'.not_solid (by rw [show y' = '0' :: c :: s from hcs]; rfl) (by decide)
    · cases hcs
      exact hy'.not_solid rfl (baseOf?_le hbase).2
    · cases hcs
      exact hnot ⟨_, _, base, rfl, hbase⟩

theorem signedNumber_seam {sign : List Char} (hy' : Severs y')
    (hvalid : (signedNumber sign (w ++ y)).kind ≠ .invalid)
    (hwidth : (signedNumber sign (w ++ y)).width ≤ w.length + sign.length) :
    signedNumber sign (w ++ y') = signedNumber sign (w ++ y) := by
  obtain ⟨kind, number, hnumber, heq⟩ := exists_of_signedNumber hvalid
  rw [heq] at hwidth ⊢
  rw [signedNumber_eq, scanNumber_seam hy' hnumber (hwidth.trans_eq (Nat.add_comm _ _))]

end ConfigLang.Lexeme
