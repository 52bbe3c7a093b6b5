import Mathlib
import ConfigLang.Proofs.Token.Coverage

/-!
# The order of tokens

A token stands before every token behind it in the list (`Lexer.pairwise_before`): what is taken off
the text for it has at least one character, and every character moves the place on.
-/

namespace ConfigLang

namespace Position

/-- A place on an earlier line, or further to the left on the same one. -/
def Before (p q : Position) : Prop :=
  p.line < q.line ∨ p.line = q.line ∧ p.column < q.column

variable {p q r : Position}

theorem Before.trans (hpq : p.Before q) (hqr : q.Before r) : p.Before r := by
  unfold Before at *
  omega

theorem Before.ne (h : p.Before q) : p ≠ q := by
  rintro rfl
  unfold Before at h
  omega

theorem before_next (p : Position) (c : Char) : p.Before (p.next c) := by
  unfold next
  split
  · exact .inl (Nat.lt_succ_self _)
  · exact .inr ⟨rfl, Nat.lt_succ_self _⟩

theorem before_after {cs : List Char} (h : cs ≠ []) (p : Position) : p.Before (p.after cs) := by
  induction cs generalizing p with
  | nil => exact absurd rfl h
  | cons c cs ih =>
      by_cases hcs : cs = []
      · subst hcs
        exact before_next p c
      · exact (before_next p c).trans (ih hcs _)

end Position

namespace Lexer

/-- A token stands behind characters of the text that are left for it. -/
theorem exists_position_eq_after {l : Lexer} {t : Token} (ht : t ∈ l.run.1) :
    ∃ cs, t.position = l.position.after cs := by
  induction hn : l.rest.length using Nat.strong_induction_on generalizing l with
  | _ n ih =>
      by_cases hkind : l.next.1.kind = .eof
      · rw [run_of_eof hkind, List.mem_singleton] at ht
        exact ⟨l.rest, by rw [ht, (next_eof hkind).2.1]⟩
      · obtain ⟨p, -, hposition, hplace⟩ := next_piece hkind
        rw [run_of_ne_eof hkind] at ht
        obtain rfl | ht := List.mem_cons.mp ht
        · exact ⟨p.gap, hposition⟩
        · obtain ⟨cs, hcs⟩ := ih _ (hn ▸ length_next_lt hkind) ht rfl
          exact ⟨p.chars ++ cs, by rw [hcs, hplace, Position.after_append]⟩

theorem pairwise_before (l : Lexer) :
    l.run.1.Pairwise fun t u => t.position.Before u.position := by
  induction hn : l.rest.length using Nat.strong_induction_on generalizing l with
  | _ n ih =>
      by_cases hkind : l.next.1.kind = .eof
      · rw [run_of_eof hkind]
        exact List.pairwise_singleton _ _
      · obtain ⟨p, -, hposition, hplace⟩ := next_piece hkind
        rw [run_of_ne_eof hkind]
        refine List.pairwise_cons.mpr ⟨fun u hu => ?_, ih _ (hn ▸ length_next_lt hkind) _ rfl⟩
        obtain ⟨cs, hcs⟩ := exists_position_eq_after hu
        -- between the two stand the characters of the first at least
        have hu : u.position = l.next.1.position.after (p.span ++ cs) := by
          rw [hcs, hplace, hposition, Piece.chars, Position.after_append, Position.after_append]
        rw [hu]
        exact Position.before_after (List.append_ne_nil_of_left_ne_nil p.span_ne_nil cs) _

end Lexer

end ConfigLang
