import Mathlib
import ConfigLang.Proofs.Token.Kinds

/-!
# The tokens of a text cover it

Every token but the last spans at least one character, its span is behind that of the
token before it, and between the two there are blanks only.  So there are no more of
them than characters, and once the end of the text is taken it is taken for ever.

The induction is on the tokens of `Lexer.run`: `next_piece` says what one of them takes
off the text, and `next_eof` that the end takes nothing but blanks.
-/

namespace ConfigLang

namespace Position

/-- The line and column of what stands behind some characters: one more than the line breaks among
them, and one more than the characters behind the last line break. -/
def behind (before : List Char) : Position :=
  ⟨before.count '\n' + 1, (before.reverse.takeWhile (· != '\n')).length + 1⟩

theorem after_append (p : Position) (xs ys : List Char) :
    p.after (xs ++ ys) = (p.after xs).after ys :=
  List.foldl_append

/-- No character but a line break leaves the line. -/
theorem after_of_ne_newline {cs : List Char} (h : ∀ c ∈ cs, c ≠ '\n') (p : Position) :
    p.after cs = ⟨p.line, p.column + cs.length⟩ := by
  induction cs generalizing p with
  | nil => rfl
  | cons c cs ih =>
      obtain ⟨hc, hcs⟩ := List.forall_mem_cons.mp h
      have hnext : p.next c = ⟨p.line, p.column + 1⟩ := if_neg hc
      calc p.after (c :: cs) = (p.next c).after cs := rfl
        _ = ⟨p.line, p.column + 1 + cs.length⟩ := by rw [hnext, ih hcs]
        _ = ⟨p.line, p.column + (c :: cs).length⟩ := by
          rw [List.length_cons, Nat.add_assoc, Nat.add_comm 1]

theorem line_after {cs : List Char} (h : ∀ c ∈ cs, c ≠ '\n') (p : Position) :
    (p.after cs).line = p.line := by
  rw [after_of_ne_newline h]

theorem after_lineBreak {cs : List Char} (h : ∀ c ∈ cs, c ≠ '\n') (p : Position) :
    p.after (cs ++ ['\n']) = ⟨p.line + 1, 1⟩ := by
  rw [after_append, ← line_after h p]
  rfl

end Position

namespace Lexer

/-- What a token takes off a text: blanks, and behind them the characters that it spans. -/
structure Piece where
  gap : List Char
  span : List Char
  isGap : ∀ c ∈ gap, Lexer.isGap c = true
  span_ne_nil : span ≠ []

/-- The characters of a piece. -/
def Piece.chars (p : Piece) : List Char :=
  p.gap ++ p.span

theorem Piece.length_chars_pos (p : Piece) : 0 < p.chars.length := by
  have hspan := List.length_pos_iff.mpr p.span_ne_nil
  rw [chars, List.length_append]
  omega

/-- The lexer behind the first `n` tokens. -/
def advance (l : Lexer) : Nat → Lexer
  | 0 => l
  | n + 1 => l.next.2.advance n

/-! ## One token -/

section

variable {l : Lexer}

theorem rest_skipBlanks (l : Lexer) : l.skipBlanks.rest = l.rest.dropWhile isGap := by
  conv_lhs => rw [skipBlanks, skip]
  dsimp only
  conv_lhs => arg 2; rw [← List.takeWhile_append_dropWhile (p := isGap) (l := l.rest)]
  exact List.drop_left

theorem position_skipBlanks (l : Lexer) :
    l.skipBlanks.position = l.position.after (l.rest.takeWhile isGap) := by
  have htake : l.rest.take (l.rest.takeWhile isGap).length = l.rest.takeWhile isGap := by
    conv_lhs => arg 2; rw [← List.takeWhile_append_dropWhile (p := isGap) (l := l.rest)]
    exact List.take_left
  rw [skipBlanks, skip, htake]

theorem skipBlanks_of_nil (h : l.rest = []) : l.skipBlanks = l := by
  obtain ⟨rest, position, last⟩ := l
  cases h
  rfl

theorem next_of_nil (h : l.skipBlanks.rest = []) : l.next = l.skipBlanks.finish := by
  unfold next
  split
  · rfl
  · rename_i hcons
    rw [h] at hcons
    cases hcons

theorem next_of_cons {c : Char} {cs : List Char} (h : l.skipBlanks.rest = c :: cs) :
    l.next = l.skipBlanks.take (Lexeme.atFront l.last c cs) := by
  unfold next
  split
  · rename_i hnil
    rw [h] at hnil
    cases hnil
  · rename_i hcons
    rw [h] at hcons
    cases hcons
    rfl

theorem skipBlanks_rest_of_eof (h : l.next.1.kind = .eof) : l.skipBlanks.rest = [] := by
  cases hrest : l.skipBlanks.rest with
  | nil => rfl
  | cons c cs =>
      rw [next_of_cons hrest] at h
      exact absurd h (Lexeme.kind_atFront_ne_eof _ _ _)

/-- The next token takes blanks off the text, and the characters that its lexeme spans. -/
theorem next_split {c : Char} {cs : List Char} (h : l.skipBlanks.rest = c :: cs) :
    let gap := l.rest.takeWhile isGap
    let span := (c :: cs).take (Lexeme.atFront l.last c cs).width
    l.rest = gap ++ span ++ l.next.2.rest ∧ l.next.1.position = l.position.after gap ∧
      l.next.2.position = l.position.after (gap ++ span) := by
  intro gap span
  rw [next_of_cons h, take, skip]
  refine ⟨?_, position_skipBlanks l, ?_⟩
  · dsimp only
    rw [List.append_assoc, h, List.take_append_drop, ← h, rest_skipBlanks,
      List.takeWhile_append_dropWhile]
  · rw [Position.after_append, ← position_skipBlanks, h]

/-- A token other than the end takes a piece off the text. -/
theorem next_piece (h : l.next.1.kind ≠ .eof) :
    ∃ p : Piece, l.rest = p.chars ++ l.next.2.rest ∧
      l.next.1.position = l.position.after p.gap ∧
      l.next.2.position = l.position.after p.chars := by
  cases hrest : l.skipBlanks.rest with
  | nil =>
      rw [next_of_nil hrest] at h
      exact absurd rfl h
  | cons c cs =>
      have hspan : (c :: cs).take (Lexeme.atFront l.last c cs).width ≠ [] := by
        cases hw : (Lexeme.atFront l.last c cs).width with
        | zero => exact absurd hw (Lexeme.atFront_width_pos l.last c cs).ne'
        | succ w => exact List.cons_ne_nil _ _
      exact ⟨⟨l.rest.takeWhile isGap, _, fun x hx => List.mem_takeWhile_imp hx, hspan⟩,
        next_split hrest⟩

theorem length_next_lt (h : l.next.1.kind ≠ .eof) : l.next.2.rest.length < l.rest.length := by
  obtain ⟨p, hrest, -⟩ := next_piece h
  have hpos := p.length_chars_pos
  rw [hrest, List.length_append]
  omega

/-- The end of the text has blanks before it only, and the token behind it is the same. -/
theorem next_eof (h : l.next.1.kind = .eof) :
    (∀ c ∈ l.rest, isGap c = true) ∧ l.next.1 = ⟨.eof, "", l.position.after l.rest⟩ ∧
      l.next.2.next = l.next := by
  have hrest := skipBlanks_rest_of_eof h
  have hnext := next_of_nil hrest
  have hblank : l.rest.dropWhile isGap = [] := (rest_skipBlanks l).symm.trans hrest
  have hall : l.rest.takeWhile isGap = l.rest := by
    have happend := List.takeWhile_append_dropWhile (p := isGap) (l := l.rest)
    rwa [hblank, List.append_nil] at happend
  refine ⟨fun c hc => List.mem_takeWhile_imp (hall.symm ▸ hc), ?_, ?_⟩
  · rw [hnext, finish, position_skipBlanks, hall]
  · rw [hnext]
    have hagain : l.skipBlanks.finish.2.skipBlanks = l.skipBlanks.finish.2 :=
      skipBlanks_of_nil hrest
    rw [next_of_nil (by rw [hagain]; exact hrest), hagain]
    rfl

theorem run_of_eof (h : l.next.1.kind = .eof) : l.run = ([l.next.1], l.next.2) := by
  have hrest := skipBlanks_rest_of_eof h
  rw [run, next_of_nil hrest]
  split
  · rfl
  · rename_i hcons
    rw [hrest] at hcons
    cases hcons

theorem run_of_ne_eof (h : l.next.1.kind ≠ .eof) :
    l.run = (l.next.1 :: l.next.2.run.1, l.next.2.run.2) := by
  rw [run]
  split
  · rename_i hnil
    rw [next_of_nil hnil] at h
    exact absurd rfl h
  · rename_i hcons
    rw [next_of_cons hcons]

/-- The token at the front of a text is one of its tokens. -/
theorem mem_tokens_of_next {text : String} {token : Token} (hnext : (ofText text).next.1 = token)
    (hkind : token.kind ≠ .eof) : token ∈ tokens text := by
  subst hnext
  rw [tokens, run_of_ne_eof hkind]
  exact List.mem_cons_self

end

/-! ## All tokens -/

/-- The tokens of a text cover it with pieces, one for each token but the end, and a tail of blanks.
`place` is where a character stands whose predecessors in the text are known. -/
structure Covers (place : List Char → Position) (l : Lexer) (pieces : List Piece)
    (tail : List Char) : Prop where
  chars : l.rest = pieces.flatMap Piece.chars ++ tail
  isGap : ∀ c ∈ tail, isGap c = true
  length_le : pieces.length ≤ l.rest.length
  /-- Each token takes its piece, and stands where the span of the piece begins. -/
  token : ∀ n (h : n < pieces.length),
    (l.advance n).rest = pieces[n].chars ++ (l.advance (n + 1)).rest ∧
      (l.advance n).next.1.kind ≠ .eof ∧
      (l.advance n).next.1.position =
        place ((pieces.take n).flatMap Piece.chars ++ pieces[n].gap)
  /-- Behind the pieces every token is the end. -/
  stop : ∀ n, pieces.length ≤ n → (l.advance n).next.1 = ⟨.eof, "", place l.rest⟩
  tokens : l.run.1 = (List.range (pieces.length + 1)).map fun n => (l.advance n).next.1

theorem Covers.cons {l : Lexer} {p : Piece} {pieces : List Piece} {tail : List Char}
    (h : Covers l.next.2.position.after l.next.2 pieces tail) (hkind : l.next.1.kind ≠ .eof)
    (hrest : l.rest = p.chars ++ l.next.2.rest)
    (hposition : l.next.1.position = l.position.after p.gap)
    (hplace : l.next.2.position = l.position.after p.chars) :
    Covers l.position.after l (p :: pieces) tail where
  chars := by rw [hrest, h.chars, List.flatMap_cons, List.append_assoc]
  isGap := h.isGap
  length_le := by
    have hle := h.length_le
    have hpos := p.length_chars_pos
    rw [hrest, List.length_append, List.length_cons]
    omega
  token
    | 0, _ => ⟨hrest, hkind, hposition⟩
    | n + 1, hn => by
        obtain ⟨htakes, hne, hstands⟩ := h.token n (Nat.lt_of_succ_lt_succ hn)
        refine ⟨htakes, hne, hstands.trans ?_⟩
        rw [hplace, ← Position.after_append]
        simp only [List.take_succ_cons, List.flatMap_cons, List.append_assoc,
          List.getElem_cons_succ]
  stop
    | 0, hn => absurd hn (Nat.not_succ_le_zero _)
    | n + 1, hn => by
        rw [advance, h.stop n (Nat.le_of_succ_le_succ hn), hplace, ← Position.after_append, ← hrest]
  tokens := by
    rw [run_of_ne_eof hkind, h.tokens, List.length_cons,
      List.range_succ_eq_map (n := pieces.length + 1), List.map_cons,
      List.map_map]
    rfl

end Lexer

end ConfigLang
