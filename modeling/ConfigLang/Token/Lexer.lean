import ConfigLang.Token.Width

/-!
# The tokens of a text

`Lexer.next` takes one token off a text whose line breaks are single characters, and
`Lexer.tokens` takes all of them, up to the one that marks the end. Every other token spans at
least one character, so there are no more of them than characters.
-/

namespace ConfigLang

open ConfigLang.Text (isBlank)

/-- What is left of a text, where it starts, and the kind of the last token taken that was no
comment. -/
structure Lexer where
  rest : List Char
  position : Position
  last : Option Kind
deriving DecidableEq, Repr

namespace Lexer

/-- Makes every line break a single line feed. -/
def normalize : List Char → List Char
  | '\r' :: '\n' :: cs => '\n' :: normalize cs
  | '\r' :: cs => '\n' :: normalize cs
  | c :: cs => c :: normalize cs
  | [] => []

/-- The whole of a text. -/
def ofText (text : String) : Lexer :=
  ⟨normalize text.toList, .start, none⟩

/-- Blanks that separate tokens; the end of a line is a token itself. -/
def isGap (c : Char) : Bool :=
  c != '\n' && isBlank c

/-- Goes past the first `n` characters. -/
def skip (n : Nat) (l : Lexer) : Lexer :=
  { l with rest := l.rest.drop n, position := l.position.after (l.rest.take n) }

/-- Goes past the blanks at the front. -/
def skipBlanks (l : Lexer) : Lexer :=
  l.skip (l.rest.takeWhile isGap).length

/-- Takes a lexeme off, which is at the front. -/
def take (lexeme : Lexeme) (l : Lexer) : Token × Lexer :=
  let last := if lexeme.kind = .comment then l.last else some lexeme.kind
  (⟨lexeme.kind, lexeme.text, l.position⟩, { l.skip lexeme.width with last })

/-- The end of the text, where nothing but blanks is left. -/
def finish (l : Lexer) : Token × Lexer :=
  (⟨.eof, "", l.position⟩, { l with last := some .eof })

/-- The next token and what is left behind it. At the end of the text every token is the end. -/
def next (l : Lexer) : Token × Lexer :=
  match l.skipBlanks.rest with
  | [] => l.skipBlanks.finish
  | c :: cs => l.skipBlanks.take (Lexeme.atFront l.last c cs)

/-- The tokens of the text up to its end, and the lexer behind them. -/
def run (l : Lexer) : List Token × Lexer :=
  match _h : l.skipBlanks.rest with
  | [] => ([l.skipBlanks.finish.1], l.skipBlanks.finish.2)
  | c :: cs =>
    let taken := l.skipBlanks.take (Lexeme.atFront l.last c cs)
    let (tokens, stop) := run taken.2
    (taken.1 :: tokens, stop)
termination_by l.rest.length
decreasing_by
  have blanks : l.skipBlanks.rest.length ≤ l.rest.length := by simp [skipBlanks, skip]
  have width := Lexeme.atFront_width_pos l.last c cs
  simp only [take, skip, List.length_drop]
  rw [_h] at blanks ⊢
  simp only [List.length_cons] at blanks ⊢
  omega

/-- The tokens of a text, the last of which is its end. -/
def tokens (text : String) : List Token :=
  (ofText text).run.1

end Lexer

end ConfigLang
