import ConfigLang.Text.Blank
import ConfigLang.Token.Basic
import ConfigLang.UnitSuffix

/-!
# Lexemes

What stands at the front of a text: the kind and text of the next token, and how many characters
it spans. Each family of tokens has a scanner of its own; `Lexeme.atFront` picks the family by
the first characters. A malformed token spans what its scanner had read when it gave up.
-/

namespace ConfigLang

open ConfigLang.Text (isBlank trim)

/-- The kind and text of a token and the number of characters it spans. -/
structure Lexeme where
  kind : Kind
  text : String
  width : Nat
deriving DecidableEq, Repr

/-- What can be wrong with a token. -/
inductive Flaw where
  | unterminatedComment
  | invalidEscape (c : Char)
  | unterminatedString
  | bodylessHeredoc (label : String)
  | strayBehindLabel (c : Char) (label : String)
  | unterminatedHeredoc (label : String)
  | emptyHeredoc (label : String)
  | missingDigits
  | misplacedSeparator (digits : String)
  | invalidDigit (number : String)
  | leadingZero (number : String)
  | unknownUnit (suffix number : String)
  | missingName (sigil : Char)
  | unexpectedCharacter (c : Char)
deriving DecidableEq, Repr

/-- The wording of a flaw. -/
def Flaw.message : Flaw → String
  | unterminatedComment => "unterminated block comment"
  | invalidEscape c => "invalid escape sequence \\" ++ c.toString
  | unterminatedString => "unterminated string"
  | bodylessHeredoc label => "heredoc " ++ label ++ " has no body"
  | strayBehindLabel c label =>
    "unexpected '" ++ c.toString ++ "' after heredoc label " ++ label
  | unterminatedHeredoc label => "unterminated heredoc, expected closing " ++ label
  | emptyHeredoc label => "heredoc " ++ label ++ " has an empty body"
  | missingDigits => "missing digits"
  | misplacedSeparator digits => "misplaced digit separator in '" ++ digits ++ "'"
  | invalidDigit number => "invalid digit in '" ++ number ++ "'"
  | leadingZero number => "leading zero in '" ++ number ++ "'"
  | unknownUnit suffix number => "unknown unit '" ++ suffix ++ "' after " ++ number
  | missingName sigil => "expected a name after '" ++ sigil.toString ++ "'"
  | unexpectedCharacter c => "unexpected character '" ++ c.toString ++ "'"

namespace Lexeme

/-- A malformed token. -/
def flawed (flaw : Flaw) (width : Nat) : Lexeme :=
  ⟨.invalid, flaw.message, width⟩

/-! ## Names -/

/-- The characters that a name may start with. -/
def isNameStart (c : Char) : Bool :=
  c.isAlpha || c == '_'

/-- The characters that a name may go on with. -/
def isNameChar (c : Char) : Bool :=
  c.isAlphanum || c == '_'

/-- Whether a text starts with a name. -/
def startsName : List Char → Bool
  | c :: _ => isNameStart c
  | [] => false

/-- The kind and text of a word; the truth values, null and two numbers are words. -/
def ofWord (word : String) : Kind × String :=
  if word = "true" ∨ word = "yes" ∨ word = "on" then (.boolean, "true")
  else if word = "false" ∨ word = "no" ∨ word = "off" then (.boolean, "false")
  else if word = "null" then (.null, word)
  else if word = "inf" ∨ word = "nan" then (.float, word)
  else (.identifier, word)

/-- A bare word. -/
def word (cs : List Char) : Lexeme :=
  let run := cs.takeWhile isNameChar
  let (kind, text) := ofWord (String.ofList run)
  ⟨kind, text, run.length⟩

/-- A name behind a sigil. -/
def sigilName (kind : Kind) (sigil : Char) (cs : List Char) : Lexeme :=
  if startsName cs then
    let run := cs.takeWhile isNameChar
    ⟨kind, String.ofList run, run.length + 1⟩
  else flawed (.missingName sigil) 1

/-! ## Comments and strings -/

/-- The rest of a line behind `#`. -/
def lineComment (cs : List Char) : Lexeme :=
  let body := cs.takeWhile (· != '\n')
  ⟨.comment, String.ofList (trim body), body.length + 1⟩

/-- The body of a block comment, read backwards; none if it does not end. -/
def blockBody? (body : List Char) : List Char → Option (List Char)
  | '*' :: '/' :: _ => some body
  | c :: cs => blockBody? (c :: body) cs
  | [] => none

/-- The text behind `/*` up to the first `*/`. -/
def blockComment (cs : List Char) : Lexeme :=
  match blockBody? [] cs with
  | some body => ⟨.comment, String.ofList (trim body.reverse), body.length + 4⟩
  | none => flawed .unterminatedComment (cs.length + 2)

/-- The character of an escape sequence. -/
def escaped? : Char → Option Char
  | 'n' => some '\n'
  | 'r' => some '\r'
  | 't' => some '\t'
  | '\x22' => some '\x22'
  | '\\' => some '\\'
  | _ => none

/-- Reads up to the closing quote. `body` is the content so far, read backwards, and `width` what
the token spans so far. Only double quotes know escapes. -/
def stringBody (quote : Char) (body : List Char) (width : Nat) : List Char → Lexeme
  | [] => flawed .unterminatedString width
  | c :: cs =>
    if c = quote then ⟨.string, String.ofList body.reverse, width + 1⟩
    else if c = '\\' ∧ quote = '\x22' then
      match cs with
      | [] => flawed .unterminatedString (width + 1)
      | e :: cs =>
        match escaped? e with
        | some d => stringBody quote (d :: body) (width + 2) cs
        | none => flawed (.invalidEscape e) (width + 1)
    else stringBody quote (c :: body) (width + 1) cs

/-! ## Heredocs -/

/-- The characters of a heredoc label. -/
def isLabelChar (c : Char) : Bool :=
  c.isUpper || c.isDigit || c == '_'

/-- Reads lines up to the one that is the label once trimmed. `lines` are those so far, read
backwards, and `width` what the token spans so far. -/
def heredocBody (label : List Char) (lines : List (List Char)) (width : Nat) (cs : List Char) :
    Lexeme :=
  if cs.isEmpty then flawed (.unterminatedHeredoc (String.ofList label)) width
  else
    let line := cs.takeWhile (· != '\n')
    if trim line = label then
      if lines.isEmpty then
        flawed (.emptyHeredoc (String.ofList label)) (width + line.length)
      else
        ⟨.heredoc, String.ofList (List.intercalate ['\n'] lines.reverse), width + line.length⟩
    else
      match h : cs.dropWhile (· != '\n') with
      | [] => flawed (.unterminatedHeredoc (String.ofList label)) (width + line.length)
      | _ :: rest => heredocBody label (line :: lines) (width + line.length + 1) rest
termination_by cs.length
decreasing_by
  have := (List.dropWhile_sublist (l := cs) (· != '\n')).length_le
  rw [h, List.length_cons] at this
  omega

/-- The text behind `<<`: a label, the lines of the body, and the label again. -/
def heredoc (cs : List Char) : Lexeme :=
  let label := cs.takeWhile isLabelChar
  let rest := cs.drop label.length
  let blanks := rest.takeWhile fun c => c != '\n' && isBlank c
  let width := 2 + label.length + blanks.length
  match rest.drop blanks.length with
  | [] => flawed (.bodylessHeredoc (String.ofList label)) width
  | '\n' :: body => heredocBody label [] (width + 1) body
  | c :: _ => flawed (.strayBehindLabel c (String.ofList label)) width

/-! ## Calendar literals

The patterns look at no more than the first `momentWindow` characters. -/

/-- The length of text that a calendar literal may take. -/
def momentWindow : Nat := 48

/-- The text behind so many digits. -/
def behindDigits? : Nat → List Char → Option (List Char)
  | 0, cs => some cs
  | n + 1, c :: cs => if c.isDigit then behindDigits? n cs else none
  | _ + 1, [] => none

/-- The text behind one character of a class. -/
def behind? (wanted : Char → Bool) : List Char → Option (List Char)
  | c :: cs => if wanted c then some cs else none
  | [] => none

/-- The text behind `2024-03-01`. -/
def behindDate? (cs : List Char) : Option (List Char) := do
  let r ← behind? (· == '-') (← behindDigits? 4 cs)
  let r ← behind? (· == '-') (← behindDigits? 2 r)
  behindDigits? 2 r

/-- The text behind `10:30`. -/
def behindMinutes? (cs : List Char) : Option (List Char) := do
  behindDigits? 2 (← behind? (· == ':') (← behindDigits? 2 cs))

/-- The text behind an optional fraction. -/
def behindFraction : List Char → List Char
  | '.' :: c :: cs => if c.isDigit then cs.dropWhile Char.isDigit else '.' :: c :: cs
  | cs => cs

/-- The text behind an optional `:00` with an optional fraction. -/
def behindSeconds (cs : List Char) : List Char :=
  match behind? (· == ':') cs >>= behindDigits? 2 with
  | some r => behindFraction r
  | none => cs

/-- The text behind an optional zone. -/
def behindZone : List Char → List Char
  | 'Z' :: cs => cs
  | c :: cs =>
    if c = '+' ∨ c = '-' then (behindMinutes? cs).getD (c :: cs) else c :: cs
  | [] => []

/-- The text behind a time of day. -/
def behindTime? (cs : List Char) : Option (List Char) :=
  (behindMinutes? cs).map fun r => behindZone (behindSeconds r)

/-- The text behind a date and a time. -/
def behindDateTime? (cs : List Char) : Option (List Char) := do
  behindTime? (← behind? (fun c => c == 'T' || c == ' ') (← behindDate? cs))

/-- The calendar literal at the front of a text. -/
def moment? (cs : List Char) : Option Lexeme :=
  let window := cs.take momentWindow
  let literal (kind : Kind) (rest : List Char) : Lexeme :=
    let width := window.length - rest.length
    ⟨kind, String.ofList (window.take width), width⟩
  ((behindDateTime? window).map (literal .dateTime)).or <|
    ((behindDate? window).map (literal .date)).or <|
      (behindTime? window).map (literal .time)

/-! ## Numbers

The scanners of the parts of a number get what was read of it so far, and give up with the flaw
and the text read until then. -/

/-- Whether a character is a digit of a base up to sixteen. -/
def isDigitOf (base : Nat) (c : Char) : Bool :=
  let n := c.toNat
  (48 ≤ n && n < 48 + min base 10) || (97 ≤ n && n < 87 + base) || (65 ≤ n && n < 55 + base)

/-- Whether two separators stand side by side. -/
def hasDoubleSeparator : List Char → Bool
  | '_' :: '_' :: _ => true
  | _ :: cs => hasDoubleSeparator cs
  | [] => false

/-- Reads digits, between any two of which a separator may stand. -/
def digits (base : Nat) (read cs : List Char) : Except (Flaw × List Char) (List Char) :=
  let run := cs.takeWhile fun c => isDigitOf base c || c == '_'
  if run.isEmpty then .error (.missingDigits, read)
  else if run.head? = some '_' ∨ run.getLast? = some '_' ∨ hasDoubleSeparator run then
    .error (.misplacedSeparator (String.ofList run), read ++ run)
  else .ok run

/-- The base that a marker letter stands for. -/
def baseOf? : Char → Option Nat
  | 'x' | 'X' => some 16
  | 'o' | 'O' => some 8
  | 'b' | 'B' => some 2
  | _ => none

/-- A number with a base marker, of which `read` was read. -/
def basedNumber (base : Nat) (read cs : List Char) :
    Except (Flaw × List Char) (Kind × List Char) := do
  let run ← digits base read cs
  let read := read ++ run
  match cs.drop run.length with
  | c :: _ =>
    if isNameChar c then .error (.invalidDigit (String.ofList read), read)
    else .ok (.integer, read)
  | [] => .ok (.integer, read)

/-- Reads a fraction, if a point and a digit follow. -/
def fraction (read cs : List Char) : Except (Flaw × List Char) (Kind × List Char × List Char) :=
  match cs with
  | '.' :: c :: r =>
    if c.isDigit then do
      let run ← digits 10 (read ++ ['.']) (c :: r)
      .ok (.float, read ++ '.' :: run, (c :: r).drop run.length)
    else .ok (.integer, read, cs)
  | _ => .ok (.integer, read, cs)

/-- Reads an exponent, if its marker, an optional sign and a digit follow. The marker is kept as
a small letter. -/
def exponent (kind : Kind) (read cs : List Char) :
    Except (Flaw × List Char) (Kind × List Char × List Char) :=
  match cs with
  | marker :: r =>
    if marker = 'e' ∨ marker = 'E' then
      let (sign, r) := match r with
        | '+' :: s => (['+'], s)
        | '-' :: s => (['-'], s)
        | s => ([], s)
      match r with
      | c :: s =>
        if c.isDigit then do
          let read := read ++ 'e' :: sign
          let run ← digits 10 read (c :: s)
          .ok (.float, read ++ run, (c :: s).drop run.length)
        else .ok (kind, read, cs)
      | [] => .ok (kind, read, cs)
    else .ok (kind, read, cs)
  | [] => .ok (kind, read, cs)

/-- A decimal number with its fraction, exponent and unit. -/
def decimalNumber (read cs : List Char) : Except (Flaw × List Char) (Kind × List Char) := do
  let run ← digits 10 read cs
  let number := read ++ run
  if 1 < run.length ∧ run.head? = some '0' then
    throw (.leadingZero (String.ofList number), number)
  let (kind, number, rest) ← fraction number (cs.drop run.length)
  let (kind, number, rest) ← exponent kind number rest
  if startsName rest then
    let suffix := rest.takeWhile isNameChar
    if (UnitSuffix.ofText? (String.ofList suffix)).isNone then
      throw (.unknownUnit (String.ofList suffix) (String.ofList number), number ++ suffix)
    return (kind, number ++ suffix)
  else return (kind, number)

/-- A number, of which the sign was read. -/
def signedNumber (sign cs : List Char) : Lexeme :=
  let found := match cs with
    | '0' :: c :: r =>
      match baseOf? c with
      | some base => basedNumber base (sign ++ ['0', c]) r
      | none => decimalNumber sign cs
    | _ => decimalNumber sign cs
  match found with
  | .ok (kind, number) => ⟨kind, String.ofList number, number.length⟩
  | .error (flaw, read) => flawed flaw read.length

/-- A number or calendar literal that starts with a digit. -/
def unsigned (cs : List Char) : Lexeme :=
  (moment? cs).getD (signedNumber [] cs)

/-! ## The front of a text -/

/-- Whether a text starts with a digit. -/
def startsDigit : List Char → Bool
  | c :: _ => c.isDigit
  | [] => false

/-- Whether a text starts with a letter that may start a heredoc label. -/
def startsLabel : List Char → Bool
  | c :: _ => c.isUpper
  | [] => false

/-- The token at the front of a text without blanks before it. `last` is the kind of the last
token that was no comment. -/
def atFront (last : Option Kind) (c : Char) (cs : List Char) : Lexeme :=
  match c, cs with
  | '\n', _ => ⟨.eol, "\n", 1⟩
  | '#', _ => lineComment cs
  | '/', '*' :: r => blockComment r
  | '.', _ => sigilName .directive c cs
  | '$', _ => sigilName .localVar c cs
  | '@', _ => sigilName .envVar c cs
  | _, _ =>
    if c = '\x22' ∨ c = '\x27' then stringBody c [] 1 cs
    else if c = '<' ∧ cs.head? = some '<' ∧ startsLabel (cs.drop 1) then heredoc (cs.drop 1)
    -- behind an operand a hyphen subtracts, even when a digit follows
    else if c = '-' ∧ startsDigit cs ∧ ¬(last.any Kind.endsOperand) then signedNumber ['-'] cs
    else if c.isDigit then unsigned (c :: cs)
    else if isNameStart c then word (c :: cs)
    else
      match Mark.atFront? (c :: cs) with
      | some m => ⟨.mark m, m.toText, m.spelling.length⟩
      | none => flawed (.unexpectedCharacter c) 1

end Lexeme

end ConfigLang
