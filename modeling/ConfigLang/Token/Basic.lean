/-!
# Tokens

The words of the language: names, literals, comments, marks and variables, each with the place
where it starts. Malformed text is a token too, whose text says what is wrong with it.
-/

namespace ConfigLang

/-- A place in a text. Lines and columns start at one, and columns count characters. -/
structure Position where
  line : Nat
  column : Nat
deriving DecidableEq, Repr, Inhabited

namespace Position

/-- Where a text starts. -/
def start : Position := ⟨1, 1⟩

/-- The place behind a character. -/
def next (p : Position) (c : Char) : Position :=
  if c = '\n' then ⟨p.line + 1, 1⟩ else ⟨p.line, p.column + 1⟩

/-- The place behind a list of characters. -/
def after (p : Position) (cs : List Char) : Position :=
  cs.foldl next p

/-- The form `line:column`. -/
def toText (p : Position) : String :=
  toString p.line ++ ":" ++ toString p.column

end Position

/-- Punctuation. -/
inductive Mark where
  | lbracket
  | rbracket
  | lbrace
  | rbrace
  | lparen
  | rparen
  | comma
  | assign
  | colon
  | question
  | plus
  | minus
  | star
  | slash
  | percent
  | pow
  | and
  | or
  | not
  | tilde
  | ampersand
  | pipe
  | caret
  | shl
  | shr
  | lt
  | le
  | gt
  | ge
  | eq
  | ne
deriving DecidableEq, Repr

namespace Mark

/-- How a mark is written. -/
def spelling : Mark → List Char
  | lbracket => ['[']
  | rbracket => [']']
  | lbrace => ['{']
  | rbrace => ['}']
  | lparen => ['(']
  | rparen => [')']
  | comma => [',']
  | assign => ['=']
  | colon => [':']
  | question => ['?']
  | plus => ['+']
  | minus => ['-']
  | star => ['*']
  | slash => ['/']
  | percent => ['%']
  | pow => ['*', '*']
  | and => ['&', '&']
  | or => ['|', '|']
  | not => ['!']
  | tilde => ['~']
  | ampersand => ['&']
  | pipe => ['|']
  | caret => ['^']
  | shl => ['<', '<']
  | shr => ['>', '>']
  | lt => ['<']
  | le => ['<', '=']
  | gt => ['>']
  | ge => ['>', '=']
  | eq => ['=', '=']
  | ne => ['!', '=']

/-- Every mark, a longer one before those that it begins with. -/
def all : List Mark :=
  [pow, and, or, shl, shr, le, ge, eq, ne,
   lbracket, rbracket, lbrace, rbrace, lparen, rparen, comma, assign, colon, question,
   plus, minus, star, slash, percent, not, tilde, ampersand, pipe, caret, lt, gt]

/-- The longest mark at the front of a text. -/
def atFront? (cs : List Char) : Option Mark :=
  all.find? fun m => m.spelling.isPrefixOf cs

/-- The spelling as a text. -/
def toText (m : Mark) : String :=
  String.ofList m.spelling

end Mark

/-- The kinds of tokens. -/
inductive Kind where
  | identifier
  | comment
  /-- A name behind a dot. -/
  | directive
  | heredoc
  | string
  | integer
  | float
  | date
  | dateTime
  | time
  | boolean
  | null
  /-- The end of a line. -/
  | eol
  /-- A name behind `$`. -/
  | localVar
  /-- A name behind `@`. -/
  | envVar
  | mark (mark : Mark)
  /-- The end of the text. -/
  | eof
  /-- Malformed text. -/
  | invalid
deriving DecidableEq, Repr

namespace Kind

/-- Whether a token of this kind can end an operand. A hyphen before a digit belongs to the
number only where the token before it cannot. -/
def endsOperand : Kind → Bool
  | identifier | heredoc | string | integer | float | date | dateTime | time | boolean | null
  | localVar | envVar | mark .rbracket | mark .rparen | mark .rbrace => true
  | _ => false

/-- How a kind is called in messages. -/
def describe : Kind → String
  | identifier => "identifier"
  | comment => "comment"
  | directive => "macro"
  | heredoc => "heredoc"
  | string => "string"
  | integer => "integer"
  | float => "float"
  | date => "date"
  | dateTime => "datetime"
  | time => "time"
  | boolean => "boolean"
  | null => "null"
  | eol => "end of line"
  | localVar => "local variable"
  | envVar => "environment variable"
  | mark m => "'" ++ m.toText ++ "'"
  | eof => "end of input"
  | invalid => "invalid token"

end Kind

/-- A token. The text of a string is its decoded content, that of a comment its trimmed body,
and that of a malformed token what is wrong with it. -/
structure Token where
  kind : Kind
  text : String
  position : Position
deriving DecidableEq, Repr

/-- How a token is called in messages. -/
def Token.describe (t : Token) : String :=
  if t.kind = .eof ∨ t.kind = .eol ∨ t.text = "" then t.kind.describe
  else t.kind.describe ++ " '" ++ t.text ++ "'"

end ConfigLang
