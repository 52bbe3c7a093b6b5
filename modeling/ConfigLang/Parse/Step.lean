import ConfigLang.Parse.Error
import ConfigLang.Token.Lexer

/-!
# Steps through a list of tokens

A parser reads from the front of a list of tokens, the end of which is the end of the text, and
gives what it read together with the tokens that are left: a suffix of those it got. Stepping
onto a malformed token is an error at once, also where what was read before would be enough.
-/

namespace ConfigLang

/-- The tokens of a text without the one for its end, and where it ends. -/
structure TokenList where
  tokens : List Token
  stop : Position
deriving DecidableEq, Repr

/-- The tokens of a text. -/
def TokenList.ofText (text : String) : TokenList :=
  let (tokens, lexer) := (Lexer.ofText text).run
  ⟨tokens.dropLast, lexer.position⟩

/-- What was read off the front of `input`. -/
structure Parsed (α : Type) (input : List Token) where
  value : α
  rest : List Token
  isSuffix : rest <:+ input

namespace Parsed

variable {α β : Type} {input : List Token}

/-- No more tokens are left than there were. -/
theorem length_le (p : Parsed α input) : p.rest.length ≤ input.length :=
  p.isSuffix.length_le

/-- Reading on from what an earlier part left. -/
def behind (earlier : Parsed α input) (p : Parsed β earlier.rest) : Parsed β input :=
  ⟨p.value, p.rest, p.isSuffix.trans earlier.isSuffix⟩

/-- Reading on from behind the first token. -/
def behindToken (t : Token) (p : Parsed α input) : Parsed α (t :: input) :=
  ⟨p.value, p.rest, p.isSuffix.trans (List.suffix_cons t input)⟩

/-- Reading on from behind the first token of what was left. -/
def past {t : Token} {rest : List Token} (left : t :: rest <:+ input) (p : Parsed α rest) :
    Parsed α input :=
  ⟨p.value, p.rest, p.isSuffix.trans ((List.suffix_cons t rest).trans left)⟩

/-- Changes what was read. -/
def map (f : α → β) (p : Parsed α input) : Parsed β input :=
  ⟨f p.value, p.rest, p.isSuffix⟩

/-- Reading nothing. -/
def here (value : α) (input : List Token) : Parsed α input :=
  ⟨value, input, List.suffix_refl input⟩

end Parsed

namespace Parse

/-- The kind of the first token; that of the end of the text if there is none. -/
def front : List Token → Kind
  | t :: _ => t.kind
  | [] => .eof

/-- Where the first token stands, which is `stop` if there is none. -/
def place (stop : Position) : List Token → Position
  | t :: _ => t.position
  | [] => stop

/-- The error that something else was expected at the front. -/
def unexpected (stop : Position) (expected : Expected) : List Token → ParseError
  | t :: _ => .unexpectedToken expected (.token t) t.position
  | [] => .unexpectedEnd expected stop

/-- Steps onto the first token, which must not be malformed. -/
def onto : List Token → Except ParseError Unit
  | t :: _ => if t.kind = .invalid then .error (.invalidToken t.text t.position) else .ok ()
  | [] => .ok ()

/-- Reads one token of a given kind. -/
def expect (stop : Position) (kind : Kind) :
    (input : List Token) → Except ParseError (Parsed Token input)
  | t :: rest =>
    if t.kind = kind then do
      onto rest
      return (Parsed.here t rest).behindToken t
    else throw (unexpected stop (.token kind) (t :: rest))
  | [] => throw (unexpected stop (.token kind) [])

/-- Reads line ends and comments, and tells whether a line end was among them. -/
def skipLines : (input : List Token) → Except ParseError (Parsed Bool input)
  | t :: rest =>
    if t.kind = .eol ∨ t.kind = .comment then do
      onto rest
      let more ← skipLines rest
      return (more.map (t.kind == .eol || ·)).behindToken t
    else return .here false (t :: rest)
  | [] => return .here false []

end Parse

end ConfigLang
