import ConfigLang.Literal

/-!
# Parse errors

What stops a parse. The first error is the only one.
-/

namespace ConfigLang

/-- What the grammar allows at a place where something else stands. -/
inductive Expected where
  | token (kind : Kind)
  | expression
  | expressionNotName
  | expressionAfterComma
  | item
  | itemOrBrace
  | assignOrBrace
  | commaOrParen
  | commaOrBracket
  | argumentForm
  | namedArgument
deriving DecidableEq, Repr

/-- How an expectation is worded. -/
def Expected.describe : Expected → String
  | token kind => kind.describe
  | expression => "expression"
  | expressionNotName => "expression (variables are written $name or @name)"
  | expressionAfterComma => "expression after ','"
  | item => "option, object or directive"
  | itemOrBrace => "option, object, directive or '\x7d'"
  | assignOrBrace => "'=' or '\x7b'"
  | commaOrParen => "',' or ')'"
  | commaOrBracket => "',' or ']'"
  | argumentForm => "'=' or '(' after argument name"
  | namedArgument => "named argument"

/-- What stands there instead. -/
inductive Found where
  | token (token : Token)
  | endOfInput
  | positionalAfterNamed
deriving DecidableEq, Repr

/-- How it is worded. -/
def Found.describe : Found → String
  | token t => t.describe
  | endOfInput => Kind.eof.describe
  | positionalAfterNamed => "positional argument after named arguments"

/-- Why a text is no document or expression, and where. -/
inductive ParseError where
  | unexpectedToken (expected : Expected) (found : Found) (position : Position)
  | unexpectedEnd (expected : Expected) (position : Position)
  | invalidToken (message : String) (position : Position)
  | invalidLiteral (text : String) (fault : Literal.Fault) (position : Position)
  | unknownDirective (name : String) (position : Position)
deriving DecidableEq, Repr

namespace ParseError

/-- Where the error is. -/
def position : ParseError → Position
  | unexpectedToken _ _ p => p
  | unexpectedEnd _ p => p
  | invalidToken _ p => p
  | invalidLiteral _ _ p => p
  | unknownDirective _ p => p

/-- The wording of a parse error. -/
def message : ParseError → String
  | unexpectedToken expected found p =>
    p.toText ++ ": expected " ++ expected.describe ++ ", found " ++ found.describe
  | unexpectedEnd expected p =>
    p.toText ++ ": unexpected end of input, expected " ++ expected.describe
  | invalidToken message p => p.toText ++ ": " ++ message
  | invalidLiteral text fault p =>
    p.toText ++ ": invalid literal '" ++ text ++ "': " ++ fault.message
  | unknownDirective name p => p.toText ++ ": unknown macro '." ++ name ++ "'"

end ParseError

end ConfigLang
