import ConfigLang.Calendar.Reader
import ConfigLang.Expr
import ConfigLang.Token.Lexeme
import ConfigLang.Value.Integer

/-!
# Literals

What the text of a literal token stands for. A number may carry a unit, which is not part of its
value; separators are dropped; an integer has to fit in 64 bits, and a calendar literal has to
exist.
-/

namespace ConfigLang.Literal

open ConfigLang.Calendar (Moment digitsValue)

/-- Why a token stands for no value. -/
inductive Fault where
  | tooLarge
  | tooSmall
  | notCalendar
  | notLiteral (kind : Kind)
deriving DecidableEq, Repr

/-- The wording of a fault. -/
def Fault.message : Fault → String
  | tooLarge => "number too large to fit in target type"
  | tooSmall => "number too small to fit in target type"
  | notCalendar => "not a valid calendar value"
  | notLiteral kind => kind.describe ++ " is not a literal"

/-- Splits a hyphen off the front. -/
def splitSign : List Char → Bool × List Char
  | '-' :: cs => (true, cs)
  | cs => (false, cs)

/-- Splits a base marker off the front; without one the base is ten. -/
def splitBase : List Char → Nat × List Char
  | '0' :: c :: cs =>
    match Lexeme.baseOf? c with
    | some base => (base, cs)
    | none => (10, '0' :: c :: cs)
  | cs => (10, cs)

/-- The value of a digit up to fifteen. -/
def digitValue (c : Char) : Nat :=
  if c.isDigit then c.toNat - 48 else if c.isLower then c.toNat - 87 else c.toNat - 55

/-- The text without separators. -/
def dropSeparators (cs : List Char) : List Char :=
  cs.filter (· != '_')

/-- The mathematical integer that an integer literal without unit writes. -/
def integerValue (cs : List Char) : Int :=
  let (negative, cs) := splitSign cs
  let (base, digits) := splitBase cs
  let n : Int := (dropSeparators digits).foldl (fun n c => n * base + digitValue c) 0
  if negative then -n else n

/-- An integer with its unit. -/
def integer (text : String) : Except Fault (Value × Option UnitSuffix) :=
  let (number, unit) := UnitSuffix.split text
  let n := integerValue number.toList
  match Integer.ofInt? n with
  | some n => .ok (.int n, unit)
  | none => .error (if n < 0 then .tooSmall else .tooLarge)

/-- The double that a decimal number with an optional fraction and exponent writes. -/
def floatValue (cs : List Char) : Float :=
  let (negative, cs) := splitSign cs
  let mantissa := cs.takeWhile (· != 'e')
  let (downward, exponent) := splitSign ((cs.drop (mantissa.length + 1)).filter (· != '+'))
  let e : Int := digitsValue exponent
  let fraction := (mantissa.dropWhile (· != '.')).drop 1
  let digits := digitsValue (mantissa.filter (· != '.'))
  let x := Decimal.floatOfDecimal digits ((if downward then -e else e) - fraction.length)
  if negative then -x else x

/-- A double with its unit. -/
def double (text : String) : Value × Option UnitSuffix :=
  if text = "inf" then (.double (1.0 / 0.0), none)
  else if text = "nan" then (.double (0.0 / 0.0), none)
  else
    let (number, unit) := UnitSuffix.split text
    (.double (floatValue (dropSeparators number.toList)), unit)

/-- The value and unit of a token of a kind with a text. -/
def decode (kind : Kind) (text : String) : Except Fault (Value × Option UnitSuffix) :=
  match kind with
  | .integer => integer text
  | .float => .ok (double text)
  | .string | .heredoc => .ok (.text text, none)
  | .boolean => .ok (.bool (text == "true"), none)
  | .null => .ok (.null, none)
  | .date | .dateTime | .time =>
    match Moment.ofText? text with
    | some moment => .ok (.moment moment, none)
    | none => .error .notCalendar
  | kind => .error (.notLiteral kind)

end ConfigLang.Literal
