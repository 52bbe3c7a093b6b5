import ConfigLang.Host
import ConfigLang.Operator
import ConfigLang.Text.Base64
import ConfigLang.Value.Basic

/-!
# Evaluation errors

Why an expression has no value.
-/

namespace ConfigLang

/-- What was done when an evaluation failed. -/
inductive Operation where
  | binary (op : BinaryOp)
  | unary (op : UnaryOp)
  | compare
  | index
  | evaluate
  | abs
  | average
deriving DecidableEq, Repr

/-- How an operation is written. -/
def Operation.symbol : Operation → String
  | binary op => op.symbol
  | unary op => op.symbol
  | compare => "compare"
  | index => "index"
  | evaluate => "evaluate"
  | abs => "abs"
  | average => "avg"

/-- What an operation was done to. -/
inductive Operand where
  | value (kind : Value.Kind)
  | nan
  | object
deriving DecidableEq, Repr

/-- How it is called. -/
def Operand.name : Operand → String
  | value kind => kind.name
  | nan => "NaN"
  | object => "object"

/-- What a function wants of an argument. -/
inductive Wanted where
  | int
  | number
  | text
  | bool
  | slice
  | textOrSlice
  | numbers
deriving DecidableEq, Repr

/-- How it is worded. -/
def Wanted.describe : Wanted → String
  | int => "int"
  | number => "a number"
  | text => "text"
  | bool => "bool"
  | slice => "a slice"
  | textOrSlice => "text or a slice"
  | numbers => "numbers"

/-- What can be wrong with the arguments of a function. -/
inductive ArgumentFault where
  | wrongKind (parameter : String) (wanted : Wanted) (found : Value.Kind)
  | tooMany (limit count : Nat)
  | unknownParameter (name : String)
  | boundTwice (name : String)
  | shiftAmount (amount : Int64)
  | zeroStep
  | notPositive (bound : Int64)
  | negativeRoot (number : Float)
  | notAveraged (number : Float)
  | emptySeparator
  | negativeLength (length : Int64)
  | negativeCount (count : Int64)
  | unreadable (path : String) (fault : FileFault)
  | notBase64 (fault : Text.Base64.Fault)
  | notUtf8
deriving DecidableEq, Repr

private def intText (n : Int64) : String := toString n.toInt

/-- The wording of an argument fault. -/
def ArgumentFault.message : ArgumentFault → String
  | wrongKind parameter wanted found =>
    parameter ++ " must be " ++ wanted.describe ++ ", got " ++ found.name
  | tooMany limit count =>
    "expected at most " ++ toString limit ++ " arguments, got " ++ toString count
  | unknownParameter name => "unknown parameter '" ++ name ++ "'"
  | boundTwice name => "parameter '" ++ name ++ "' is bound twice"
  | shiftAmount amount => "shift amount " ++ intText amount ++ " is outside 0..64"
  | zeroStep => "step must not be 0"
  | notPositive bound => "num must be positive, got " ++ intText bound
  | negativeRoot number => "cannot take the square root of " ++ Decimal.floatText number
  | notAveraged number => Decimal.floatText number ++ " cannot be averaged"
  | emptySeparator => "separator must not be empty"
  | negativeLength length => "len must not be negative, got " ++ intText length
  | negativeCount count => "count must not be negative, got " ++ intText count
  | unreadable path fault => "cannot read '" ++ path ++ "': " ++ fault.message
  | notBase64 fault => "invalid base64: " ++ fault.message
  | notUtf8 => "decoded bytes are not UTF-8"

/-- Why an expression has no value. The name of an undefined variable carries its sigil. -/
inductive EvalError where
  | unsupported (operation : Operation) (operand : Operand)
  | incompatible (operation : Operation) (left right : Value.Kind)
  | zeroDivision
  | overflow (operation : Operation)
  | indexOutOfRange (index : Int64) (length : Nat)
  | undefinedVariable (name : String)
  | cyclicReference (name : String)
  | undefinedFunction (name : String)
  | invalidArgument (function : String) (fault : ArgumentFault)
  | missingArgument (function parameter : String)
deriving DecidableEq, Repr

/-- The wording of an evaluation error. -/
def EvalError.message : EvalError → String
  | unsupported operation operand =>
    "Type error: '" ++ operation.symbol ++ "' is not supported for " ++ operand.name
  | incompatible operation left right =>
    "Type error: cannot apply '" ++ operation.symbol ++ "' to " ++ left.name ++ " and " ++
      right.name
  | zeroDivision => "Division by zero"
  | overflow operation => "Integer overflow in '" ++ operation.symbol ++ "'"
  | indexOutOfRange index length =>
    "Index " ++ intText index ++ " out of range for length " ++ toString length
  | undefinedVariable name => "Undefined variable: " ++ name
  | cyclicReference name => "Cyclic reference: " ++ name
  | undefinedFunction name => "Undefined function: " ++ name ++ "()"
  | invalidArgument function fault =>
    "Invalid argument to " ++ function ++ "(): " ++ fault.message
  | missingArgument function parameter =>
    "Missing argument '" ++ parameter ++ "' to " ++ function ++ "()"

end ConfigLang
