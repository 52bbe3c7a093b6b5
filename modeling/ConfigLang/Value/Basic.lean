import ConfigLang.Calendar.Moment
import ConfigLang.Decimal.Layout
import ConfigLang.Text.Quoted

/-!
# Values

What an expression evaluates to: null, a truth value, a 64-bit integer, a double, a text, a
moment or a slice of values. This file holds the type, its kinds, which values count as true, and
how a value is shown.
-/

namespace ConfigLang

open ConfigLang.Calendar (Moment)

/-- A value. -/
inductive Value where
  | null
  | bool (value : Bool)
  | int (value : Int64)
  | double (value : Float)
  | text (value : String)
  | moment (value : Moment)
  | slice (items : List Value)
deriving Repr, Inhabited

namespace Value

/-- The kinds of values. -/
inductive Kind where
  | null
  | bool
  | int
  | double
  | text
  | moment
  | slice
deriving DecidableEq, Repr

/-- The name of a kind. -/
def Kind.name : Kind → String
  | null => "null"
  | bool => "bool"
  | int => "int"
  | double => "double"
  | text => "text"
  | moment => "moment"
  | slice => "slice"

/-- The kind of a value. -/
def kind : Value → Kind
  | null => .null
  | bool _ => .bool
  | int _ => .int
  | double _ => .double
  | text _ => .text
  | moment _ => .moment
  | slice _ => .slice

/-- Whether a value counts as true: what is null, zero, not a number or empty does not. -/
def isTruthy : Value → Bool
  | null => false
  | bool b => b
  | int n => n != 0
  | double x => x != 0.0 && !x.isNaN
  | text s => s != ""
  | moment _ => true
  | slice items => !items.isEmpty

/-- The number as a double, if the value is a number. -/
def toFloat? : Value → Option Float
  | int n => some n.toFloat
  | double x => some x
  | _ => none

mutual

/-- The text of a value, where `inside` a slice a text stands in quotes. -/
def textIn (inside : Bool) : Value → String
  | null => "null"
  | bool b => if b then "true" else "false"
  | int n => toString n.toInt
  | double x => Decimal.floatText x
  | text s => if inside then Text.quoted s else s
  | moment m => m.toText
  | slice items => "[" ++ itemsText items ++ "]"

/-- The items of a slice, with commas between them. -/
def itemsText : List Value → String
  | [] => ""
  | [item] => textIn true item
  | item :: items => textIn true item ++ ", " ++ itemsText items

end

/-- The text that shows a value. -/
def toText (v : Value) : String :=
  textIn false v

end Value

end ConfigLang
