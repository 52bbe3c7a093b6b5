import ConfigLang.Value.Basic

/-!
# JSON

JSON values whose objects keep the order of their fields, how they are written, and the JSON
value of a value.
-/

namespace ConfigLang

/-- A JSON value. A number is a 64-bit integer or a finite double. -/
inductive Json where
  | null
  | bool (value : Bool)
  | int (value : Int64)
  | double (value : Decimal.Scaled)
  | text (value : String)
  | array (items : List Json)
  | object (fields : List (String × Json))
deriving Repr, Inhabited

namespace Json

/-- How one character is written in a JSON text. Only the quote, the backslash and controls have
an escape. -/
def writtenChar (c : Char) : List Char :=
  match c with
  | '\x22' => ['\\', '\x22']
  | '\\' => ['\\', '\\']
  | '\n' => ['\\', 'n']
  | '\r' => ['\\', 'r']
  | '\t' => ['\\', 't']
  | '\x08' => ['\\', 'b']
  | '\x0c' => ['\\', 'f']
  | c => if c.toNat < 32 then '\\' :: 'u' :: Text.hexDigits 4 c.toNat [] else [c]

/-- A text between double quotes. -/
def writtenText (s : String) : String :=
  String.ofList ('\x22' :: s.toList.flatMap writtenChar ++ ['\x22'])

/-- What stands before an item at a depth; nothing where there is no depth, since then all is
written on one line. -/
def lineBreak : Option Nat → String
  | none => ""
  | some depth => "\n" ++ String.ofList (List.replicate (2 * depth) ' ')

/-- What stands between a key and its value. -/
def colon : Option Nat → String
  | none => ":"
  | some _ => ": "

mutual

/-- The text of a value, on lines of its own from a depth on. -/
def write (depth : Option Nat) : Json → String
  | null => "null"
  | bool b => if b then "true" else "false"
  | int n => toString n.toInt
  | double x => Decimal.Layout.json.finite x
  | text s => writtenText s
  | array [] => "[]"
  | array (item :: items) =>
    "[" ++ writeItems (depth.map (· + 1)) (item :: items) ++ lineBreak depth ++ "]"
  | object [] => "\x7b\x7d"
  | object (field :: fields) =>
    "\x7b" ++ writeFields (depth.map (· + 1)) (field :: fields) ++ lineBreak depth ++ "\x7d"

/-- The items of an array. -/
def writeItems (depth : Option Nat) : List Json → String
  | [] => ""
  | [item] => lineBreak depth ++ write depth item
  | item :: items => lineBreak depth ++ write depth item ++ "," ++ writeItems depth items

/-- The fields of an object. -/
def writeFields (depth : Option Nat) : List (String × Json) → String
  | [] => ""
  | [(key, value)] =>
    lineBreak depth ++ writtenText key ++ colon depth ++ write depth value
  | (key, value) :: fields =>
    lineBreak depth ++ writtenText key ++ colon depth ++ write depth value ++ "," ++
      writeFields depth fields

end

/-- The text of a value: on one line, or indented by two blanks a level. -/
def render (pretty : Bool) (json : Json) : String :=
  write (if pretty then some 0 else none) json

end Json

namespace Value

mutual

/-- The JSON value of a value. Moments are texts, and doubles that are not finite are null. -/
def toJson : Value → Json
  | null => .null
  | bool b => .bool b
  | int n => .int n
  | double x =>
    match Decimal.Scaled.ofFloat? x with
    | some x => .double x
    | none => .null
  | text s => .text s
  | moment m => .text m.toText
  | slice items => .array (toJsonItems items)

/-- The JSON values of some values. -/
def toJsonItems : List Value → List Json
  | [] => []
  | item :: items => item.toJson :: toJsonItems items

end

end Value

end ConfigLang
