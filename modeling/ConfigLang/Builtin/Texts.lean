import ConfigLang.Builtin.Basic
import ConfigLang.Text.Blank
import ConfigLang.Text.Case
import ConfigLang.Text.Search
import ConfigLang.Value.Arithmetic

/-!
# Functions on texts
-/

namespace ConfigLang.Builtin

/-- The text in upper case. -/
def upper (c : Call) : Except EvalError Value := do
  return .text (Text.upper (← c.text "str"))

/-- The text in lower case. -/
def lower (c : Call) : Except EvalError Value := do
  return .text (Text.lower (← c.text "str"))

/-- The parts of a text between separators. -/
def split (c : Call) : Except EvalError Value := do
  let s ← c.text "str"
  let separator ← c.text "sep"
  if separator = "" then throw (c.invalid .emptySeparator)
  return .slice ((Text.splitAt separator s).map .text)

/-- The items of a slice as texts, with a separator between them. -/
def join (c : Call) : Except EvalError Value := do
  let items ← c.slice "arr"
  let separator ← c.text "sep"
  return .text (String.intercalate separator (items.map Value.toText))

/-- Whether an item of a slice equals a value. -/
def isAmong (v : Value) (items : List Value) : Bool :=
  items.any fun item =>
    match item.equals v with
    | .ok same => same
    | .error _ => false

/-- Whether a text contains a part, or a slice an item. -/
def contains (c : Call) : Except EvalError Value := do
  let part ← c.get "substr"
  match ← c.get "str" with
  | .slice items => return .bool (isAmong part items)
  | .text s => return .bool (Text.occursIn (← c.text "substr").toList s.toList)
  | v => throw (c.wrongKind "str" .textOrSlice v)

/-- A piece of a text; a length of zero reaches to the end. The piece may start at the end. -/
def substr (c : Call) : Except EvalError Value := do
  let cs := (← c.text "str").toList
  let pos ← c.int "pos"
  let len ← c.int "len"
  if len < 0 then throw (c.invalid (.negativeLength len))
  let start ← if pos.toInt = cs.length then pure cs.length else Value.place pos cs.length
  let tail := cs.drop start
  return .text (String.ofList (if len = 0 then tail else tail.take len.toInt.toNat))

/-- The text without the blanks at both ends, or without the characters of a set. -/
def trim (c : Call) : Except EvalError Value := do
  let cs := (← c.text "str").toList
  let set := (← c.text "char").toList
  return .text (String.ofList (if set = [] then Text.trim cs else Text.strip set.contains cs))

/-- The text with occurrences of a pattern replaced; a count of zero replaces them all. -/
def replace (c : Call) : Except EvalError Value := do
  let s ← c.text "str"
  let pattern ← c.text "src"
  let replacement ← c.text "dst"
  let count ← c.int "count"
  if count < 0 then throw (c.invalid (.negativeCount count))
  let limit := if count = 0 then none else some count.toInt.toNat
  return .text (Text.replace pattern replacement limit s)

/-- The alphabet that an argument chooses. -/
def alphabet (c : Call) : Except EvalError Text.Base64.Alphabet := do
  return if ← c.bool "url" then .urlSafe else .standard

/-- The base64 form of a text. -/
def encodeBase64 (c : Call) : Except EvalError Value := do
  let s ← c.text "str"
  return .text (Text.Base64.encode (← alphabet c) s)

/-- The text of a base64 form. -/
def decodeBase64 (c : Call) : Except EvalError Value := do
  let s ← c.text "str"
  match Text.Base64.decode (← alphabet c) s with
  | .error fault => throw (c.invalid (.notBase64 fault))
  | .ok bytes =>
    match String.fromUTF8? ⟨bytes.toArray⟩ with
    | some s => return .text s
    | none => throw (c.invalid .notUtf8)

end ConfigLang.Builtin
