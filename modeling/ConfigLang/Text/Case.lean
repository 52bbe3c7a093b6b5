import ConfigLang.Text.CaseTable

/-!
# Upper and lower case

Case is mapped character by character, where one character may become several. The one mapping
that looks at its surroundings is the lower-case sigma, which has a form of its own at the end
of a word.
-/

namespace ConfigLang.Text

private def mapped (runs : List Shift) (expansions : List (Nat × List Nat)) (c : Char) :
    List Char :=
  match expansions.find? (·.1 == c.toNat) with
  | some (_, expansion) => expansion.map Char.ofNat
  | none => [shift runs c]

/-- The upper-case form of one character. -/
def upperChar (c : Char) : List Char :=
  mapped upperShifts upperExpansions c

/-- The lower-case form of one character outside the end of a word. -/
def lowerChar (c : Char) : List Char :=
  mapped lowerShifts lowerExpansions c

/-- Whether the first character that is not case-ignorable is cased. -/
def meetsCased (cs : List Char) : Bool :=
  match cs.dropWhile (inRanges caseIgnorable) with
  | c :: _ => inRanges casedOnly c
  | [] => false

/-- A word ends at a sigma when a cased character precedes it and none follows, case-ignorable
ones not counted. `before` is read backwards. -/
def endsWord (before after : List Char) : Bool :=
  meetsCased before && !meetsCased after

private def lowerFrom (before : List Char) : List Char → List Char
  | [] => []
  | c :: cs =>
    if c = 'Σ' then (if endsWord before cs then 'ς' else 'σ') :: lowerFrom (c :: before) cs
    else lowerChar c ++ lowerFrom (c :: before) cs

/-- The text in upper case. -/
def upper (s : String) : String :=
  String.ofList (s.toList.flatMap upperChar)

/-- The text in lower case. -/
def lower (s : String) : String :=
  String.ofList (lowerFrom [] s.toList)

end ConfigLang.Text
