/-!
# Searching in text

Splitting at a separator, replacing a pattern and testing for a substring. Occurrences are taken
from the left and do not overlap; the empty pattern occurs at every boundary of the text, both
ends included.
-/

namespace ConfigLang.Text

/-- The parts of a text between the occurrences of a separator, where `part` was read before. -/
def splitFrom (separator : List Char) (part : List Char) : List Char → List (List Char)
  | [] => [part.reverse]
  | c :: cs =>
    if separator.isPrefixOf (c :: cs) then
      part.reverse :: splitFrom separator [] (cs.drop (separator.length - 1))
    else splitFrom separator (c :: part) cs
termination_by cs => cs.length
decreasing_by all_goals simp; try omega

/-- The parts of `s` between the occurrences of a non-empty separator. -/
def splitAt (separator s : String) : List String :=
  (splitFrom separator.toList [] s.toList).map String.ofList

/-- Puts `replacement` for the first `limit` occurrences of a pattern that is not empty; for all
of them when `limit` is `none`. -/
private def replaceFrom (pattern replacement : List Char) (limit : Option Nat) :
    List Char → List Char
  | [] => []
  | c :: cs =>
    if limit ≠ some 0 ∧ pattern.isPrefixOf (c :: cs) then
      replacement ++
        replaceFrom pattern replacement (limit.map (· - 1)) (cs.drop (pattern.length - 1))
    else c :: replaceFrom pattern replacement limit cs
termination_by cs => cs.length
decreasing_by all_goals simp; try omega

/-- Puts `insertion` at the first `limit` boundaries, at all of them when `limit` is `none`. -/
private def insertFrom (insertion : List Char) (limit : Option Nat) : List Char → List Char
  | [] => if limit = some 0 then [] else insertion
  | c :: cs =>
    if limit = some 0 then c :: cs
    else insertion ++ c :: insertFrom insertion (limit.map (· - 1)) cs

/-- Puts `replacement` for the first `limit` occurrences of `pattern`; for all of them when
`limit` is `none`. -/
def replace (pattern replacement : String) (limit : Option Nat) (s : String) : String :=
  String.ofList <|
    match pattern.toList with
    | [] => insertFrom replacement.toList limit s.toList
    | pattern => replaceFrom pattern replacement.toList limit s.toList

/-- The text before and behind the first occurrence of a separator. -/
def splitFirst? (separator : List Char) : List Char → Option (List Char × List Char)
  | [] => if separator.isEmpty then some ([], []) else none
  | c :: cs =>
    if separator.isPrefixOf (c :: cs) then some ([], (c :: cs).drop separator.length)
    else (splitFirst? separator cs).map fun (before, behind) => (c :: before, behind)

/-- Whether `part` occurs in the text. -/
def occursIn (part : List Char) : List Char → Bool
  | [] => part.isEmpty
  | c :: cs => part.isPrefixOf (c :: cs) || occursIn part cs

end ConfigLang.Text
