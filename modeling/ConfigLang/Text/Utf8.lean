/-!
# Byte offsets

Some formats count bytes of the UTF-8 form. A byte offset is usable only where a character
starts or the text ends.
-/

namespace ConfigLang.Text

/-- The length of the UTF-8 form. -/
def byteLength (cs : List Char) : Nat :=
  cs.foldl (fun n c => n + c.utf8Size) 0

/-- The text before and after a byte offset; none if the offset falls inside a character or
behind the end. -/
def splitAtByte? : Nat → List Char → Option (List Char × List Char)
  | 0, cs => some ([], cs)
  | _ + 1, [] => none
  | n + 1, c :: cs =>
    if c.utf8Size ≤ n + 1 then
      (splitAtByte? (n + 1 - c.utf8Size) cs).map fun (before, after) => (c :: before, after)
    else none
termination_by _ cs => cs.length

end ConfigLang.Text
