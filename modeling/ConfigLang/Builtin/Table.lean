import ConfigLang.Builtin.Files
import ConfigLang.Builtin.Sequence
import ConfigLang.Builtin.Texts

/-!
# The table of functions
-/

namespace ConfigLang.Builtin

open Parameter

/-- Every function, some under two names. -/
def table : List Builtin := [
  .plain "typeof" [required "obj"] typeOf,
  .plain "len" [required "obj"] length,
  .plain "first" [required "arr"] first,
  .plain "last" [required "arr"] last,
  .plain "seq" [required "first", required "last", optional "step" "1" (.int 1)] seq,
  ⟨"randn", [required "num"], random⟩,
  .plain "abs" [required "num"] abs,
  .plain "sqrt" [required "num"] sqrt,
  .plain "min" [rest "args"] (extreme .lt),
  .plain "max" [rest "args"] (extreme .gt),
  .plain "all" [rest "args"] all,
  .plain "any" [rest "args"] any,
  .plain "avg" [rest "args"] average,
  .plain "upper" [required "str"] upper,
  .plain "lower" [required "str"] lower,
  .plain "split" [required "str", optional "sep" "\" \"" (.text " ")] split,
  .plain "join" [required "arr", optional "sep" "\" \"" (.text " ")] join,
  .plain "contains" [required "str", required "substr"] contains,
  .plain "substr" [required "str", optional "pos" "0" (.int 0), optional "len" "0" (.int 0)] substr,
  .plain "trim" [required "str", optional "char" "\"\"" (.text "")] trim,
  .plain "replace"
    [required "str", required "src", required "dst", optional "count" "0" (.int 0)] replace,
  .plain "dirname" [required "path"] dirname,
  .plain "dir" [required "path"] dirname,
  .plain "basename" [required "path"] basename,
  .plain "base" [required "path"] basename,
  ⟨"isfile", [required "path"], isFile⟩,
  ⟨"isdir", [required "path"], isDirectory⟩,
  ⟨"read", [rest "file"], read⟩,
  .plain "b64encode" [required "str", optional "url" "false" (.bool false)] encodeBase64,
  .plain "b64decode" [required "str", optional "url" "false" (.bool false)] decodeBase64]

/-- The function of a name. -/
def ofName? (name : String) : Option Builtin :=
  table.find? (·.name = name)

end ConfigLang.Builtin
