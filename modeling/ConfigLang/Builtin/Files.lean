import ConfigLang.Builtin.Basic
import ConfigLang.Path

/-!
# Functions on paths and files
-/

namespace ConfigLang.Builtin

/-- The directory of a path, which is `.` where the path names none. -/
def dirname (c : Call) : Except EvalError Value := do
  match Path.parent? (← c.text "path") with
  | none | some "" => return .text "."
  | some parent => return .text parent

/-- The file name of a path, which is empty where the path names no file. -/
def basename (c : Call) : Except EvalError Value := do
  return .text ((Path.fileName? (← c.text "path")).getD "")

variable {m : Type → Type} [Monad m]

/-- Whether a path names a file. -/
def isFile (host : Host m) (c : Call) : ExceptT EvalError m Value := do
  return .bool (← host.isFile (← settled (c.text "path")))

/-- Whether a path names a directory. -/
def isDirectory (host : Host m) (c : Call) : ExceptT EvalError m Value := do
  return .bool (← host.isDirectory (← settled (c.text "path")))

/-- The texts of some files. -/
def readAll (host : Host m) (c : Call) : List Value → ExceptT EvalError m (List Value)
  | [] => return []
  | .text path :: files => do
    match ← host.readText path with
    | .ok s => return .text s :: (← readAll host c files)
    | .error fault => throw (c.invalid (.unreadable path fault))
  | v :: _ => throw (c.wrongKind "file" .text v)

/-- The text of one file, or the slice of the texts of several. -/
def read (host : Host m) (c : Call) : ExceptT EvalError m Value := do
  match ← readAll host c (← settled (c.slice "file")) with
  | [] => throw (c.missing "file")
  | [s] => return s
  | texts => return .slice texts

end ConfigLang.Builtin
