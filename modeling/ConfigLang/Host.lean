/-!
# The host

What an expression can ask of the world around a document: the text of a file, whether a path
names a file or a directory, and a random number. A host answers in a monad, so that the same
evaluator runs against a fixed world as well as against one that is looked at while it runs.
-/

namespace ConfigLang

/-- Why a file cannot be read. -/
inductive FileFault where
  | notFound
  | notDirectory
  | isDirectory
  | nameTooLong
  | nulInName
  | notUtf8
  | other (message : String)
deriving DecidableEq, Repr

/-- The wording of a file fault. -/
def FileFault.message : FileFault → String
  | notFound => "No such file or directory (os error 2)"
  | notDirectory => "Not a directory (os error 20)"
  | isDirectory => "Is a directory (os error 21)"
  | nameTooLong => "File name too long (os error 36)"
  | nulInName => "file name contained an unexpected NUL byte"
  | notUtf8 => "stream did not contain valid UTF-8"
  | other message => message

/-- The answers of the world around a document. -/
structure Host (m : Type → Type) where
  readText : String → m (Except FileFault String)
  isFile : String → m Bool
  isDirectory : String → m Bool
  /-- A random number below a positive bound. -/
  random : Nat → m Nat

end ConfigLang
