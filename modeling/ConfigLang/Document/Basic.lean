import ConfigLang.Document.Reference
import ConfigLang.Expand.Basic

/-!
# Documents

A document is a tree without directives, with its base variables. A part of a document is a
document too; it keeps the options of the objects around it, since its own options may refer to
them.
-/

namespace ConfigLang

/-- A document. -/
structure Document where
  root : Object
  /-- The variables `@name`. -/
  base : Frame
  /-- The objects around the root, from the outermost in, with nothing but their values. -/
  ancestors : List Object

/-- Why no document can be built. -/
inductive BuildError where
  | parse (error : ParseError)
  | expand (error : ExpansionError)
  | file (fault : FileFault)
deriving Repr

/-- The wording of a build error. -/
def BuildError.message : BuildError → String
  | parse error => "Parse error: " ++ error.message
  | expand error => "Macro error: " ++ error.message
  | file fault => "IO error: " ++ fault.message

/-- What a document is built with. -/
structure Setting (m : Type → Type) where
  host : Host m
  source : Source m
  vars : Frame
  /-- The directory that relative includes are resolved against. -/
  directory? : Option String

namespace Document

variable {m : Type → Type} [Monad m]

/-- Builds the document of a text. -/
def ofText (s : Setting m) (text : String) : ExceptT BuildError m Document := do
  let tree ← ExceptT.mk (pure ((parseDocument text).mapError .parse))
  let scene : Scene m := ⟨s.host, s.source, .ofBase s.vars⟩
  let root ← (scene.expand (s.directory?.getD "") tree).adapt .expand
  return ⟨root, s.vars, []⟩

/-- Builds the document of a file. Unless a directory is set, includes are resolved against that
of the file. -/
def ofFile (s : Setting m) (path : String) : ExceptT BuildError m Document := do
  match ← s.host.readText path with
  | .error fault => throw (.file fault)
  | .ok text => ofText { s with directory? := s.directory?.or (Path.parent? path) } text

end Document

end ConfigLang
