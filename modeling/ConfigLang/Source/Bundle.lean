import ConfigLang.Keyed
import ConfigLang.Path
import ConfigLang.Source.Basic

/-!
# Bundles

A source that holds all its content. Paths that differ only in slashes and `.` components name
the same file.
-/

namespace ConfigLang

/-- Files by their path and pages by their address; an earlier entry hides a later one. -/
structure Bundle where
  files : List (Path.Normal × ByteArray)
  pages : List (String × Response)

namespace Bundle

/-- No content. -/
def empty : Bundle := ⟨[], []⟩

/-- Adds a file, which replaces the one at that path. -/
def addFile (path : String) (content : ByteArray) (b : Bundle) : Bundle :=
  { b with files := (Path.normalize path, content) :: b.files }

/-- Adds a page, which replaces the one at that address. -/
def addPage (url : String) (response : Response) (b : Bundle) : Bundle :=
  { b with pages := (url, response) :: b.pages }

/-- The file at a path. -/
def read (b : Bundle) (path : String) : Except FetchError ByteArray :=
  match b.files.lookup (Path.normalize path) with
  | some content => .ok content
  | none => .error (.notFound path)

/-- The page at an address. -/
def get (b : Bundle) (url : String) : Except FetchError Response :=
  match b.pages.lookup url with
  | some response => .ok response
  | none => .error (.noRoute url)

/-- The source that gives the content of a bundle. -/
def source {m : Type → Type} [Monad m] (b : Bundle) : Source m where
  read _ path := pure (b.read path)
  get _ url := pure (b.get url)

end Bundle

end ConfigLang
