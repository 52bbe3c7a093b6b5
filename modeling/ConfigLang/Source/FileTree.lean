import ConfigLang.Path
import ConfigLang.Source.Basic

/-!
# File trees

A fixed tree of files, with a working directory, as a host and a source. Every component of a
path but the last must lead to a directory; a slash at the end of a path wants one as well.
-/

namespace ConfigLang

/-- What is read at a path: a file, or a device, from which nothing comes. -/
inductive FileEntry where
  | file (content : ByteArray)
  | device

/-- A tree of files, each under its components from the root. Directories are where files are. -/
structure FileTree where
  entries : List (List String × FileEntry)
  workingDirectory : List String

namespace FileTree

/-- Adds an entry, which replaces the one at that path. -/
def add (path : List String) (entry : FileEntry) (t : FileTree) : FileTree :=
  { t with entries := (path, entry) :: t.entries }

/-- Adds a file at a path as seen from the working directory. -/
def addFile (path : String) (content : ByteArray) (t : FileTree) : FileTree :=
  t.add (t.workingDirectory ++ (Path.normalize path).components) (.file content)

/-- Whether there is a directory at a path. -/
def isDirectoryAt (t : FileTree) (path : List String) : Bool :=
  path.isPrefixOf t.workingDirectory ||
    t.entries.any fun (p, _) => path.isPrefixOf p && path.length < p.length

/-- Whether there is anything at a path. -/
def existsAt (t : FileTree) (path : List String) : Bool :=
  t.isDirectoryAt path || (t.entries.lookup path).isSome

/-- The longest component of a path, in bytes. -/
def longestComponent : Nat := 255

/-- The longest path, in bytes. -/
def longestPath : Nat := 4095

/-- Goes from a directory along the components of a path. -/
def walk (t : FileTree) (here : List String) : List String → Except FileFault (List String)
  | [] => .ok here
  | piece :: pieces =>
    if !t.isDirectoryAt here then .error .notDirectory
    else if piece = "" ∨ piece = "." then walk t here pieces
    else if piece = ".." then walk t here.dropLast pieces
    else if longestComponent < piece.utf8ByteSize then .error .nameTooLong
    else if t.existsAt (here ++ [piece]) then walk t (here ++ [piece]) pieces
    else .error .notFound

/-- The place that a path leads to. -/
def locate (t : FileTree) (path : String) : Except FileFault (List String) :=
  if path.toList.contains '\x00' then .error .nulInName
  else if path = "" then .error .notFound
  else if longestPath < path.utf8ByteSize then .error .nameTooLong
  else
    let start := if Path.isAbsolute path then [] else t.workingDirectory
    t.walk start ((Path.pieces path.toList).map String.ofList)

/-- The content of the file at a path. -/
def read (t : FileTree) (path : String) : Except FileFault ByteArray := do
  let place ← t.locate path
  match t.entries.lookup place with
  | some (.file content) => return content
  | some .device => return .empty
  | none => throw .isDirectory

/-- The text of the file at a path. -/
def readText (t : FileTree) (path : String) : Except FileFault String := do
  match String.fromUTF8? (← t.read path) with
  | some text => return text
  | none => throw .notUtf8

/-- Whether a path names a file. -/
def isFile (t : FileTree) (path : String) : Bool :=
  match t.locate path with
  | .ok place =>
    match t.entries.lookup place with
    | some (.file _) => true
    | _ => false
  | .error _ => false

/-- Whether a path names a directory. -/
def isDirectory (t : FileTree) (path : String) : Bool :=
  match t.locate path with
  | .ok place => t.isDirectoryAt place
  | .error _ => false

variable {m : Type → Type} [Monad m]

/-- The host whose files are those of the tree, and whose random numbers are all zero. -/
def host (t : FileTree) : Host m where
  readText path := pure (t.readText path)
  isFile path := pure (t.isFile path)
  isDirectory path := pure (t.isDirectory path)
  random _ := pure 0

/-- The source whose files are those of the tree, and which does not reach the web. -/
def source (t : FileTree) : Source m where
  read _ path := pure ((t.read path).mapError (.ofFault path))
  get _ url := pure (.error (.noTransport url))

end FileTree

end ConfigLang
