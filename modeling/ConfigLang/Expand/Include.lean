import ConfigLang.Expand.Arguments
import ConfigLang.Parse.Document
import ConfigLang.Path
import ConfigLang.Source.Location

/-!
# Includes

An include names a location. The content of a relative path is looked for from the directory of
the document that includes it; what comes from the web has the directory of the document that
asked for it.
-/

namespace ConfigLang

/-- How deep includes may be nested. -/
def includeLimit : Nat := 32

/-- The arguments of an include. -/
structure Include where
  location : String
  /-- The name of the object that the content becomes; the content of an include without a name
  is spliced in. -/
  name : String
  /-- Whether a location without content is an error. -/
  fatal : Bool
  method : Method
deriving Repr

variable {m : Type → Type} [Monad m]

/-- Reads the arguments of an include. The name defaults to that of the file, without its
extension. -/
def Directive.readInclude (d : Directive) (scene : Scene m) : Expansion m Include := do
  let args ← d.bind ["location", "name", "fatal", "method"]
  let location ← d.textOf scene "location" (← d.required args "location")
  let name ←
    match Keyed.get? args "name" with
    | some payload => d.nameOf scene "name" payload
    | none => pure ((Path.fileStem? location).getD "")
  let fatal ← d.flagOf scene "fatal" (Keyed.get? args "fatal")
  let method ← d.methodOf scene (Keyed.get? args "method")
  return ⟨location, name, fatal, method⟩

/-- Fetches the content of a location for a document in a directory, with the directory that the
includes of the content are relative to. -/
def Source.fetch (source : Source m) (level : Nat) (directory location : String) :
    m (Except FetchError (ByteArray × String)) := do
  match Location.ofText location with
  | .file path =>
    let path := Path.join directory path
    return (← source.read level path).map fun content => (content, (Path.parent? path).getD "")
  | .web url =>
    return (← source.get level url).bind fun response =>
      if 400 ≤ response.status then .error (.status response.status)
      else .ok (response.body, directory)
  | .other scheme => return .error (.unsupportedScheme scheme)

/-- The document in some content. -/
def Include.parse (i : Include) (content : ByteArray) : Except ExpansionError Object :=
  match String.fromUTF8? content with
  | none => .error (.unresolved i.location .notUtf8)
  | some text => (parseDocument text).mapError (.parse i.location)

/-- The fields that an included document brings: an object of its own, or its fields where the
include has no name. -/
def Include.fields (i : Include) (document : Object) : Fields :=
  if i.name = "" then document.fields
  else [(i.name, .object { document with name := i.name })]

end ConfigLang
