import ConfigLang.Text.Search

/-!
# Locations

Where a document is to be found: a path, perhaps behind `file://`, or an address on the web.
-/

namespace ConfigLang

/-- A place that documents come from, by its scheme. -/
inductive Location where
  | file (path : String)
  | web (url : String)
  | other (scheme : String)
deriving DecidableEq, Repr

namespace Location

/-- Reads a location. What has no scheme is a path. -/
def ofText (text : String) : Location :=
  match Text.splitFirst? "file://".toList text.toList with
  | some ([], path) => file (String.ofList path)
  | _ =>
    match Text.splitFirst? "://".toList text.toList with
    | none => file text
    | some (scheme, _) =>
      let scheme := String.ofList scheme
      if scheme = "http" ∨ scheme = "https" then web text else other scheme

end Location

end ConfigLang
