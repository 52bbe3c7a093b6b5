import ConfigLang.Document.Projection
import ConfigLang.Text.Search

/-!
# Commands

What the command line does with the text of a document: it builds the document with variables of
its own, and checks it, evaluates one option, or projects the whole.
-/

namespace ConfigLang

/-- What is done with a document. -/
inductive Action where
  | validate
  /-- Evaluates the option at a path, the parts of which may have points in them. -/
  | get (path : List String)
  | dump
deriving DecidableEq, Repr

/-- What comes of a command. -/
inductive Outcome where
  | valid
  | value (value : Value)
  | json (json : Json)
deriving Repr

/-- Why a command fails. -/
inductive CommandError where
  | build (error : BuildError)
  | query (error : QueryError)
  | notDefinition (text : String)
  | input (fault : FileFault)
  | noInput
deriving Repr

/-- The wording of a command error. -/
def CommandError.message : CommandError → String
  | build error => error.message
  | query error => "Query error: " ++ error.message
  | notDefinition text => "Invalid define '" ++ text ++ "': expected NAME=VALUE"
  | input fault => "IO error: " ++ fault.message
  | noInput => "No input provided. Pass a file or pipe a document to stdin."

/-- A command on the text of a document. -/
structure Command where
  input : String
  directory? : Option String
  /-- Definitions of base variables, each `NAME=VALUE`. -/
  definitions : List String
  /-- Whether the variables of the process are base variables too. -/
  importsEnvironment : Bool
  action : Action
deriving Repr

/-- Reads a definition, the value of which begins behind the first equals sign. -/
def parseDefinition (text : String) : Except CommandError (String × String) :=
  match Text.splitFirst? ['='] text.toList with
  | some (c :: name, value) => .ok (String.ofList (c :: name), String.ofList value)
  | _ => .error (.notDefinition text)

namespace Command

/-- The base variables: definitions win over the variables of the process, and later ones over
earlier ones. -/
def baseFrame (c : Command) (process : List (String × String)) : Except CommandError Frame := do
  let definitions ← c.definitions.mapM parseDefinition
  let imported := if c.importsEnvironment then process else []
  return .ofList ((imported ++ definitions).map fun (name, value) => (name, .text value))

/-- The path that an action asks for. -/
def segments (path : List String) : List String :=
  path.flatMap (Text.splitAt ".")

variable {m : Type → Type} [Monad m]

/-- Runs a command, where `process` are the variables of the process. -/
def run (c : Command) (host : Host m) (source : Source m) (process : List (String × String)) :
    ExceptT CommandError m Outcome := do
  let vars ← ExceptT.mk (pure (c.baseFrame process))
  let d ← (Document.ofText ⟨host, source, vars, c.directory?⟩ c.input).adapt .build
  match c.action with
  | .validate => return .valid
  | .get path => return .value (← (d.value host (segments path)).adapt .query)
  | .dump => return .json (← (d.toJson host).adapt .query)

end Command

end ConfigLang
