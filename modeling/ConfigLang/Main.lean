import ConfigLang.Invocation

/-!
# The command line

Runs an invocation against the files and the variables of the process.
-/

namespace ConfigLang.Main

/-- The fault that an error of the system stands for. -/
def faultOf : IO.Error → FileFault
  | .noFileOrDirectory .. => .notFound
  | .inappropriateType _ 21 _ => .isDirectory
  | .inappropriateType .. => .notDirectory
  | .permissionDenied .. => .other "Permission denied (os error 13)"
  | error => .other (toString error)

/-- Reads a file. -/
def readBytes (path : String) : IO (Except FileFault ByteArray) := do
  try
    return .ok (← IO.FS.readBinFile path)
  catch error =>
    return .error (faultOf error)

/-- Reads the text of a file. -/
def readText (path : String) : IO (Except FileFault String) := do
  return (← readBytes path).bind fun content =>
    match String.fromUTF8? content with
    | some text => .ok text
    | none => .error .notUtf8

/-- Whether what a path leads to is of some type. -/
def hasType (type : IO.FS.FileType) (path : String) : IO Bool := do
  try
    let place ← IO.FS.realPath path
    return (← place.metadata).type == type
  catch _ =>
    return false

/-- The host that looks at the files of the system. -/
def host : Host IO where
  readText := readText
  isFile := hasType .file
  isDirectory := hasType .dir
  random bound := IO.rand 0 (bound - 1)

/-- The source that reads the files of the system, and does not reach the web. -/
def source : Source IO where
  read _ path := return (← readBytes path).mapError (.ofFault path)
  get _ url := return .error (.noTransport url)

/-- The variables of the process. Those that are not text are left out. -/
def processVariables : IO (List (String × String)) := do
  match ← readText "/proc/self/environ" with
  | .error _ => return []
  | .ok text =>
    return (Text.splitAt "\x00" text).filterMap fun entry =>
      (parseDefinition entry).toOption

/-- Reads a stream to its end, behind what is read already. -/
partial def readAll (stream : IO.FS.Stream) (done : ByteArray) : IO ByteArray := do
  let chunk ← stream.read 65536
  if chunk.isEmpty then return done else readAll stream (done ++ chunk)

/-- The text of a document, and the directory that it is in. -/
def readInput (file : String) : IO (Except CommandError (String × Option String)) := do
  if file ≠ "-" then
    return ((← readText file).map fun text => (text, Path.parent? file)).mapError .input
  let stdin ← IO.getStdin
  if ← stdin.isTty then return .error .noInput
  match String.fromUTF8? (← readAll stdin .empty) with
  | some text => return .ok (text, none)
  | none => return .error (.input .notUtf8)

/-- Runs an invocation. -/
def run (i : Invocation) : ExceptT CommandError IO Outcome := do
  let (input, directory?) ← ExceptT.mk (readInput i.file)
  let process ← if i.importsEnvironment then processVariables else pure []
  (i.command input directory?).run host source process

end ConfigLang.Main

/-- Runs a command line: the result goes to the standard output, an error to the standard error. -/
def main (words : List String) : IO UInt32 := do
  match ConfigLang.Invocation.ofWords? words with
  | none =>
    IO.eprintln ConfigLang.Invocation.usage
    return 2
  | some i =>
    match ← ConfigLang.Main.run i with
    | .ok outcome =>
      IO.println (i.printed outcome)
      return 0
    | .error error =>
      IO.eprintln error.message
      return 1
