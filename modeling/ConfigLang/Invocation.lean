import ConfigLang.Command

/-!
# Invocations

The words of a command line: an action with a document and its operands, and options anywhere
among them. Behind `--` nothing is an option.
-/

namespace ConfigLang

/-- What a command line asks for. -/
structure Invocation where
  /-- The path of the document; `-` stands for the standard input. -/
  file : String
  action : Action
  /-- Whether JSON is indented. -/
  pretty : Bool
  definitions : List String
  importsEnvironment : Bool
deriving Repr

namespace Invocation

/-- How the command line is to be used. -/
def usage : String :=
  "Usage: [--env] [-D NAME=VALUE]... check FILE | get FILE PATH... | dump [--pretty] FILE"

/-- The words of a command line, sorted into options and others. -/
structure Words where
  operands : List String
  pretty : Bool
  definitions : List String
  importsEnvironment : Bool
deriving Repr

/-- Sorts the words of a command line; none if there is an option that is unknown or incomplete. -/
def sort : List String → Option Words
  | [] => some ⟨[], false, [], false⟩
  | "--" :: words => some ⟨words, false, [], false⟩
  | "--env" :: words => (sort words).map fun w => { w with importsEnvironment := true }
  | "-p" :: words => (sort words).map fun w => { w with pretty := true }
  | "--pretty" :: words => (sort words).map fun w => { w with pretty := true }
  | "-D" :: definition :: words =>
    (sort words).map fun w => { w with definitions := definition :: w.definitions }
  | word :: words =>
    match word.toList with
    | ['-', 'D'] => none
    | '-' :: 'D' :: definition =>
      (sort words).map fun w =>
        { w with definitions := String.ofList definition :: w.definitions }
    | '-' :: _ :: _ => none
    | _ => (sort words).map fun w => { w with operands := word :: w.operands }

/-- Reads the words of a command line. -/
def ofWords? (words : List String) : Option Invocation := do
  let w ← sort words
  let (file, action) ←
    match w.operands with
    | ["check", file] => if w.pretty then none else some (file, Action.validate)
    | "get" :: file :: segment :: path =>
      if w.pretty then none else some (file, .get (segment :: path))
    | ["dump", file] => some (file, .dump)
    | _ => none
  return ⟨file, action, w.pretty, w.definitions, w.importsEnvironment⟩

/-- The command on a text in a directory. -/
def command (i : Invocation) (input : String) (directory? : Option String) : Command :=
  ⟨input, directory?, i.definitions, i.importsEnvironment, i.action⟩

/-- What is printed of an outcome. -/
def printed (i : Invocation) : Outcome → String
  | .valid => "Document is valid"
  | .value v => v.toText
  | .json json => json.render i.pretty

end Invocation

end ConfigLang
