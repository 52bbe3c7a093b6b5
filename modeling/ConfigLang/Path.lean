/-!
# Paths

Paths with slashes between their components. Repeated slashes count as one, and a `.` counts for
nothing except at the front of a relative path. The parent of a path is a piece of its text.
-/

namespace ConfigLang.Path

/-- Whether a path starts at the root. -/
def isAbsolute (path : String) : Bool :=
  path.toList.head? == some '/'

/-- The part of a path that is no component by name: the root or a leading `.`. -/
def frontLength (cs : List Char) : Nat :=
  match cs with
  | '/' :: _ => 1
  | ['.'] => 1
  | '.' :: '/' :: _ => 1
  | _ => 0

/-- Drops slashes and `.` components from the end of a text that is read backwards. -/
def dropRedundant (reversed : List Char) : List Char :=
  let component := reversed.takeWhile (· != '/')
  if component = [] ∨ component = ['.'] then
    match _h : reversed.dropWhile (· != '/') with
    | [] => []
    | _ :: rest => dropRedundant rest
  else reversed
termination_by reversed.length
decreasing_by
  have := (List.dropWhile_sublist (l := reversed) (· != '/')).length_le
  rw [_h, List.length_cons] at this
  omega

/-- The components behind the front, read backwards and without a redundant end. -/
def reversedBody (cs : List Char) : List Char :=
  dropRedundant (cs.drop (frontLength cs)).reverse

/-- The last component behind the front, if there is one. -/
def lastComponent? (cs : List Char) : Option (List Char) :=
  match reversedBody cs with
  | [] => none
  | body => some (body.takeWhile (· != '/')).reverse

/-- The path without its last component; none for the root and the empty path. -/
def parent? (path : String) : Option String :=
  let cs := path.toList
  let front := cs.take (frontLength cs)
  match reversedBody cs with
  | [] => if front = ['.'] then some "" else none
  | body =>
    let before := dropRedundant ((body.dropWhile (· != '/')).drop 1)
    some (String.ofList (front ++ before.reverse))

/-- The last component, unless it is `..`. -/
def fileName? (path : String) : Option String :=
  match lastComponent? path.toList with
  | none => none
  | some name => if name = ['.', '.'] then none else some (String.ofList name)

/-- The file name without its last extension; a leading dot starts no extension. -/
def fileStem? (path : String) : Option String :=
  (fileName? path).map fun name =>
    let reversed := name.toList.reverse
    match reversed.dropWhile (· != '.') with
    | [] => name
    | ['.'] => name
    | _ :: stem => String.ofList stem.reverse

/-- The path of `path` as seen from the directory `base`. -/
def join (base path : String) : String :=
  if isAbsolute path then path
  else
    match base.toList.getLast? with
    | none => path
    | some '/' => base ++ path
    | some _ => base ++ "/" ++ path

/-- The texts between slashes. -/
def pieces (cs : List Char) : List (List Char) :=
  let piece := cs.takeWhile (· != '/')
  match _h : cs.dropWhile (· != '/') with
  | [] => [piece]
  | _ :: rest => piece :: pieces rest
termination_by cs.length
decreasing_by
  have := (List.dropWhile_sublist (l := cs) (· != '/')).length_le
  rw [_h, List.length_cons] at this
  omega

/-- What two paths have in common when they differ only in slashes and `.` components. -/
structure Normal where
  absolute : Bool
  components : List String
deriving DecidableEq, Repr

/-- The normal form of a path; `..` stays. -/
def normalize (path : String) : Normal :=
  let kept := (pieces path.toList).filter fun piece => piece ≠ [] && piece ≠ ['.']
  ⟨isAbsolute path, kept.map String.ofList⟩

end ConfigLang.Path
