import ConfigLang.Document.Reference
import ConfigLang.Eval.Evaluate

/-!
# Evaluating options where they stand

An option is evaluated at a level of a chain of objects, after the options that it refers to, so
that the order of declarations does not matter. The results, failures among them, are kept for as
long as one query runs: each option is evaluated at most once. A failed reference fails the
option that refers to it with the same error.

References that come back to an option that is being evaluated are an error. Since each option
under evaluation is one of finitely many fields with values, at most `valueCount` of them are
nested; where as many are, every further reference comes back to one of them.
-/

namespace ConfigLang

/-- An object on the way to what is evaluated, and the results of its fields so far. -/
structure Level where
  object : Object
  results : List (String × Except EvalError Value)

namespace Level

/-- Nothing is evaluated yet. -/
def ofObject (o : Object) : Level := ⟨o, []⟩

/-- The values so far. -/
def frame (l : Level) : Frame :=
  ⟨l.results.filterMap fun (name, result) => result.toOption.map (name, ·)⟩

/-- Keeps a result. -/
def record (name : String) (result : Except EvalError Value) (l : Level) : Level :=
  { l with results := l.results ++ [(name, result)] }

end Level

/-- A computation on a chain of levels, listed from the outermost in. The results that it keeps
are kept also if it fails. -/
abbrev Resolution (m : Type → Type) := ExceptT EvalError (StateT (List Level) m)

namespace Resolution

variable {m : Type → Type} [Monad m] {α : Type}

/-- A known result. -/
def settled (x : Except EvalError α) : Resolution m α :=
  ExceptT.mk (pure x)

/-- A computation that does not look at the levels. -/
def lift (x : ExceptT EvalError m α) : Resolution m α :=
  ExceptT.mk (StateT.lift x.run)

/-- The environment of the option `own` at a level: a frame for each object from there out, but
without what the option itself is bound to. -/
def environment (base : Frame) (levels : List Level) (level : Nat) (own : String) : Environment :=
  match (levels.take (level + 1)).reverse.map Level.frame with
  | [] => .ofBase base
  | inner :: outer => ⟨base, inner.remove own :: outer⟩

section Evaluate

variable (host : Host m)

mutual

/-- The value of a node in an environment. -/
def evaluateNode (env : Environment) : Node → ExceptT EvalError m Value
  | .option binding => binding.value.evaluate host env
  | .object _ => throw (.unsupported .evaluate .object)
  | .list _ items => return .slice (← evaluateItems env items)

/-- The values of the items of a list in an environment. -/
def evaluateItems (env : Environment) : List Node → ExceptT EvalError m (List Value)
  | [] => return []
  | item :: items => do
    let value ← evaluateNode env item
    return value :: (← evaluateItems env items)

end

variable (base : Frame)

/-- Evaluates the references of the option `own` at a level, each by `resolve`. -/
def resolveAll (resolve : Nat → String → Resolution m Value) (level : Nat) (own : String) :
    List String → Resolution m Unit
  | [] => return
  | name :: names => do
    match owner? ((← get).map (·.object)) level own name with
    | some owner => let _ ← resolve owner name
    | none => pure ()
    resolveAll resolve level own names

/-- Evaluates a node at a level, and before it what it refers to. -/
def evaluateAt (resolve : Nat → String → Resolution m Value) (level : Nat) (node : Node) :
    Resolution m Value := do
  resolveAll resolve level node.name node.locals
  let env := environment base (← get) level node.name
  lift (evaluateNode host env node)

/-- The value of the field of a name at a level, while the fields in `active` are being evaluated
and no more than `left` others have values. -/
def resolve (left : Nat) (active : List (Nat × String)) (level : Nat) (name : String) :
    Resolution m Value := do
  match (← get)[level]? with
  | none => throw (.undefinedVariable ("$" ++ name))
  | some slot =>
    match slot.results.lookup name with
    | some result => settled result
    | none =>
      if (level, name) ∈ active then throw (.cyclicReference ("$" ++ name))
      else
        match slot.object.valueNode? name with
        | none => throw (.undefinedVariable ("$" ++ name))
        | some node =>
          match left with
          -- all fields with values are active by now, and so is this one
          | 0 => throw (.cyclicReference ("$" ++ name))
          | left + 1 => do
            let result ← ExceptT.mk do
              return .ok (← (evaluateAt host base (resolve left ((level, name) :: active))
                level node).run)
            modify fun levels => levels.modify level (Level.record name result)
            settled result

/-- The number of fields with values in a chain of levels. -/
def valueCount (levels : List Level) : Nat :=
  (levels.map (·.object.valueCount)).foldr (· + ·) 0

/-- The value of a field of the innermost object. -/
def field (name : String) : Resolution m Value := do
  let levels ← get
  resolve host base (valueCount levels) [] (levels.length - 1) name

/-- The value of a field of the innermost object, or of an item of one of its lists. The result
is not kept. -/
def evaluate (node : Node) : Resolution m Value := do
  let levels ← get
  let level := levels.length - 1
  evaluateAt host base (resolve host base (valueCount levels) [(level, node.name)]) level node

end Evaluate

end Resolution

end ConfigLang
