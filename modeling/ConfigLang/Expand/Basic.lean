import ConfigLang.Expand.Include
import ConfigLang.Expand.Scope
import ConfigLang.Tree.Truncate
import ConfigLang.Tree.Weight

/-!
# Running directives

Expansion runs the directives of a tree before anything is evaluated. The fields and directives
of an object take effect in the order of the text: each directive sees the fields above it in
place. After that the objects inside are expanded, and they see every fragment that was defined
around them.

Running the directives of an object leaves a tree with fewer of them, since a fragment is expanded
where it is defined and an included document before it is placed. So the number of directives in
a tree bounds how deep directives are found inside directives; `includeLimit` bounds how deep
documents are.
-/

namespace ConfigLang

variable {m : Type → Type} [Monad m]

section Descend

variable (expand : Scope → Object → Expansion m Object) (scope : Scope)

mutual

/-- Applies `expand` to the outermost objects that have directives. -/
def Object.descend : Object → Expansion m Object
  | ⟨name, label, fields, directives, comments, footer, position⟩ =>
    match directives with
    | [] => return ⟨name, label, ← descendFields fields, [], comments, footer, position⟩
    | directives => expand scope ⟨name, label, fields, directives, comments, footer, position⟩

/-- Applies `expand` to the outermost objects in some fields. -/
def descendFields : Fields → Expansion m Fields
  | [] => return []
  | (key, node) :: fields => do
    let node ← node.descend
    return (key, node) :: (← descendFields fields)

/-- Applies `expand` to the outermost objects in a node. -/
def Node.descend : Node → Expansion m Node
  | .option binding => return .option binding
  | .object o => return .object (← o.descend)
  | .list name items => return .list name (← descendItems items)

/-- Applies `expand` to the outermost objects in the items of a list. -/
def descendItems : List Node → Expansion m (List Node)
  | [] => return []
  | item :: items => do
    let item ← item.descend
    return item :: (← descendItems items)

end

end Descend

/-- An object whose directives are running, and the fragments that it sees so far. -/
structure Stage where
  object : Object
  scope : Scope

/-- What a directive brings: fields, which are combined with those of its object, and fragments. -/
structure Effect where
  method : Method
  fields : Fields
  fragments : Scope

namespace Effect

/-- Nothing. -/
def none : Effect := ⟨.merge, [], []⟩

/-- The object and its fragments behind the directive. -/
def on (e : Effect) (stage : Stage) : Stage :=
  ⟨stage.object.combineAll e.method e.fields, e.fragments ++ stage.scope⟩

end Effect

/-- What running the directives of a document depends on. -/
structure Expander (m : Type → Type) extends Scene m where
  /-- The directory that relative includes are resolved against. -/
  directory : String
  /-- How deep the includes of the document are nested. -/
  level : Nat
  /-- Expands an included document in its directory; absent where includes are too deep. -/
  nested? : Option (String → Object → Expansion m Object)

namespace Expander

variable (x : Expander m)

/-- Defines a fragment. Its block is expanded by `expandBlock`. -/
def define (expandBlock : Scope → Object → Expansion m Object) (d : Directive) (scope : Scope) :
    Expansion m Effect := do
  let args ← d.bind ["name", "fragment"]
  let name ← d.nameOf x.toScene "name" (← d.required args "name")
  let fragment ←
    match ← d.required args "fragment" with
    | .block o => do pure (Fragment.block (← expandBlock scope o))
    | .expr e => pure (Fragment.value e)
    | .ident ident => throw (d.invalid (.notFragment ident))
  return { Effect.none with fragments := [(name, fragment)] }

/-- The fields of a fragment that an application asks for. -/
def selectFields (d : Directive) (args : List (String × Payload)) (block : Object) :
    Expansion m Object := do
  let block ←
    match Keyed.get? args "fields" with
    | none => pure block
    | some payload => do
      let keys ← d.textsOf x.toScene "fields" payload
      pure { block with fields := block.fields.filter fun field => field.1 ∈ keys }
  match Keyed.get? args "depth" with
  | none => return block
  | some payload => do
    let depth ← d.depthOf x.toScene "depth" payload
    return if depth = 0 then block else block.truncate depth

/-- Applies a fragment. One that is an expression becomes an option. -/
def apply (d : Directive) (scope : Scope) : Expansion m Effect := do
  let args ← d.bind ["name", "fields", "depth", "method"]
  let name ← d.nameOf x.toScene "name" (← d.required args "name")
  let method ← d.methodOf x.toScene (Keyed.get? args "method")
  match scope.lookup name with
  | none => throw (.undefinedFragment name d.position)
  | some (.value e) => return ⟨method, [(name, .option ⟨name, e, .none, d.position⟩)], []⟩
  | some (.block block) => do
    let block ← x.selectFields d args block
    return ⟨method, block.fields, []⟩

/-- Includes a document. A location without content is skipped unless that is fatal. -/
def includeDocument (d : Directive) : Expansion m Effect := do
  let i ← d.readInclude x.toScene
  match x.nested? with
  | none => throw (.unresolved i.location (.tooDeep includeLimit))
  | some nested =>
    match ← x.source.fetch x.level x.directory i.location with
    | .error e =>
      if i.fatal then throw (.unresolved i.location (.fetch e)) else return .none
    | .ok (content, directory) => do
      let document ← ExceptT.mk (pure (i.parse content))
      let document ← nested directory document
      return ⟨i.method, i.fields document, []⟩

/-- What a directive brings where some fragments are visible. -/
def effect (expandBlock : Scope → Object → Expansion m Object) (d : Directive) (scope : Scope) :
    Expansion m Effect :=
  match d.kind with
  | .definition => x.define expandBlock d scope
  | .application => x.apply d scope
  | .inclusion => x.includeDocument d

/-- Runs one directive. -/
def run (expandBlock : Scope → Object → Expansion m Object) (d : Directive) (stage : Stage) :
    Expansion m Stage := do
  let effect ← x.effect expandBlock d stage.scope
  return effect.on stage

/-- Runs directives in order. `literal` are the fields that are not in place yet, of which there
were `placed` before; each directive waits for those above it. -/
def runAll (expandBlock : Scope → Object → Expansion m Object) (placed : Nat) (literal : Fields)
    (stage : Stage) : List Directive → Expansion m Stage
  | [] => return { stage with object := stage.object.combineAll .merge literal }
  | d :: ds => do
    let due := d.offset - placed
    let object := stage.object.combineAll .merge (literal.take due)
    let stage ← x.run expandBlock d { stage with object }
    runAll expandBlock (placed + due) (literal.drop due) stage ds

/-- Expands an object that has directives. There are at most `weight` of them in it. -/
def expandObject : (weight : Nat) → Scope → Object → Expansion m Object
  | 0, _, o => return o
  | weight + 1, scope, o => do
    -- the fields come back one by one, in step with the directives
    let bare := { o with fields := [], directives := [] }
    let expandBlock := fun scope block => Object.descend (expandObject weight) scope block
    let stage ← x.runAll expandBlock 0 o.fields ⟨bare, scope⟩ o.directives
    stage.object.descend (expandObject weight) stage.scope

/-- Expands a document. -/
def expand (o : Object) : Expansion m Object :=
  o.descend (x.expandObject o.weight) []

end Expander

namespace Scene

/-- Expands a document in a directory, where includes may be nested `budget` levels deeper. -/
def expandWithin (scene : Scene m) : (budget : Nat) → String → Object → Expansion m Object
  | 0, directory, o =>
    Expander.expand ⟨scene, directory, includeLimit + 1, none⟩ o
  | budget + 1, directory, o =>
    Expander.expand ⟨scene, directory, includeLimit - budget, some (expandWithin scene budget)⟩ o

/-- Expands a document in a directory. -/
def expand (scene : Scene m) (directory : String) (o : Object) : Expansion m Object :=
  scene.expandWithin includeLimit directory o

end Scene

end ConfigLang
