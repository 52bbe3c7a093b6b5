import ConfigLang.Eval.Error
import ConfigLang.Keyed

/-!
# Environments

A frame binds names to values, in the order in which they were first bound. An environment is a
stack of frames above a base frame that is never popped. The base frame holds the variables
`@name`; each object level and each call pushes a frame above it, and `$name` looks these up from
the innermost out.
-/

namespace ConfigLang

/-- The bindings of one scope. -/
structure Frame where
  bindings : List (String × Value)
deriving Repr, Inhabited

namespace Frame

/-- No bindings. -/
def empty : Frame := ⟨[]⟩

/-- The frame of some bindings; a later one of a name overwrites an earlier one. -/
def ofList (bindings : List (String × Value)) : Frame :=
  ⟨Keyed.ofList bindings⟩

/-- Binds a name. A name that is bound already keeps its place. -/
def define (name : String) (value : Value) (f : Frame) : Frame :=
  ⟨Keyed.put name value f.bindings⟩

/-- The value of a name. -/
def get? (f : Frame) (name : String) : Option Value :=
  Keyed.get? f.bindings name

/-- Whether a name is bound. -/
def contains (f : Frame) (name : String) : Bool :=
  Keyed.contains f.bindings name

/-- Unbinds a name. -/
def remove (name : String) (f : Frame) : Frame :=
  ⟨Keyed.remove name f.bindings⟩

/-- The number of bindings. -/
def size (f : Frame) : Nat :=
  f.bindings.length

end Frame

/-- A stack of frames, the innermost first, above the base frame. -/
structure Environment where
  base : Frame
  frames : List Frame
deriving Repr, Inhabited

namespace Environment

/-- The environment of a base frame alone. -/
def ofBase (base : Frame) : Environment := ⟨base, []⟩

/-- The number of frames, that of the base included. -/
def depth (env : Environment) : Nat :=
  env.frames.length + 1

/-- Enters a scope. -/
def push (frame : Frame) (env : Environment) : Environment :=
  { env with frames := frame :: env.frames }

/-- Leaves the innermost scope; the base frame stays. -/
def pop (env : Environment) : Option Frame × Environment :=
  match env.frames with
  | [] => (none, env)
  | frame :: frames => (some frame, { env with frames })

/-- The innermost frame. -/
def current (env : Environment) : Frame :=
  env.frames.headD env.base

/-- Binds a name in the innermost frame. -/
def define (name : String) (value : Value) (env : Environment) : Environment :=
  match env.frames with
  | [] => { env with base := env.base.define name value }
  | frame :: frames => { env with frames := frame.define name value :: frames }

/-- The value of a name in some frames, or the error that it has none. -/
def lookup (frames : List Frame) (name shown : String) : Except EvalError Value :=
  match frames.findSome? (·.get? name) with
  | some value => .ok value
  | none => .error (.undefinedVariable shown)

/-- Looks a name up in all frames, from the innermost out. -/
def resolve (env : Environment) (name : String) : Except EvalError Value :=
  lookup (env.frames ++ [env.base]) name name

/-- Looks `$name` up in the frames above the base. -/
def resolveLocal (env : Environment) (name : String) : Except EvalError Value :=
  lookup env.frames name ("$" ++ name)

/-- Looks `@name` up in the base frame. -/
def resolveBase (env : Environment) (name : String) : Except EvalError Value :=
  lookup [env.base] name ("@" ++ name)

end Environment

end ConfigLang
