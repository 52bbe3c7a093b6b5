import ConfigLang.Parse.Expr
import ConfigLang.Tree.Merge

/-!
# Parsing documents

A body is a sequence of options, objects and directives, one to a line. Comments above a field
belong to it; those before a directive or at the end of a body go to the footer of the object.

`parseDocument` reads a whole text as a root object without a name, `parseExpression` reads one
as an expression, and `parseLeadingExpression` reads the expression that a text begins with.
-/

namespace ConfigLang

namespace Parse

variable (stop : Position)

/-- Reads the comment behind a field, if there is one. -/
def trailingComment : (input : List Token) → Except ParseError (Parsed (Option String) input)
  | t :: us =>
    if t.kind = .comment then do
      onto us
      return (Parsed.here (some t.text) us).behindToken t
    else return .here none (t :: us)
  | [] => return .here none []

/-- A field ends with its line, before a closing brace, or with the text. -/
def endOfItem : (input : List Token) → Except ParseError (Parsed Unit input)
  | t :: us =>
    if t.kind = .eol then do
      onto us
      return (Parsed.here () us).behindToken t
    else if t.kind = .mark .rbrace then return .here () (t :: us)
    else throw (unexpected stop (.token .eol) (t :: us))
  | [] => return .here () []

/-- Reads on behind a name in the arguments of a directive: a call if a parenthesis opens, or
else the name of a fragment. -/
def payloadBehindName (name : Token) (input : List Token) :
    Except ParseError (Parsed Payload input) := do
  if front input = .mark .lparen then
    let called ← call stop name input
    -- a call may be the first operand of a longer expression
    let e ← continued stop called.value called.rest
    return called.behind (e.map .expr)
  else return .here (.ident name.text) input

/-- An object to which a directive is added; the comments before it go to the footer. -/
def addDirective (o : Object) (d : Directive) (pending : List String) : Object :=
  { o with directives := o.directives ++ [d], footer := o.footer ++ pending }

mutual

/-- Reads fields and directives into `object` up to the closing brace, or up to the end of the
text where none is open. `pending` holds the comments that belong to nothing yet. -/
def body (inBraces : Bool) (object : Object) (pending : List String) :
    (input : List Token) → Except ParseError (Parsed Object input)
  | [] =>
    if inBraces then throw (unexpected stop .itemOrBrace [])
    else return .here { object with footer := object.footer ++ pending } []
  | t :: us =>
    if inBraces ∧ t.kind = .mark .rbrace then
      return .here { object with footer := object.footer ++ pending } (t :: us)
    else
      match t.kind with
      | .eol => do
        onto us
        let o ← body inBraces object pending us
        return o.behindToken t
      | .comment => do
        onto us
        let o ← body inBraces object (pending ++ [t.text]) us
        return o.behindToken t
      | .directive => do
        let d ← directive t object.fields.length us
        have := d.length_le
        let line ← endOfItem stop d.rest
        have := line.length_le
        let o ← body inBraces (addDirective object d.value pending) [] line.rest
        return (d.behind (line.behind o)).behindToken t
      | .identifier => do
        let node ← field t pending us
        have := node.length_le
        let o ← body inBraces (object.insert node.value) [] node.rest
        return (node.behind o).behindToken t
      | _ => throw (unexpected stop (if inBraces then .itemOrBrace else .item) (t :: us))
termination_by input => input.length * 4 + 1

/-- Reads a field behind its name. -/
def field (name : Token) (leading : List String) :
    (input : List Token) → Except ParseError (Parsed Node input)
  | [] => throw (unexpected stop .assignOrBrace [])
  | t :: us => do
    onto (t :: us)
    if t.kind = .mark .assign then
      onto us
      let e ← expression stop us
      let trailing ← trailingComment e.rest
      let line ← endOfItem stop trailing.rest
      let node := Node.option ⟨name.text, e.value, ⟨leading, trailing.value⟩, name.position⟩
      return (e.behind (trailing.behind (line.map fun _ => node))).behindToken t
    else if t.kind = .mark .lbrace then
      block name.text none name.position leading (t :: us)
    else if t.kind = .identifier then
      onto us
      let node ← block name.text (some t.text) name.position leading us
      return node.behindToken t
    else throw (unexpected stop .assignOrBrace (t :: us))
termination_by input => input.length * 4 + 2

/-- Reads an object in braces as a field. -/
def block (name : String) (label : Option String) (position : Position) (leading : List String) :
    (input : List Token) → Except ParseError (Parsed Node input)
  | [] => throw (unexpected stop (.token (.mark .lbrace)) [])
  | t :: us => do
    if t.kind = .mark .lbrace then
      onto us
      let o ← body true { Object.empty name position with label } [] us
      let brace ← expect stop (.mark .rbrace) o.rest
      let trailing ← trailingComment brace.rest
      let line ← endOfItem stop trailing.rest
      let node := Node.object { o.value with comments := ⟨leading, trailing.value⟩ }
      return (o.behind (brace.behind (trailing.behind (line.map fun _ => node)))).behindToken t
    else throw (unexpected stop (.token (.mark .lbrace)) (t :: us))
termination_by input => input.length * 4 + 1

/-- Reads the arguments of a directive behind its name. -/
def directive (name : Token) (offset : Nat) (input : List Token) :
    Except ParseError (Parsed Directive input) := do
  onto input
  match DirectiveKind.ofName? name.text with
  | none => throw (.unknownDirective name.text name.position)
  | some kind =>
    let paren ← expect stop (.mark .lparen) input
    let lines ← skipLines paren.rest
    have := paren.length_le
    have := lines.length_le
    let args ← directiveArgs [] lines.rest
    return paren.behind (lines.behind (args.map (⟨kind, ·, name.position, offset⟩)))
termination_by input.length * 4 + 3

/-- Reads the arguments of a directive up to the closing parenthesis. `done` holds those so far,
read backwards. -/
def directiveArgs (done : List (Argument Payload)) (input : List Token) :
    Except ParseError (Parsed (List (Argument Payload)) input) := do
  if front input = .mark .rparen then
    let paren ← expect stop (.mark .rparen) input
    return paren.map fun _ => done.reverse
  else
    let arg ← directiveArg input
    have := arg.length_le
    let lines ← skipLines arg.rest
    have := lines.length_le
    match lines with
    | ⟨_, c :: us, left⟩ =>
      have : us.length < arg.rest.length := left.length_le
      if c.kind = .mark .comma then
        onto us
        let lines' ← skipLines us
        have := lines'.length_le
        let all ← directiveArgs (arg.value :: done) lines'.rest
        return arg.behind (.past left (lines'.behind all))
      else if c.kind = .mark .rparen then
        onto us
        return arg.behind (.past left (.here (arg.value :: done).reverse us))
      else throw (unexpected stop .commaOrParen (c :: us))
    | ⟨_, [], _⟩ => throw (unexpected stop .commaOrParen [])
termination_by input.length * 4 + 2

/-- Reads one argument of a directive. -/
def directiveArg : (input : List Token) → Except ParseError (Parsed (Argument Payload) input)
  | t :: u :: vs => do
    if t.kind = .identifier then
      onto (u :: vs)
      if u.kind = .mark .assign then
        onto vs
        let lines ← skipLines vs
        have := lines.length_le
        let value ← payload lines.rest
        let arg := lines.behind (value.map (Argument.mk (some t.text) ·))
        return (arg.behindToken u).behindToken t
      else
        let value ← payloadBehindName stop t (u :: vs)
        return (value.map (Argument.mk none ·)).behindToken t
    else
      let value ← payload (t :: u :: vs)
      return value.map (Argument.mk none ·)
  | input => do
    let value ← payload input
    return value.map (Argument.mk none ·)
termination_by input => input.length * 4 + 1

/-- Reads the value of an argument of a directive. -/
def payload : (input : List Token) → Except ParseError (Parsed Payload input)
  | [] => throw (unexpected stop .expression [])
  | t :: us => do
    if t.kind = .mark .lbrace then
      onto us
      let o ← body true (Object.empty "" t.position) [] us
      let brace ← expect stop (.mark .rbrace) o.rest
      return (o.behind (brace.map fun _ => .block o.value)).behindToken t
    else if t.kind = .identifier then
      onto us
      let value ← payloadBehindName stop t us
      return value.behindToken t
    else
      let e ← expression stop (t :: us)
      return e.map .expr
termination_by input => input.length * 4

end

end Parse

open Parse

/-- Reads a whole text as a document. -/
def parseDocument (text : String) : Except ParseError Object := do
  let ⟨tokens, stop⟩ := TokenList.ofText text
  onto tokens
  let root ← body stop false (Object.empty "" (place stop tokens)) [] tokens
  return root.value

/-- Reads a whole text as an expression. -/
def parseExpression (text : String) : Except ParseError Expr := do
  let ⟨tokens, stop⟩ := TokenList.ofText text
  onto tokens
  let lines ← skipLines tokens
  let e ← expression stop lines.rest
  let lines' ← skipLines e.rest
  match lines'.rest with
  | [] => return e.value
  | rest => throw (unexpected stop (.token .eof) rest)

/-- Reads the expression that a text begins with. -/
def parseLeadingExpression (text : String) : Except ParseError Expr := do
  let ⟨tokens, stop⟩ := TokenList.ofText text
  onto tokens
  let e ← expression stop tokens
  return e.value

end ConfigLang
