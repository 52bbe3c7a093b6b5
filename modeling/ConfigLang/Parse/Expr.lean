import ConfigLang.Parse.Step

/-!
# Parsing expressions

Precedence climbing. `binary` reads an operand and then, in `binaryRest`, every infix operator
whose power reaches the least power asked for, each with a right operand of a greater least
power; powers alone group from the right. A prefix operator takes an operand of powers. Behind a
primary expression any number of indexes follow, and a choice `a ? b : c` binds loosest of all.

The functions call one another on the tokens that are left. These never grow, and on a list of
one length the calls go from the loosest form to the tightest.
-/

namespace ConfigLang.Parse

/-- The value and unit of a literal token. -/
def literal (t : Token) : Except ParseError Expr :=
  match Literal.decode t.kind t.text with
  | .ok (value, unit) => .ok (.literal t value unit)
  | .error fault => .error (.invalidLiteral t.text fault t.position)

/-- The kinds of literal tokens. -/
def isLiteral : Kind → Bool
  | .integer | .float | .string | .heredoc | .boolean | .null | .date | .dateTime | .time => true
  | _ => false

variable (stop : Position)

mutual

/-- Reads an expression. -/
def expression (input : List Token) : Except ParseError (Parsed Expr input) := do
  let condition ← binary 1 input
  have := condition.length_le
  let e ← ternaryRest condition.value condition.rest
  return condition.behind e
termination_by input.length * 8 + 4

/-- Reads the branches of a choice, if there is one. -/
def ternaryRest (condition : Expr) :
    (input : List Token) → Except ParseError (Parsed Expr input)
  | [] => return .here condition []
  | t :: us =>
    if t.kind = .mark .question then do
      onto us
      let lines ← skipLines us
      have := lines.length_le
      let yes ← expression lines.rest
      have := yes.length_le
      let lines' ← skipLines yes.rest
      let colon ← expect stop (.mark .colon) lines'.rest
      let lines'' ← skipLines colon.rest
      have := lines'.length_le
      have := colon.length_le
      have := lines''.length_le
      let no ← expression lines''.rest
      let e := no.map (.ternary condition yes.value ·)
      return (lines.behind
        (yes.behind (lines'.behind (colon.behind (lines''.behind e))))).behindToken t
    else return .here condition (t :: us)
termination_by input => input.length * 8

/-- Reads an operand and the infix operators behind it whose power is at least `least`. -/
def binary (least : Nat) (input : List Token) : Except ParseError (Parsed Expr input) := do
  let left ← unary input
  have := left.length_le
  let e ← binaryRest least left.value left.rest
  return left.behind e
termination_by input.length * 8 + 3

/-- Reads infix operators whose power is at least `least`, with their right operands. -/
def binaryRest (least : Nat) (left : Expr) :
    (input : List Token) → Except ParseError (Parsed Expr input)
  | [] => return .here left []
  | t :: us =>
    match BinaryOp.ofKind? t.kind with
    | none => return .here left (t :: us)
    | some op =>
      if op.power < least then return .here left (t :: us)
      else do
        onto us
        let lines ← skipLines us
        have := lines.length_le
        let right ← binary op.rightPower lines.rest
        have := right.length_le
        let e ← binaryRest least (.binary op left right.value) right.rest
        return (lines.behind (right.behind e)).behindToken t
termination_by input => input.length * 8

/-- Reads prefix operators with their operand, or a primary expression with its indexes. -/
def unary (input : List Token) : Except ParseError (Parsed Expr input) :=
  match input with
  | [] => throw (unexpected stop .expression [])
  | t :: us =>
    match UnaryOp.ofKind? t.kind with
    | some op => do
      onto us
      let operand ← binary UnaryOp.operandPower us
      return (operand.map (.unary op ·)).behindToken t
    | none => do
      let primary ← primary (t :: us)
      have : primary.rest.length ≤ us.length + 1 := primary.length_le
      let e ← postfixes primary.value primary.rest
      return primary.behind e
termination_by input.length * 8 + 2

/-- Reads indexes behind an expression. -/
def postfixes (target : Expr) : (input : List Token) → Except ParseError (Parsed Expr input)
  | [] => return .here target []
  | t :: us =>
    if t.kind = .mark .lbracket then do
      onto us
      let lines ← skipLines us
      have := lines.length_le
      let index ← expression lines.rest
      have := index.length_le
      let lines' ← skipLines index.rest
      let bracket ← expect stop (.mark .rbracket) lines'.rest
      have := lines'.length_le
      have := bracket.length_le
      let e ← postfixes (.index target index.value) bracket.rest
      return (lines.behind (index.behind (lines'.behind (bracket.behind e)))).behindToken t
    else return .here target (t :: us)
termination_by input => input.length * 8

/-- Reads a literal, a variable, a group, an array or a call. -/
def primary : (input : List Token) → Except ParseError (Parsed Expr input)
  | [] => throw (unexpected stop .expression [])
  | t :: us =>
    if isLiteral t.kind then do
      onto us
      return (Parsed.here (← literal t) us).behindToken t
    else if t.kind = .localVar then do
      onto us
      return (Parsed.here (.var .enclosing t.text t.position) us).behindToken t
    else if t.kind = .envVar then do
      onto us
      return (Parsed.here (.var .base t.text t.position) us).behindToken t
    else if t.kind = .mark .lparen then do
      onto us
      let lines ← skipLines us
      have := lines.length_le
      let e ← expression lines.rest
      let lines' ← skipLines e.rest
      let paren ← expect stop (.mark .rparen) lines'.rest
      let e := e.behind (lines'.behind (paren.map fun _ => e.value))
      return (lines.behind e).behindToken t
    else if t.kind = .mark .lbracket then do
      onto us
      let lines ← skipLines us
      have := lines.length_le
      let items ← elements [] lines.rest
      return (lines.behind (items.map .array)).behindToken t
    else if t.kind = .identifier then do
      onto us
      if front us = .mark .lparen then
        let e ← call t us
        return e.behindToken t
      else throw (.unexpectedToken .expressionNotName (.token t) t.position)
    else throw (unexpected stop .expression (t :: us))
termination_by input => input.length * 8 + 1

/-- Reads the elements of an array up to its closing bracket. Behind the comma after the last
element the line has to end. `done` holds the elements so far, read backwards. -/
def elements (done : List Expr) (input : List Token) :
    Except ParseError (Parsed (List Expr) input) := do
  if front input = .mark .rbracket then
    let bracket ← expect stop (.mark .rbracket) input
    return bracket.map fun _ => done.reverse
  else
    let e ← expression input
    have := e.length_le
    let lines ← skipLines e.rest
    match lines with
    | ⟨_, c :: us, left⟩ =>
      have : us.length < e.rest.length := left.length_le
      if c.kind = .mark .comma then
        onto us
        let lines' ← skipLines us
        have := lines'.length_le
        -- a list over several lines may end in a comma, one on a single line may not
        if front lines'.rest = .mark .rbracket ∧ lines'.value = false then
          throw (unexpected stop .expressionAfterComma lines'.rest)
        let all ← elements (e.value :: done) lines'.rest
        return e.behind (.past left (lines'.behind all))
      else if c.kind = .mark .rbracket then
        onto us
        return e.behind (.past left (.here (e.value :: done).reverse us))
      else throw (unexpected stop .commaOrBracket (c :: us))
    | ⟨_, [], _⟩ => throw (unexpected stop .commaOrBracket [])
termination_by input.length * 8 + 5

/-- Reads the arguments of a call of `name`, which stands before the opening parenthesis at the
front. -/
def call (name : Token) : (input : List Token) → Except ParseError (Parsed Expr input)
  | [] => throw (unexpected stop (.token (.mark .lparen)) [])
  | t :: us =>
    if t.kind = .mark .lparen then do
      onto us
      let lines ← skipLines us
      have := lines.length_le
      let args ← arguments [] lines.rest
      return (lines.behind (args.map (.call name.text · name.position))).behindToken t
    else throw (unexpected stop (.token (.mark .lparen)) (t :: us))
termination_by input => input.length * 8

/-- Reads arguments up to the closing parenthesis. Once one is named, the others are too. `done`
holds the arguments so far, read backwards. -/
def arguments (done : List (Argument Expr)) (input : List Token) :
    Except ParseError (Parsed (List (Argument Expr)) input) := do
  if front input = .mark .rparen then
    let paren ← expect stop (.mark .rparen) input
    return paren.map fun _ => done.reverse
  else
    let arg ← argument input
    have := arg.length_le
    if arg.value.name.isNone ∧ done.any (·.name.isSome) then
      throw (.unexpectedToken .namedArgument .positionalAfterNamed (place stop input))
    let lines ← skipLines arg.rest
    match lines with
    | ⟨_, c :: us, left⟩ =>
      have : us.length < arg.rest.length := left.length_le
      if c.kind = .mark .comma then
        onto us
        let lines' ← skipLines us
        have := lines'.length_le
        let all ← arguments (arg.value :: done) lines'.rest
        return arg.behind (.past left (lines'.behind all))
      else if c.kind = .mark .rparen then
        onto us
        return arg.behind (.past left (.here (arg.value :: done).reverse us))
      else throw (unexpected stop .commaOrParen (c :: us))
    | ⟨_, [], _⟩ => throw (unexpected stop .commaOrParen [])
termination_by input.length * 8 + 6

/-- Reads one argument of a call. A name at its front is a keyword or calls a function. -/
def argument : (input : List Token) → Except ParseError (Parsed (Argument Expr) input)
  | [] => throw (unexpected stop .expression [])
  | [t] =>
    if t.kind = .identifier then throw (.unexpectedToken .argumentForm .endOfInput stop)
    else do
      let e ← expression [t]
      return e.map (Argument.mk none ·)
  | t :: u :: vs =>
    if t.kind = .identifier then do
      onto (u :: vs)
      if u.kind = .mark .assign then
        onto vs
        let lines ← skipLines vs
        have := lines.length_le
        let e ← expression lines.rest
        let arg := lines.behind (e.map (Argument.mk (some t.text) ·))
        return (arg.behindToken u).behindToken t
      else if u.kind = .mark .lparen then
        let called ← call t (u :: vs)
        have : called.rest.length ≤ vs.length + 1 := called.length_le
        let e ← continued called.value called.rest
        return (called.behind (e.map (Argument.mk none ·))).behindToken t
      else throw (.unexpectedToken .argumentForm (.token u) u.position)
    else do
      let e ← expression (t :: u :: vs)
      return e.map (Argument.mk none ·)
termination_by input => input.length * 8 + 5

/-- Reads on behind a primary expression. -/
def continued (primary : Expr) (input : List Token) : Except ParseError (Parsed Expr input) := do
  let operand ← postfixes primary input
  have := operand.length_le
  let condition ← binaryRest 1 operand.value operand.rest
  have := condition.length_le
  let e ← ternaryRest condition.value condition.rest
  return operand.behind (condition.behind e)
termination_by input.length * 8 + 1

end

end ConfigLang.Parse
