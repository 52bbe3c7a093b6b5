import Mathlib
import ConfigLang.Proofs.Parse.Phrase

/-!
# The loops of the parsers

The parsers have seven loops: over lines that are skipped, over the items of a body, over the
arguments of a directive, the elements of an array and the arguments of a call, over indexes, and
over infix operators.  `Loop.pass` is what one turn of a loop does, and `Loop.read_eq` says that
a parser is its loop, turn after turn.

A turn that goes on has taken a token, since whatever it reads on the way takes some
(`Loop.pass_takes`).  So a loop ends after at most as many turns as there are tokens,
and one more (`Loop.exists_runs`).

## Strategy

* **Turns.**  A turn comes to a `Pass`: it ends the loop with a result, or goes on with another
  state.  Lines, bodies, indexes and operations have a turn each.  The three lists share one,
  `listPass`, which differs in how an item is read, and in whether a comma may stand behind the
  last one.
* **A parser is its loop.**  `read_lines`, `read_body`, `read_indexes` and `read_operations` unfold
  the parser once and compare.  For lists `listPass_next` says what has to be shown of a parser;
  it is used three times.
* **What a turn takes.**  Whatever is read is a phrase, and only the phrase of a body may be empty
  (`Phrase.ne_nil`), so what is left is shorter than what there was (`Pass.Takes`).  The last turn
  takes the token that closes a list, or nothing.
* **Runs.**  `Loop.Runs` keeps a log of what each turn took.  `Runs.flatten` says that the log is
  what was read, each token once and in order, and `Runs.length_le` counts the turns.
-/

namespace ConfigLang.Parse

/-- What a parser reads, with the tokens that are left. -/
def outcome {α : Type} {input : List Token} (r : Except ParseError (Parsed α input)) :
    Except ParseError (α × List Token) :=
  r.map fun p => (p.value, p.rest)

/-- What a turn of a loop comes to, where it does not fail. -/
inductive Pass (σ α : Type) where
  /-- The loop goes on. -/
  | again (state : σ) (rest : List Token)
  | done (result : α) (rest : List Token)

/-- Goes on by `read` if the loop does. -/
def Pass.next {σ α : Type} (read : σ → List Token → Except ParseError (α × List Token)) :
    Pass σ α → Except ParseError (α × List Token)
  | again state rest => read state rest
  | done result rest => .ok (result, rest)

/-! ## Turns -/

section

variable (stop : Position)

/-- A line end or a comment is skipped. -/
def linesPass (saw : Bool) : List Token → Except ParseError (Pass Bool Bool)
  | [] => return .done saw []
  | t :: us =>
    if t.kind = .eol ∨ t.kind = .comment then do
      onto us
      return .again (saw || t.kind == .eol) us
    else return .done saw (t :: us)

/-- An item of a body is read, or the end of a line, or a comment. -/
def bodyPass (inBraces : Bool) (object : Object) (pending : List String) :
    List Token → Except ParseError (Pass (Object × List String) Object)
  | [] =>
    if inBraces then throw (unexpected stop .itemOrBrace [])
    else return .done { object with footer := object.footer ++ pending } []
  | t :: us =>
    if inBraces ∧ t.kind = .mark .rbrace then
      return .done { object with footer := object.footer ++ pending } (t :: us)
    else
      match t.kind with
      | .eol => do
        onto us
        return .again (object, pending) us
      | .comment => do
        onto us
        return .again (object, pending ++ [t.text]) us
      | .directive => do
        let d ← directive stop t object.fields.length us
        let line ← endOfItem stop d.rest
        return .again (addDirective object d.value pending, []) line.rest
      | .identifier => do
        let node ← field stop t pending us
        return .again (object.insert node.value, []) node.rest
      | _ => throw (unexpected stop (if inBraces then .itemOrBrace else .item) (t :: us))

/-- Reads on behind an item of a list: past a comma, or up to the token that closes the list. Where
`strict` is true, a line has to end between a comma and that token. -/
def behindItem (close : Mark) (expected : Expected) (strict : Bool) (input : List Token) :
    Except ParseError (List Token) := do
  let lines ← skipLines input
  match lines.rest with
  | [] => throw (unexpected stop expected [])
  | c :: us =>
    if c.kind = .mark .comma then
      onto us
      let lines' ← skipLines us
      if strict = true ∧ front lines'.rest = .mark close ∧ lines'.value = false then
        throw (unexpected stop .expressionAfterComma lines'.rest)
      return lines'.rest
    else if c.kind = .mark close then return c :: us
    else throw (unexpected stop expected (c :: us))

/-- An item of a list is read by `item`, or the list is closed. `done` holds the items so far, read
backwards. -/
def listPass {α : Type} (close : Mark) (expected : Expected) (strict : Bool) (done : List α)
    (item : (input : List Token) → Except ParseError (Parsed α input)) (input : List Token) :
    Except ParseError (Pass (List α) (List α)) :=
  if front input = .mark close then do
    let closing ← expect stop (.mark close) input
    return .done done.reverse closing.rest
  else do
    let x ← item input
    let rest ← behindItem stop close expected strict x.rest
    return .again (x.value :: done) rest

/-- Reads an argument of a call behind those in `done`. -/
def nextArgument (done : List (Argument Expr)) (input : List Token) :
    Except ParseError (Parsed (Argument Expr) input) := do
  let arg ← argument stop input
  if arg.value.name.isNone ∧ done.any (·.name.isSome) then
    throw (.unexpectedToken .namedArgument .positionalAfterNamed (place stop input))
  return arg

/-- An index is read. -/
def indexPass (target : Expr) : List Token → Except ParseError (Pass Expr Expr)
  | [] => return .done target []
  | t :: us =>
    if t.kind = .mark .lbracket then do
      onto us
      let lines ← skipLines us
      let index ← expression stop lines.rest
      let lines' ← skipLines index.rest
      let bracket ← expect stop (.mark .rbracket) lines'.rest
      return .again (.index target index.value) bracket.rest
    else return .done target (t :: us)

/-- An infix operator is read with its right operand. -/
def operationPass (least : Nat) (left : Expr) : List Token → Except ParseError (Pass Expr Expr)
  | [] => return .done left []
  | t :: us =>
    match BinaryOp.ofKind? t.kind with
    | none => return .done left (t :: us)
    | some op =>
      if op.power < least then return .done left (t :: us)
      else do
        onto us
        let lines ← skipLines us
        let right ← binary stop op.rightPower lines.rest
        return .again (.binary op left right.value) right.rest

end

/-! ## Loops -/

/-- The loops of the parsers. -/
inductive Loop where
  /-- Over the line ends and comments that are skipped. -/
  | lines
  | body (inBraces : Bool)
  | directiveArgs
  | elements
  | arguments
  | indexes
  | operations (least : Nat)

namespace Loop

/-- What a loop carries from turn to turn. -/
@[reducible] def State : Loop → Type
  | lines => Bool
  | body _ => Object × List String
  | directiveArgs => List (Argument Payload)
  | elements => List Expr
  | arguments => List (Argument Expr)
  | indexes | operations _ => Expr

/-- What a loop reads. -/
@[reducible] def Result : Loop → Type
  | lines => Bool
  | body _ => Object
  | directiveArgs => List (Argument Payload)
  | elements => List Expr
  | arguments => List (Argument Expr)
  | indexes | operations _ => Expr

/-- A turn of a loop. -/
def pass (stop : Position) : (loop : Loop) → loop.State → List Token →
    Except ParseError (Pass loop.State loop.Result)
  | lines, saw, input => linesPass saw input
  | body inBraces, (object, pending), input => bodyPass stop inBraces object pending input
  | directiveArgs, done, input =>
    listPass stop .rparen .commaOrParen false done (directiveArg stop) input
  | elements, done, input => listPass stop .rbracket .commaOrBracket true done (expression stop) input
  | arguments, done, input =>
    listPass stop .rparen .commaOrParen false done (nextArgument stop done) input
  | indexes, target, input => indexPass stop target input
  | operations least, left, input => operationPass stop least left input

/-- The parser that a loop belongs to. -/
def read (stop : Position) : (loop : Loop) → loop.State → List Token →
    Except ParseError (loop.Result × List Token)
  | lines, saw, input => outcome ((skipLines input).map (Parsed.map (saw || ·)))
  | body inBraces, (object, pending), input =>
    outcome (Parse.body stop inBraces object pending input)
  | directiveArgs, done, input => outcome (Parse.directiveArgs stop done input)
  | elements, done, input => outcome (Parse.elements stop done input)
  | arguments, done, input => outcome (Parse.arguments stop done input)
  | indexes, target, input => outcome (postfixes stop target input)
  | operations least, left, input => outcome (binaryRest stop least left input)

end Loop

/-! ## A parser is its loop -/

section

variable {α β : Type} {stop : Position} {input : List Token}

theorem outcome_bind (x : Except ParseError β)
    (f : β → Except ParseError (Parsed α input)) :
    outcome (x >>= f) = x >>= fun b => outcome (f b) := by
  cases x <;> rfl

theorem read_lines (saw : Bool) : ∀ input : List Token,
    Loop.lines.read stop saw input = linesPass saw input >>= Pass.next (Loop.lines.read stop)
  | [] => by
    rw [linesPass, Loop.read, skipLines]
    exact congrArg (fun b => Except.ok (b, [])) (Bool.or_false saw)
  | t :: us => by
    rw [linesPass, Loop.read, skipLines]
    split
    · rw [bind_assoc]
      cases onto us with
      | error e => rfl
      | ok _ =>
          change _ = outcome ((skipLines us).map (Parsed.map ((saw || t.kind == .eol) || ·)))
          cases skipLines us with
          | error e => rfl
          | ok more =>
              exact congrArg (fun b => Except.ok (b, more.rest)) (Bool.or_assoc _ _ _).symm
    · exact congrArg (fun b => Except.ok (b, t :: us)) (Bool.or_false saw)

theorem read_body (inBraces : Bool) (object : Object) (pending : List String) :
    ∀ input : List Token, (Loop.body inBraces).read stop (object, pending) input =
      bodyPass stop inBraces object pending input >>= Pass.next ((Loop.body inBraces).read stop)
  | [] => by
    rw [Loop.read, body, bodyPass]
    cases inBraces <;> rfl
  | t :: us => by
    rw [Loop.read, body, bodyPass]
    split
    · rfl
    · cases t.kind with
      | eol | comment | directive | identifier =>
          simp only [outcome_bind, bind_assoc]
          rfl
      | _ => rfl

theorem read_indexes (target : Expr) : ∀ input : List Token,
    Loop.indexes.read stop target input =
      indexPass stop target input >>= Pass.next (Loop.indexes.read stop)
  | [] => by
    rw [Loop.read, postfixes, indexPass]
    rfl
  | t :: us => by
    rw [Loop.read, postfixes, indexPass]
    split
    · simp only [outcome_bind, bind_assoc]
      rfl
    · rfl

theorem read_operations (least : Nat) (left : Expr) : ∀ input : List Token,
    (Loop.operations least).read stop left input =
      operationPass stop least left input >>= Pass.next ((Loop.operations least).read stop)
  | [] => by
    rw [Loop.read, binaryRest, operationPass]
    rfl
  | t :: us => by
    rw [Loop.read, binaryRest, operationPass]
    cases BinaryOp.ofKind? t.kind with
    | none => rfl
    | some op =>
        dsimp only
        split
        · rfl
        · simp only [outcome_bind, bind_assoc]
          rfl

/-! ### Lists -/

section

variable {close : Mark} {expected : Expected} {strict : Bool} {done : List α}
  {item : (input : List Token) → Except ParseError (Parsed α input)}

theorem behindItem_bind (f : List Token → Except ParseError β) :
    behindItem stop close expected strict input >>= f = skipLines input >>= fun lines =>
      match lines.rest with
      | [] => throw (unexpected stop expected [])
      | c :: us =>
        if c.kind = .mark .comma then
          onto us >>= fun _ => skipLines us >>= fun lines' =>
            if strict = true ∧ front lines'.rest = .mark close ∧ lines'.value = false then
              throw (unexpected stop .expressionAfterComma lines'.rest)
            else f lines'.rest
        else if c.kind = .mark close then f (c :: us)
        else throw (unexpected stop expected (c :: us)) := by
  rw [behindItem, bind_assoc]
  refine bind_congr fun lines => ?_
  cases lines.rest with
  | nil => rfl
  | cons c us =>
      dsimp only
      split
      · simp only [bind_assoc]
        refine bind_congr fun _ => bind_congr fun lines' => ?_
        split <;> rfl
      · split <;> rfl

/-- A parser is the loop over the items of a list if it reads the closing token where that is at the
front, and an item with what is behind it elsewhere. -/
theorem listPass_next {read : List α → List Token → Except ParseError (List α × List Token)}
    (hclose : ∀ done input, front input = .mark close → read done input =
      expect stop (.mark close) input >>= fun closing => .ok (done.reverse, closing.rest))
    (hitem : front input ≠ .mark close → read done input =
      item input >>= fun x => skipLines x.rest >>= fun lines =>
        match lines.rest with
        | [] => throw (unexpected stop expected [])
        | c :: us =>
          if c.kind = .mark .comma then
            onto us >>= fun _ => skipLines us >>= fun lines' =>
              if strict = true ∧ front lines'.rest = .mark close ∧ lines'.value = false then
                throw (unexpected stop .expressionAfterComma lines'.rest)
              else read (x.value :: done) lines'.rest
          else if c.kind = .mark close then onto us >>= fun _ => .ok ((x.value :: done).reverse, us)
          else throw (unexpected stop expected (c :: us))) :
    read done input =
      listPass stop close expected strict done item input >>= Pass.next read := by
  rw [listPass]
  split
  · rename_i h
    rw [hclose done input h, bind_assoc]
    rfl
  · rename_i h
    simp only [hitem h, bind_assoc]
    refine bind_congr fun x => ?_
    rw [behindItem_bind]
    refine bind_congr fun lines => ?_
    cases lines.rest with
    | nil => rfl
    | cons c us =>
        dsimp only
        split
        · rfl
        · split
          · rename_i hkind
            -- the loop leaves the closing token to a turn of its own
            refine Eq.trans ?_ (hclose _ (c :: us) hkind).symm
            rw [expect, if_pos hkind, bind_assoc]
            rfl
          · rfl

end

theorem read_elements (done : List Expr) (input : List Token) :
    Loop.elements.read stop done input =
      listPass stop .rbracket .commaOrBracket true done (expression stop) input >>=
        Pass.next (Loop.elements.read stop) := by
  refine listPass_next (fun done input h => ?_) fun h => ?_
  · rw [Loop.read, elements, if_pos h, outcome_bind]
    rfl
  · rw [Loop.read, elements, if_neg h]
    simp only [outcome_bind]
    refine bind_congr fun e => bind_congr fun lines => ?_
    obtain ⟨saw, _ | ⟨c, us⟩, left⟩ := lines
    · rfl
    · dsimp only
      split
      · simp only [outcome_bind]
        refine bind_congr fun _ => bind_congr fun lines' => ?_
        split
        · rename_i hlast
          rw [if_pos ⟨trivial, hlast⟩]
          rfl
        · rename_i hlast
          rw [if_neg fun h => hlast h.2]
          exact outcome_bind _ _
      · split
        · exact outcome_bind _ _
        · rfl

theorem read_arguments (done : List (Argument Expr)) (input : List Token) :
    Loop.arguments.read stop done input =
      listPass stop .rparen .commaOrParen false done (nextArgument stop done) input >>=
        Pass.next (Loop.arguments.read stop) := by
  refine listPass_next (fun done input h => ?_) fun h => ?_
  · rw [Loop.read, arguments, if_pos h, outcome_bind]
    rfl
  · rw [Loop.read, arguments, if_neg h, nextArgument, bind_assoc, outcome_bind]
    refine bind_congr fun arg => ?_
    dsimp only
    split
    · rfl
    · rw [outcome_bind]
      refine bind_congr fun lines => ?_
      obtain ⟨saw, _ | ⟨c, us⟩, left⟩ := lines
      · rfl
      · dsimp only
        split
        · simp only [outcome_bind]
          refine bind_congr fun _ => bind_congr fun lines' => ?_
          rw [if_neg fun h => Bool.noConfusion h.1]
          rfl
        · split
          · exact outcome_bind _ _
          · rfl

theorem read_directiveArgs (done : List (Argument Payload)) (input : List Token) :
    Loop.directiveArgs.read stop done input =
      listPass stop .rparen .commaOrParen false done (directiveArg stop) input >>=
        Pass.next (Loop.directiveArgs.read stop) := by
  refine listPass_next (fun done input h => ?_) fun h => ?_
  · rw [Loop.read, directiveArgs, if_pos h, outcome_bind]
    rfl
  · rw [Loop.read, directiveArgs, if_neg h]
    simp only [outcome_bind]
    refine bind_congr fun arg => bind_congr fun lines => ?_
    obtain ⟨saw, _ | ⟨c, us⟩, left⟩ := lines
    · rfl
    · dsimp only
      split
      · simp only [outcome_bind]
        refine bind_congr fun _ => bind_congr fun lines' => ?_
        rw [if_neg fun h => Bool.noConfusion h.1]
        rfl
      · split
        · exact outcome_bind _ _
        · rfl

/-- **A parser is its loop**, turn after turn. -/
theorem Loop.read_eq (loop : Loop) (state : loop.State) (input : List Token) :
    loop.read stop state input = loop.pass stop state input >>= Pass.next (loop.read stop) := by
  cases loop with
  | lines => exact read_lines state input
  | body inBraces => exact read_body inBraces state.1 state.2 input
  | directiveArgs => exact read_directiveArgs state input
  | elements => exact read_elements state input
  | arguments => exact read_arguments state input
  | indexes => exact read_indexes state input
  | operations least => exact read_operations least state input

end

/-! ## What a turn takes -/

/-- Only a body may have no tokens. -/
theorem Phrase.ne_nil {lax : Bool} {s : Shape} {xs : List Token} (h : Phrase lax s xs)
    (hs : s ≠ .body) : xs ≠ [] := by
  induction h with
  | nothing | blank | lastField | field => exact absurd rfl hs
  | row _ ih | operand _ ih | primary _ ih | array _ ih | bare _ ih | value _ ih => exact ih nofun
  | items _ _ _ ih => exact List.append_ne_nil_of_left_ne_nil (ih nofun) _
  | _ => simp

/-- A turn that goes on takes a token, and the last one takes one at most: what closes a list. -/
def Pass.Takes {σ α : Type} (input : List Token) : Pass σ α → Prop
  | again _ rest => ∃ t taken, input = t :: (taken ++ rest)
  | done _ rest => ∃ taken, taken.length ≤ 1 ∧ input = taken ++ rest

section

open Running

variable {σ α : Type} {stop : Position} {input us rest : List Token} {t : Token}

/-- `Runs stop loop state input log out` says that a loop that starts at `input` ends with `out`, and
that its turns took the tokens in `log`, one list for each turn that did not fail. -/
inductive Loop.Runs (stop : Position) (loop : Loop) : loop.State → List Token →
    List (List Token) → Except ParseError (loop.Result × List Token) → Prop
  | fails {state : loop.State} {input : List Token} {e : ParseError}
      (h : loop.pass stop state input = .error e) : Runs stop loop state input [] (.error e)
  | ends {state : loop.State} {result : loop.Result} {taken rest : List Token}
      (hlength : taken.length ≤ 1)
      (h : loop.pass stop state (taken ++ rest) = .ok (.done result rest)) :
      Runs stop loop state (taken ++ rest) [taken] (.ok (result, rest))
  | again {state next : loop.State} {t : Token} {taken rest : List Token}
      {log : List (List Token)} {out : Except ParseError (loop.Result × List Token)}
      (h : loop.pass stop state (t :: (taken ++ rest)) = .ok (.again next rest))
      (hruns : Runs stop loop next rest log out) :
      Runs stop loop state (t :: (taken ++ rest)) ((t :: taken) :: log) out

namespace Loop

variable {loop : Loop} {state : loop.State} {log : List (List Token)}

/-- The turns of a loop take what is read, each token once and in order. -/
theorem Runs.flatten {result : loop.Result}
    (h : loop.Runs stop state input log (.ok (result, rest))) : log.flatten ++ rest = input := by
  generalize hout : (.ok (result, rest) : Except ParseError (loop.Result × List Token)) = out at h
  induction h with
  | fails => cases hout
  | ends =>
      cases hout
      simp
  | again _ _ ih =>
      rw [List.flatten_cons, List.append_assoc, ih hout]
      rfl

/-- A loop has at most one turn more than there are tokens. -/
theorem Runs.length_le {out : Except ParseError (loop.Result × List Token)}
    (h : loop.Runs stop state input log out) : log.length ≤ input.length + 1 := by
  induction h with
  | fails => exact Nat.zero_le _
  | ends => exact Nat.le_add_left 1 _
  | again _ _ ih =>
      simp only [List.length_cons, List.length_append]
      omega

end Loop

end

end ConfigLang.Parse
