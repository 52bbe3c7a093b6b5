import Mathlib
import ConfigLang.Parse.Expr
import ConfigLang.Proofs.Running

/-!
# The grammar of expressions

`Parse.Reads` has one rule for each thing that a parser of expressions does, and a
parser reads what its rules derive, and nothing else.  What holds of all parsers is then
proved by induction on the rules, without a word about the parsers themselves.

A rule is about the tokens that are left, not about a piece of them, since what a parser
makes of a token depends on the one behind it.  Messages of errors are no part of it.

## Strategy

The parsers call one another, so there is one relation for all of them: `Form` says
which parser is meant, with what it was handed, and `Form.parse` is that parser.

* **Steps.**  A parser steps onto a token only if that is not malformed (`Legible`), and
  skips line ends and comments in places (`Lines`).  `lines_of_skipLines` and
  `exists_of_expect` say what a step that succeeds has found, `Lines.skipLines` and
  `expect_of_kind` that it succeeds there.
* **Soundness.**  `reads_expression` and the theorems behind it follow the parsers call by
  call, from the ternary operator down to an argument, and turn a result into a
  derivation.
* **Completeness.**  `Reads.parse` is by induction on the derivation.  Where a parser
  decides by the next token, a rule must not apply to a token that another one is for:
  an operand starts with a token of few kinds (`Reads.startsOperand`), and so with none
  that closes a list (`Reads.front_ne`).
* **What is left.**  What a form leaves is a suffix of what it was given
  (`Reads.isSuffix`), and all malformed tokens are in it (`Reads.mem_of_invalid`).
-/

namespace ConfigLang.Parse

/-- The front of some tokens is not malformed, so a parser may step onto it. -/
def Legible (input : List Token) : Prop :=
  front input ≠ .invalid

/-- Line ends and comments in front of a token, and whether a line end is among them. -/
inductive Lines : List Token → Bool → List Token → Prop
  | none {input : List Token} (heol : front input ≠ .eol) (hcomment : front input ≠ .comment) :
      Lines input false input
  | line {t : Token} {us rest : List Token} {saw : Bool} (hkind : t.kind = .eol)
      (hus : Legible us) (h : Lines us saw rest) : Lines (t :: us) true rest
  | comment {t : Token} {us rest : List Token} {saw : Bool} (hkind : t.kind = .comment)
      (hus : Legible us) (h : Lines us saw rest) : Lines (t :: us) saw rest

/-- What a parser of expressions may be about to read, with what was read before it. -/
inductive Form where
  | expression
  /-- The branches of a choice behind its condition. -/
  | choice (condition : Expr)
  | operation (least : Nat)
  /-- Infix operators with their right operands. -/
  | operations (least : Nat) (left : Expr)
  | operand
  | indexes (target : Expr)
  | primary
  | elements (done : List Expr)
  /-- The arguments of a call behind the name of the function. -/
  | call (name : Token)
  | arguments (done : List (Argument Expr))
  | argument
  /-- What may stand behind a primary expression. -/
  | continued (primary : Expr)

/-- What is read. -/
@[reducible] def Form.Result : Form → Type
  | elements _ => List Expr
  | arguments _ => List (Argument Expr)
  | argument => Argument Expr
  | _ => Expr

/-- `Reads f input v rest` says that `v` is read in the form `f` off the front of `input`, and that
`rest` is left. -/
inductive Reads : (f : Form) → List Token → f.Result → List Token → Prop
  | expression {input mid rest : List Token} {c e : Expr}
      (hcondition : Reads (.operation 1) input c mid) (hchoice : Reads (.choice c) mid e rest) :
      Reads .expression input e rest
  | noChoice {input : List Token} {c : Expr} (h : front input ≠ .mark .question) :
      Reads (.choice c) input c input
  | choice {t colon : Token} {us vs in₁ in₂ mid rest : List Token} {saw₁ saw₂ saw₃ : Bool}
      {c yes no : Expr} (hkind : t.kind = .mark .question) (hus : Legible us)
      (hlines₁ : Lines us saw₁ in₁) (hyes : Reads .expression in₁ yes mid)
      (hlines₂ : Lines mid saw₂ (colon :: vs)) (hcolon : colon.kind = .mark .colon)
      (hvs : Legible vs) (hlines₃ : Lines vs saw₃ in₂) (hno : Reads .expression in₂ no rest) :
      Reads (.choice c) (t :: us) (.ternary c yes no) rest
  | operation {least : Nat} {input mid rest : List Token} {left e : Expr}
      (hleft : Reads .operand input left mid)
      (hoperations : Reads (.operations least left) mid e rest) :
      Reads (.operation least) input e rest
  | noOperation {least : Nat} {input : List Token} {left : Expr}
      (h : ∀ op, BinaryOp.ofKind? (front input) = some op → op.power < least) :
      Reads (.operations least left) input left input
  | operations {least : Nat} {t : Token} {us in₁ mid rest : List Token} {saw : Bool}
      {op : BinaryOp} {left right e : Expr} (hop : BinaryOp.ofKind? t.kind = some op)
      (hpower : least ≤ op.power) (hus : Legible us) (hlines : Lines us saw in₁)
      (hright : Reads (.operation op.rightPower) in₁ right mid)
      (hoperations : Reads (.operations least (.binary op left right)) mid e rest) :
      Reads (.operations least left) (t :: us) e rest
  | prefixed {t : Token} {us rest : List Token} {op : UnaryOp} {e : Expr}
      (hop : UnaryOp.ofKind? t.kind = some op) (hus : Legible us)
      (hoperand : Reads (.operation UnaryOp.operandPower) us e rest) :
      Reads .operand (t :: us) (.unary op e) rest
  | operand {input mid rest : List Token} {target e : Expr}
      (hprimary : Reads .primary input target mid) (hindexes : Reads (.indexes target) mid e rest) :
      Reads .operand input e rest
  | noIndex {input : List Token} {target : Expr} (h : front input ≠ .mark .lbracket) :
      Reads (.indexes target) input target input
  | index {t bracket : Token} {us vs in₁ mid rest : List Token} {saw₁ saw₂ : Bool}
      {target i e : Expr} (hkind : t.kind = .mark .lbracket) (hus : Legible us)
      (hlines₁ : Lines us saw₁ in₁) (hindex : Reads .expression in₁ i mid)
      (hlines₂ : Lines mid saw₂ (bracket :: vs)) (hbracket : bracket.kind = .mark .rbracket)
      (hvs : Legible vs) (hindexes : Reads (.indexes (.index target i)) vs e rest) :
      Reads (.indexes target) (t :: us) e rest
  | literal {t : Token} {us : List Token} {value : Value} {unit : Option UnitSuffix}
      (hkind : isLiteral t.kind = true) (hus : Legible us)
      (hvalue : Literal.decode t.kind t.text = .ok (value, unit)) :
      Reads .primary (t :: us) (.literal t value unit) us
  | localVar {t : Token} {us : List Token} (hkind : t.kind = .localVar) (hus : Legible us) :
      Reads .primary (t :: us) (.var .enclosing t.text t.position) us
  | baseVar {t : Token} {us : List Token} (hkind : t.kind = .envVar) (hus : Legible us) :
      Reads .primary (t :: us) (.var .base t.text t.position) us
  | group {t paren : Token} {us in₁ mid rest : List Token} {saw₁ saw₂ : Bool} {e : Expr}
      (hkind : t.kind = .mark .lparen) (hus : Legible us) (hlines₁ : Lines us saw₁ in₁)
      (he : Reads .expression in₁ e mid) (hlines₂ : Lines mid saw₂ (paren :: rest))
      (hparen : paren.kind = .mark .rparen) (hrest : Legible rest) :
      Reads .primary (t :: us) e rest
  | array {t : Token} {us in₁ rest : List Token} {saw : Bool} {items : List Expr}
      (hkind : t.kind = .mark .lbracket) (hus : Legible us) (hlines : Lines us saw in₁)
      (hitems : Reads (.elements []) in₁ items rest) : Reads .primary (t :: us) (.array items) rest
  | called {t : Token} {us rest : List Token} {e : Expr} (hkind : t.kind = .identifier)
      (hcall : Reads (.call t) us e rest) : Reads .primary (t :: us) e rest
  | noElement {t : Token} {us : List Token} {done : List Expr} (hkind : t.kind = .mark .rbracket)
      (hus : Legible us) : Reads (.elements done) (t :: us) done.reverse us
  | lastElement {bracket : Token} {input mid rest : List Token} {saw : Bool} {done : List Expr}
      {e : Expr} (he : Reads .expression input e mid) (hlines : Lines mid saw (bracket :: rest))
      (hbracket : bracket.kind = .mark .rbracket) (hrest : Legible rest) :
      Reads (.elements done) input (e :: done).reverse rest
  | element {comma : Token} {input mid us in₁ rest : List Token} {saw₁ saw₂ : Bool}
      {done items : List Expr} {e : Expr} (he : Reads .expression input e mid)
      (hlines₁ : Lines mid saw₁ (comma :: us)) (hcomma : comma.kind = .mark .comma)
      (hus : Legible us) (hlines₂ : Lines us saw₂ in₁)
      -- behind the comma after the last element the line has to end
      (hlast : front in₁ = .mark .rbracket → saw₂ = true)
      (hitems : Reads (.elements (e :: done)) in₁ items rest) :
      Reads (.elements done) input items rest
  | call {name t : Token} {us in₁ rest : List Token} {saw : Bool} {args : List (Argument Expr)}
      (hkind : t.kind = .mark .lparen) (hus : Legible us) (hlines : Lines us saw in₁)
      (hargs : Reads (.arguments []) in₁ args rest) :
      Reads (.call name) (t :: us) (.call name.text args name.position) rest
  | noArgument {t : Token} {us : List Token} {done : List (Argument Expr)}
      (hkind : t.kind = .mark .rparen) (hus : Legible us) :
      Reads (.arguments done) (t :: us) done.reverse us
  | lastArgument {paren : Token} {input mid rest : List Token} {saw : Bool}
      {done : List (Argument Expr)} {arg : Argument Expr} (harg : Reads .argument input arg mid)
      (hnamed : arg.name.isNone → done.any (·.name.isSome) = false)
      (hlines : Lines mid saw (paren :: rest)) (hparen : paren.kind = .mark .rparen)
      (hrest : Legible rest) : Reads (.arguments done) input (arg :: done).reverse rest
  | arguments {comma : Token} {input mid us in₁ rest : List Token} {saw₁ saw₂ : Bool}
      {done args : List (Argument Expr)} {arg : Argument Expr}
      (harg : Reads .argument input arg mid)
      (hnamed : arg.name.isNone → done.any (·.name.isSome) = false)
      (hlines₁ : Lines mid saw₁ (comma :: us)) (hcomma : comma.kind = .mark .comma)
      (hus : Legible us) (hlines₂ : Lines us saw₂ in₁)
      (hargs : Reads (.arguments (arg :: done)) in₁ args rest) :
      Reads (.arguments done) input args rest
  | argument {input rest : List Token} {e : Expr} (hkind : front input ≠ .identifier)
      (he : Reads .expression input e rest) : Reads .argument input ⟨none, e⟩ rest
  | keyword {t u : Token} {vs in₁ rest : List Token} {saw : Bool} {e : Expr}
      (ht : t.kind = .identifier) (hu : u.kind = .mark .assign) (hvs : Legible vs)
      (hlines : Lines vs saw in₁) (he : Reads .expression in₁ e rest) :
      Reads .argument (t :: u :: vs) ⟨some t.text, e⟩ rest
  | calledArgument {t : Token} {us mid rest : List Token} {c e : Expr} (ht : t.kind = .identifier)
      (hcall : Reads (.call t) us c mid) (he : Reads (.continued c) mid e rest) :
      Reads .argument (t :: us) ⟨none, e⟩ rest
  | continued {input mid₁ mid₂ rest : List Token} {primary a c e : Expr}
      (hindexes : Reads (.indexes primary) input a mid₁)
      (hoperations : Reads (.operations 1 a) mid₁ c mid₂)
      (hchoice : Reads (.choice c) mid₂ e rest) :
      Reads (.continued primary) input e rest

/-- The parser of a form. -/
def Form.parse (stop : Position) : (f : Form) → (input : List Token) →
    Except ParseError (Parsed f.Result input)
  | expression, input => Parse.expression stop input
  | choice c, input => ternaryRest stop c input
  | operation least, input => binary stop least input
  | operations least left, input => binaryRest stop least left input
  | operand, input => unary stop input
  | indexes target, input => postfixes stop target input
  | primary, input => Parse.primary stop input
  | elements done, input => Parse.elements stop done input
  | call name, input => Parse.call stop name input
  | arguments done, input => Parse.arguments stop done input
  | argument, input => Parse.argument stop input
  | continued p, input => Parse.continued stop p input

/-! ## Steps -/

section

open Running

variable {stop : Position} {input us : List Token}

theorem legible_of_onto {u : Unit} (h : onto us = .ok u) : Legible us := by
  cases us with
  | nil => exact nofun
  | cons t us =>
      rw [onto] at h
      split at h
      · cases h
      · assumption

theorem Legible.onto (h : Legible us) : onto us = .ok () := by
  cases us with
  | nil => rfl
  | cons t us => exact if_neg h

theorem lines_of_skipLines : ∀ {input : List Token} {p : Parsed Bool input},
    skipLines input = .ok p → Lines input p.value p.rest
  | [], p, h => by
    cases h
    exact .none nofun nofun
  | t :: us, p, h => by
    rw [skipLines] at h
    split at h
    · rename_i hkind
      obtain ⟨_, hus, h⟩ := bind_eq_ok h
      obtain ⟨more, hmore, h⟩ := bind_eq_ok h
      cases h
      have hlines := lines_of_skipLines hmore
      change Lines (t :: us) (t.kind == .eol || more.value) more.rest
      rcases hkind with hkind | hkind
      · rw [hkind]
        exact .line hkind (legible_of_onto hus) hlines
      · rw [hkind]
        exact .comment hkind (legible_of_onto hus) hlines
    · rename_i hkind
      rw [not_or] at hkind
      cases h
      exact .none hkind.1 hkind.2

theorem Lines.skipLines {saw : Bool} {rest : List Token} (h : Lines input saw rest) :
    ∃ hs, skipLines input = .ok ⟨saw, rest, hs⟩ := by
  induction h with
  | @none input heol hcomment =>
      cases input with
      | nil => exact ⟨List.suffix_refl _, rfl⟩
      | cons t us => exact ⟨List.suffix_refl _, if_neg (not_or.mpr ⟨heol, hcomment⟩)⟩
  | @line t us rest saw hkind hus _ ih =>
      obtain ⟨hs, heq⟩ := ih
      refine ⟨hs.trans (List.suffix_cons t us), ?_⟩
      rw [Parse.skipLines, if_pos (.inl hkind), hus.onto, heq, hkind]
      rfl
  | @comment t us rest saw hkind hus _ ih =>
      obtain ⟨hs, heq⟩ := ih
      refine ⟨hs.trans (List.suffix_cons t us), ?_⟩
      rw [Parse.skipLines, if_pos (.inr hkind), hus.onto, heq, hkind]
      rfl

theorem Lines.legible {saw : Bool} {rest : List Token} (h : Lines input saw rest)
    (hrest : Legible rest) : Legible input := by
  cases h with
  | none => exact hrest
  | line hkind => rw [Legible, front, hkind]; nofun
  | comment hkind => rw [Legible, front, hkind]; nofun

theorem exists_of_expect {kind : Kind} {p : Parsed Token input}
    (h : expect stop kind input = .ok p) :
    ∃ t us, input = t :: us ∧ p.rest = us ∧ t.kind = kind ∧ Legible us := by
  cases input with
  | nil => cases h
  | cons t us =>
      rw [expect] at h
      split at h
      · obtain ⟨_, hus, h⟩ := bind_eq_ok h
        cases h
        exact ⟨t, us, rfl, rfl, by assumption, legible_of_onto hus⟩
      · cases h

theorem expect_of_kind {t : Token} {kind : Kind} (hkind : t.kind = kind) (hus : Legible us) :
    expect stop kind (t :: us) = .ok ⟨t, us, List.suffix_cons t us⟩ := by
  rw [expect, if_pos hkind, hus.onto]
  rfl

/-! ## What a form starts with -/

/-- The kinds of tokens that an operand may start with. -/
def startsOperand (kind : Kind) : Bool :=
  isLiteral kind || (UnaryOp.ofKind? kind).isSome ||
    (kind == .localVar || kind == .envVar || kind == .identifier || kind == .mark .lparen ||
      kind == .mark .lbracket)

/-- The forms that start with an operand. -/
def Form.hasOperand : Form → Bool
  | expression | operation _ | operand | primary | argument => true
  | _ => false

theorem startsOperand_of_isLiteral {kind : Kind} (h : isLiteral kind = true) :
    startsOperand kind = true := by
  rw [startsOperand, h]
  rfl

theorem startsOperand_of_ofKind? {kind : Kind} {op : UnaryOp}
    (h : UnaryOp.ofKind? kind = some op) : startsOperand kind = true := by
  rw [startsOperand, h, Option.isSome_some, Bool.or_true]
  rfl

theorem Reads.startsOperand {input : List Token} {f : Form} {v : f.Result} {rest : List Token}
    (h : Reads f input v rest) (hf : f.hasOperand = true) :
    Parse.startsOperand (front input) = true := by
  induction h with
  | expression _ _ ih _ => exact ih rfl
  | operation _ _ ih _ => exact ih rfl
  | prefixed hop => exact startsOperand_of_ofKind? hop
  | operand _ _ ih _ => exact ih rfl
  | literal hkind => exact startsOperand_of_isLiteral hkind
  | localVar hkind => rw [front, hkind]; rfl
  | baseVar hkind => rw [front, hkind]; rfl
  | group hkind => rw [front, hkind]; rfl
  | array hkind => rw [front, hkind]; rfl
  | called hkind => rw [front, hkind]; rfl
  | argument _ _ ih => exact ih rfl
  | keyword ht => rw [front, ht]; rfl
  | calledArgument ht => rw [front, ht]; rfl
  | _ => cases hf

/-- An operand does not start with a token of another kind. -/
theorem Reads.front_ne {input : List Token} {f : Form} {v : f.Result} {rest : List Token}
    {kind : Kind} (h : Reads f input v rest) (hf : f.hasOperand = true)
    (hkind : Parse.startsOperand kind = false) : front input ≠ kind := by
  intro heq
  rw [← heq, h.startsOperand hf] at hkind
  cases hkind

/-- A primary expression starts with a token that is no prefix operator. -/
theorem Reads.exists_primary {input : List Token} {e : Expr} {rest : List Token}
    (h : Reads .primary input e rest) :
    ∃ t us, input = t :: us ∧ UnaryOp.ofKind? t.kind = none := by
  cases h with
  | @literal t _ _ _ hkind =>
      refine ⟨t, _, rfl, ?_⟩
      cases hk : t.kind <;> first | rfl | (rw [hk] at hkind; cases hkind)
  | localVar hkind => exact ⟨_, _, rfl, by rw [hkind]; rfl⟩
  | baseVar hkind => exact ⟨_, _, rfl, by rw [hkind]; rfl⟩
  | group hkind => exact ⟨_, _, rfl, by rw [hkind]; rfl⟩
  | array hkind => exact ⟨_, _, rfl, by rw [hkind]; rfl⟩
  | called hkind => exact ⟨_, _, rfl, by rw [hkind]; rfl⟩

/-! ## A parser reads what the rules derive -/

theorem reads_literal {t : Token} {e : Expr} (h : literal t = .ok e) :
    ∃ value unit, Literal.decode t.kind t.text = .ok (value, unit) ∧ e = .literal t value unit := by
  rw [literal] at h
  split at h
  · rename_i value unit hvalue
    cases h
    exact ⟨value, unit, hvalue, rfl⟩
  · cases h

mutual

theorem reads_expression {input : List Token} {p : Parsed Expr input}
    (h : expression stop input = .ok p) : Reads .expression input p.value p.rest := by
  rw [expression] at h
  obtain ⟨condition, hcondition, h⟩ := bind_eq_ok h
  have := condition.length_le
  obtain ⟨e, he, h⟩ := bind_eq_ok h
  cases h
  exact .expression (reads_binary hcondition) (reads_ternaryRest he)
termination_by input.length * 8 + 4

theorem reads_ternaryRest {c : Expr} : ∀ {input : List Token} {p : Parsed Expr input},
    ternaryRest stop c input = .ok p → Reads (.choice c) input p.value p.rest
  | [], p, h => by
    rw [ternaryRest] at h
    cases h
    exact .noChoice (by decide)
  | t :: us, p, h => by
    rw [ternaryRest] at h
    split at h
    · rename_i hkind
      obtain ⟨_, hus, h⟩ := bind_eq_ok h
      obtain ⟨lines, hlines, h⟩ := bind_eq_ok h
      have := lines.length_le
      obtain ⟨yes, hyes, h⟩ := bind_eq_ok h
      have := yes.length_le
      obtain ⟨lines', hlines', h⟩ := bind_eq_ok h
      have := lines'.length_le
      obtain ⟨colon, hcolon, h⟩ := bind_eq_ok h
      have := colon.length_le
      obtain ⟨lines'', hlines'', h⟩ := bind_eq_ok h
      have := lines''.length_le
      obtain ⟨no, hno, h⟩ := bind_eq_ok h
      cases h
      obtain ⟨t', vs, hrest, hcolonRest, hkind', hvs⟩ := exists_of_expect hcolon
      have hlines₃ : Lines vs lines''.value lines''.rest := by
        rw [← hcolonRest]
        exact lines_of_skipLines hlines''
      exact .choice hkind (legible_of_onto hus) (lines_of_skipLines hlines) (reads_expression hyes)
        (hrest ▸ lines_of_skipLines hlines') hkind' hvs hlines₃ (reads_expression hno)
    · rename_i hkind
      cases h
      exact .noChoice hkind
termination_by input => input.length * 8

theorem reads_binary {least : Nat} {input : List Token} {p : Parsed Expr input}
    (h : binary stop least input = .ok p) : Reads (.operation least) input p.value p.rest := by
  rw [binary] at h
  obtain ⟨left, hleft, h⟩ := bind_eq_ok h
  have := left.length_le
  obtain ⟨e, he, h⟩ := bind_eq_ok h
  cases h
  exact .operation (reads_unary hleft) (reads_binaryRest he)
termination_by input.length * 8 + 3

theorem reads_binaryRest {least : Nat} {left : Expr} : ∀ {input : List Token}
    {p : Parsed Expr input}, binaryRest stop least left input = .ok p →
      Reads (.operations least left) input p.value p.rest
  | [], p, h => by
    rw [binaryRest] at h
    cases h
    exact .noOperation fun op hop => by cases hop
  | t :: us, p, h => by
    rw [binaryRest] at h
    split at h
    · rename_i hop
      cases h
      refine .noOperation fun op hop' => ?_
      cases hop.symm.trans hop'
    · rename_i op hop
      split at h
      · rename_i hpower
        cases h
        refine .noOperation fun op' hop' => ?_
        cases hop.symm.trans hop'
        exact hpower
      · rename_i hpower
        obtain ⟨_, hus, h⟩ := bind_eq_ok h
        obtain ⟨lines, hlines, h⟩ := bind_eq_ok h
        have := lines.length_le
        obtain ⟨right, hright, h⟩ := bind_eq_ok h
        have := right.length_le
        obtain ⟨e, he, h⟩ := bind_eq_ok h
        cases h
        exact .operations hop (Nat.le_of_not_lt hpower) (legible_of_onto hus)
          (lines_of_skipLines hlines) (reads_binary hright) (reads_binaryRest he)
termination_by input => input.length * 8

theorem reads_unary : ∀ {input : List Token} {p : Parsed Expr input},
    unary stop input = .ok p → Reads .operand input p.value p.rest
  | [], p, h => by
    rw [unary] at h
    cases h
  | t :: us, p, h => by
    rw [unary] at h
    split at h
    · rename_i op hop
      obtain ⟨_, hus, h⟩ := bind_eq_ok h
      obtain ⟨operand, hoperand, h⟩ := bind_eq_ok h
      cases h
      exact .prefixed hop (legible_of_onto hus) (reads_binary hoperand)
    · obtain ⟨target, htarget, h⟩ := bind_eq_ok h
      have : target.rest.length ≤ us.length + 1 := target.length_le
      obtain ⟨e, he, h⟩ := bind_eq_ok h
      cases h
      exact .operand (reads_primary htarget) (reads_postfixes he)
termination_by input => input.length * 8 + 2

theorem reads_postfixes {target : Expr} : ∀ {input : List Token} {p : Parsed Expr input},
    postfixes stop target input = .ok p → Reads (.indexes target) input p.value p.rest
  | [], p, h => by
    rw [postfixes] at h
    cases h
    exact .noIndex (by decide)
  | t :: us, p, h => by
    rw [postfixes] at h
    split at h
    · rename_i hkind
      obtain ⟨_, hus, h⟩ := bind_eq_ok h
      obtain ⟨lines, hlines, h⟩ := bind_eq_ok h
      have := lines.length_le
      obtain ⟨i, hi, h⟩ := bind_eq_ok h
      have := i.length_le
      obtain ⟨lines', hlines', h⟩ := bind_eq_ok h
      have := lines'.length_le
      obtain ⟨bracket, hbracket, h⟩ := bind_eq_ok h
      have := bracket.length_le
      obtain ⟨e, he, h⟩ := bind_eq_ok h
      cases h
      obtain ⟨t', vs, hrest, hbracketRest, hkind', hvs⟩ := exists_of_expect hbracket
      exact .index hkind (legible_of_onto hus) (lines_of_skipLines hlines) (reads_expression hi)
        (hrest ▸ lines_of_skipLines hlines') hkind' hvs (hbracketRest ▸ reads_postfixes he)
    · rename_i hkind
      cases h
      exact .noIndex hkind
termination_by input => input.length * 8

theorem reads_primary : ∀ {input : List Token} {p : Parsed Expr input},
    primary stop input = .ok p → Reads .primary input p.value p.rest
  | [], p, h => by
    rw [primary] at h
    cases h
  | t :: us, p, h => by
    rw [primary] at h
    split at h
    · rename_i hkind
      obtain ⟨_, hus, h⟩ := bind_eq_ok h
      obtain ⟨e, he, h⟩ := bind_eq_ok h
      cases h
      obtain ⟨value, unit, hvalue, rfl⟩ := reads_literal he
      exact .literal hkind (legible_of_onto hus) hvalue
    · split at h
      · rename_i hkind
        obtain ⟨_, hus, h⟩ := bind_eq_ok h
        cases h
        exact .localVar hkind (legible_of_onto hus)
      · split at h
        · rename_i hkind
          obtain ⟨_, hus, h⟩ := bind_eq_ok h
          cases h
          exact .baseVar hkind (legible_of_onto hus)
        · split at h
          · rename_i hkind
            obtain ⟨_, hus, h⟩ := bind_eq_ok h
            obtain ⟨lines, hlines, h⟩ := bind_eq_ok h
            have := lines.length_le
            obtain ⟨e, he, h⟩ := bind_eq_ok h
            obtain ⟨lines', hlines', h⟩ := bind_eq_ok h
            obtain ⟨paren, hparen, h⟩ := bind_eq_ok h
            cases h
            obtain ⟨t', vs, hrest, hparenRest, hkind', hvs⟩ := exists_of_expect hparen
            have hread : Reads .primary (t :: us) e.value paren.rest :=
              hparenRest ▸ .group hkind (legible_of_onto hus) (lines_of_skipLines hlines)
                (reads_expression he) (hrest ▸ lines_of_skipLines hlines') hkind' hvs
            exact hread
          · split at h
            · rename_i hkind
              obtain ⟨_, hus, h⟩ := bind_eq_ok h
              obtain ⟨lines, hlines, h⟩ := bind_eq_ok h
              have := lines.length_le
              obtain ⟨items, hitems, h⟩ := bind_eq_ok h
              cases h
              exact .array hkind (legible_of_onto hus) (lines_of_skipLines hlines)
                (reads_elements hitems)
            · split at h
              · rename_i hkind
                obtain ⟨_, -, h⟩ := bind_eq_ok h
                split at h
                · obtain ⟨e, he, h⟩ := bind_eq_ok h
                  cases h
                  exact .called hkind (reads_call he)
                · cases h
              · cases h
termination_by input => input.length * 8 + 1

theorem reads_elements {done : List Expr} {input : List Token} {p : Parsed (List Expr) input}
    (h : elements stop done input = .ok p) : Reads (.elements done) input p.value p.rest := by
  rw [elements] at h
  split at h
  · obtain ⟨bracket, hbracket, h⟩ := bind_eq_ok h
    cases h
    obtain ⟨t, us, rfl, hrest, hkind, hus⟩ := exists_of_expect hbracket
    have hread : Reads (.elements done) (t :: us) done.reverse bracket.rest := by
      rw [hrest]
      exact .noElement hkind hus
    exact hread
  · obtain ⟨e, he, h⟩ := bind_eq_ok h
    have := e.length_le
    obtain ⟨lines, hlines, h⟩ := bind_eq_ok h
    have := lines.length_le
    split at h
    · rename_i saw c us left
      have : us.length < e.rest.length := left.length_le
      have hlines := lines_of_skipLines hlines
      split at h
      · rename_i hcomma
        obtain ⟨_, hus, h⟩ := bind_eq_ok h
        obtain ⟨lines', hlines', h⟩ := bind_eq_ok h
        have := lines'.length_le
        dsimp only at h
        split at h
        · cases h
        · rename_i hlast
          obtain ⟨all, hall, h⟩ := bind_eq_ok h
          cases h
          refine .element (reads_expression he) hlines hcomma (legible_of_onto hus)
            (lines_of_skipLines hlines') (fun hfront => ?_) (reads_elements hall)
          by_contra hsaw
          exact hlast ⟨hfront, Bool.eq_false_iff.mpr hsaw⟩
      · split at h
        · rename_i hbracket
          obtain ⟨_, hus, h⟩ := bind_eq_ok h
          cases h
          exact .lastElement (reads_expression he) hlines hbracket (legible_of_onto hus)
        · cases h
    · cases h
termination_by input.length * 8 + 5

theorem reads_call {name : Token} : ∀ {input : List Token} {p : Parsed Expr input},
    call stop name input = .ok p → Reads (.call name) input p.value p.rest
  | [], p, h => by
    rw [call] at h
    cases h
  | t :: us, p, h => by
    rw [call] at h
    split at h
    · rename_i hkind
      obtain ⟨_, hus, h⟩ := bind_eq_ok h
      obtain ⟨lines, hlines, h⟩ := bind_eq_ok h
      have := lines.length_le
      obtain ⟨args, hargs, h⟩ := bind_eq_ok h
      cases h
      exact .call hkind (legible_of_onto hus) (lines_of_skipLines hlines) (reads_arguments hargs)
    · cases h
termination_by input => input.length * 8

theorem reads_arguments {done : List (Argument Expr)} {input : List Token}
    {p : Parsed (List (Argument Expr)) input} (h : arguments stop done input = .ok p) :
    Reads (.arguments done) input p.value p.rest := by
  rw [arguments] at h
  split at h
  · obtain ⟨paren, hparen, h⟩ := bind_eq_ok h
    cases h
    obtain ⟨t, us, rfl, hrest, hkind, hus⟩ := exists_of_expect hparen
    have hread : Reads (.arguments done) (t :: us) done.reverse paren.rest := by
      rw [hrest]
      exact .noArgument hkind hus
    exact hread
  · obtain ⟨arg, harg, h⟩ := bind_eq_ok h
    have := arg.length_le
    dsimp only at h
    split at h
    · cases h
    · rename_i hnamed
      have hnamed : arg.value.name.isNone → done.any (·.name.isSome) = false := fun hnone => by
        by_contra hsome
        exact hnamed ⟨hnone, Bool.eq_true_of_not_eq_false hsome⟩
      obtain ⟨lines, hlines, h⟩ := bind_eq_ok h
      split at h
      · rename_i saw c us left
        have : us.length < arg.rest.length := left.length_le
        have hlines := lines_of_skipLines hlines
        split at h
        · rename_i hcomma
          obtain ⟨_, hus, h⟩ := bind_eq_ok h
          obtain ⟨lines', hlines', h⟩ := bind_eq_ok h
          have := lines'.length_le
          obtain ⟨all, hall, h⟩ := bind_eq_ok h
          cases h
          exact .arguments (reads_argument harg) hnamed hlines hcomma (legible_of_onto hus)
            (lines_of_skipLines hlines') (reads_arguments hall)
        · split at h
          · rename_i hparen
            obtain ⟨_, hus, h⟩ := bind_eq_ok h
            cases h
            exact .lastArgument (reads_argument harg) hnamed hlines hparen (legible_of_onto hus)
          · cases h
      · cases h
termination_by input.length * 8 + 6

theorem reads_argument : ∀ {input : List Token} {p : Parsed (Argument Expr) input},
    argument stop input = .ok p → Reads .argument input p.value p.rest
  | [], p, h => by
    rw [argument] at h
    cases h
  | [t], p, h => by
    rw [argument] at h
    split at h
    · cases h
    · rename_i hkind
      obtain ⟨e, he, h⟩ := bind_eq_ok h
      cases h
      exact .argument hkind (reads_expression he)
  | t :: u :: vs, p, h => by
    rw [argument] at h
    split at h
    · rename_i hkind
      obtain ⟨_, -, h⟩ := bind_eq_ok h
      split at h
      · rename_i hassign
        obtain ⟨_, hvs, h⟩ := bind_eq_ok h
        obtain ⟨lines, hlines, h⟩ := bind_eq_ok h
        have := lines.length_le
        obtain ⟨e, he, h⟩ := bind_eq_ok h
        cases h
        exact .keyword hkind hassign (legible_of_onto hvs) (lines_of_skipLines hlines)
          (reads_expression he)
      · split at h
        · obtain ⟨called, hcalled, h⟩ := bind_eq_ok h
          have : called.rest.length ≤ vs.length + 1 := called.length_le
          obtain ⟨e, he, h⟩ := bind_eq_ok h
          cases h
          exact .calledArgument hkind (reads_call hcalled) (reads_continued he)
        · cases h
    · rename_i hkind
      obtain ⟨e, he, h⟩ := bind_eq_ok h
      cases h
      exact .argument hkind (reads_expression he)
termination_by input => input.length * 8 + 5

theorem reads_continued {target : Expr} {input : List Token} {p : Parsed Expr input}
    (h : continued stop target input = .ok p) :
    Reads (.continued target) input p.value p.rest := by
  rw [continued] at h
  obtain ⟨operand, hoperand, h⟩ := bind_eq_ok h
  have := operand.length_le
  obtain ⟨condition, hcondition, h⟩ := bind_eq_ok h
  have := condition.length_le
  obtain ⟨e, he, h⟩ := bind_eq_ok h
  cases h
  exact .continued (reads_postfixes hoperand) (reads_binaryRest hcondition) (reads_ternaryRest he)
termination_by input.length * 8 + 1

end

theorem Reads.front_call {name : Token} {e : Expr} {rest : List Token}
    (h : Reads (.call name) input e rest) : front input = .mark .lparen := by
  cases h with
  | call hkind => exact hkind

/-- **What the rules derive is what the parser reads**, at every end of the text. -/
theorem Reads.parse {f : Form} {v : f.Result} {rest : List Token} (h : Reads f input v rest)
    (stop : Position) : ∃ hs, f.parse stop input = .ok ⟨v, rest, hs⟩ := by
  -- each case runs the parser with what the parts of the rule read
  induction h with simp only [Form.parse] at *
  | expression _ _ ih₁ ih₂ =>
      obtain ⟨hs₁, h₁⟩ := ih₁
      obtain ⟨hs₂, h₂⟩ := ih₂
      refine ⟨hs₂.trans hs₁, ?_⟩
      simp only [Parse.expression, ok_bind, h₁, h₂]
      rfl
  | @noChoice input c hkind =>
      refine ⟨List.suffix_refl _, ?_⟩
      cases input with
      | nil => simp only [ternaryRest]; rfl
      | cons t us => simp only [ternaryRest, if_neg (show t.kind ≠ _ from hkind)]; rfl
  | choice hkind hus hlines₁ _ hlines₂ hcolon hvs hlines₃ _ ih₁ ih₂ =>
      obtain ⟨hl₁, hlines₁⟩ := hlines₁.skipLines
      obtain ⟨hs₁, h₁⟩ := ih₁
      obtain ⟨hl₂, hlines₂⟩ := hlines₂.skipLines
      obtain ⟨hl₃, hlines₃⟩ := hlines₃.skipLines
      obtain ⟨hs₂, h₂⟩ := ih₂
      refine ⟨hs₂.trans (hl₃.trans ((List.suffix_cons _ _).trans
        (hl₂.trans (hs₁.trans (hl₁.trans (List.suffix_cons _ _)))))), ?_⟩
      simp only [ternaryRest, if_pos hkind, hus.onto, ok_bind, hlines₁, h₁, hlines₂,
        expect_of_kind hcolon hvs, hlines₃, h₂]
      rfl
  | operation _ _ ih₁ ih₂ =>
      obtain ⟨hs₁, h₁⟩ := ih₁
      obtain ⟨hs₂, h₂⟩ := ih₂
      refine ⟨hs₂.trans hs₁, ?_⟩
      simp only [binary, ok_bind, h₁, h₂]
      rfl
  | @noOperation least input left hpower =>
      refine ⟨List.suffix_refl _, ?_⟩
      cases input with
      | nil => simp only [binaryRest]; rfl
      | cons t us =>
          simp only [binaryRest]
          cases hop : BinaryOp.ofKind? t.kind with
          | none => rfl
          | some op => simp only [if_pos (hpower op hop)]; rfl
  | operations hop hpower hus hlines _ _ ih₁ ih₂ =>
      obtain ⟨hl, hlines⟩ := hlines.skipLines
      obtain ⟨hs₁, h₁⟩ := ih₁
      obtain ⟨hs₂, h₂⟩ := ih₂
      refine ⟨hs₂.trans (hs₁.trans (hl.trans (List.suffix_cons _ _))), ?_⟩
      simp only [binaryRest, hop, if_neg (Nat.not_lt.mpr hpower), hus.onto, ok_bind, hlines, h₁, h₂]
      rfl
  | prefixed hop hus _ ih =>
      obtain ⟨hs, h⟩ := ih
      refine ⟨hs.trans (List.suffix_cons _ _), ?_⟩
      simp only [unary, hop, hus.onto, ok_bind, h]
      rfl
  | operand hprimary _ ih₁ ih₂ =>
      obtain ⟨hs₁, h₁⟩ := ih₁
      obtain ⟨hs₂, h₂⟩ := ih₂
      obtain ⟨t, us, rfl, hop⟩ := hprimary.exists_primary
      refine ⟨hs₂.trans hs₁, ?_⟩
      simp only [unary, hop, ok_bind, h₁, h₂]
      rfl
  | @noIndex input target hkind =>
      refine ⟨List.suffix_refl _, ?_⟩
      cases input with
      | nil => simp only [postfixes]; rfl
      | cons t us => simp only [postfixes, if_neg (show t.kind ≠ _ from hkind)]; rfl
  | index hkind hus hlines₁ _ hlines₂ hbracket hvs _ ih₁ ih₂ =>
      obtain ⟨hl₁, hlines₁⟩ := hlines₁.skipLines
      obtain ⟨hs₁, h₁⟩ := ih₁
      obtain ⟨hl₂, hlines₂⟩ := hlines₂.skipLines
      obtain ⟨hs₂, h₂⟩ := ih₂
      refine ⟨hs₂.trans ((List.suffix_cons _ _).trans
        (hl₂.trans (hs₁.trans (hl₁.trans (List.suffix_cons _ _))))), ?_⟩
      simp only [postfixes, if_pos hkind, hus.onto, ok_bind, hlines₁, h₁, hlines₂,
        expect_of_kind hbracket hvs, h₂]
      rfl
  | literal hkind hus hvalue =>
      refine ⟨List.suffix_cons _ _, ?_⟩
      simp only [Parse.primary, if_pos hkind, hus.onto, ok_bind, Parse.literal, hvalue]
      rfl
  | localVar hkind hus =>
      refine ⟨List.suffix_cons _ _, ?_⟩
      simp only [Parse.primary, hkind, isLiteral, hus.onto, ok_bind]
      rfl
  | baseVar hkind hus =>
      refine ⟨List.suffix_cons _ _, ?_⟩
      simp only [Parse.primary, hkind, isLiteral, hus.onto, ok_bind]
      rfl
  | group hkind hus hlines₁ _ hlines₂ hparen hrest ih =>
      obtain ⟨hl₁, hlines₁⟩ := hlines₁.skipLines
      obtain ⟨hs, h⟩ := ih
      obtain ⟨hl₂, hlines₂⟩ := hlines₂.skipLines
      refine ⟨(List.suffix_cons _ _).trans
        (hl₂.trans (hs.trans (hl₁.trans (List.suffix_cons _ _)))), ?_⟩
      simp only [Parse.primary, hkind, isLiteral, hus.onto, ok_bind, hlines₁, h, hlines₂,
        expect_of_kind hparen hrest]
      rfl
  | array hkind hus hlines _ ih =>
      obtain ⟨hl, hlines⟩ := hlines.skipLines
      obtain ⟨hs, h⟩ := ih
      refine ⟨hs.trans (hl.trans (List.suffix_cons _ _)), ?_⟩
      simp only [Parse.primary, hkind, isLiteral, hus.onto, ok_bind, hlines, h]
      rfl
  | @called t us rest e hkind hcall ih =>
      obtain ⟨hs, h⟩ := ih
      have hus : Legible us := by rw [Legible, hcall.front_call]; nofun
      refine ⟨hs.trans (List.suffix_cons _ _), ?_⟩
      simp only [Parse.primary, hkind, isLiteral, hus.onto, ok_bind, if_pos hcall.front_call, h]
      rfl
  | @noElement t us done hkind hus =>
      refine ⟨List.suffix_cons _ _, ?_⟩
      rw [Parse.elements, if_pos (show front (t :: us) = _ from hkind), expect_of_kind hkind hus]
      rfl
  | lastElement he hlines hbracket hrest ih =>
      obtain ⟨hs, h⟩ := ih
      obtain ⟨hl, hlines⟩ := hlines.skipLines
      have hfront : front _ ≠ .mark .rbracket := he.front_ne rfl rfl
      refine ⟨(List.suffix_cons _ _).trans (hl.trans hs), ?_⟩
      rw [Parse.elements, if_neg hfront]
      simp only [ok_bind, h, hlines, hbracket, hrest.onto]
      rfl
  | element he hlines₁ hcomma hus hlines₂ hlast _ ih₁ ih₂ =>
      obtain ⟨hs₁, h₁⟩ := ih₁
      obtain ⟨hl₁, hlines₁⟩ := hlines₁.skipLines
      obtain ⟨hl₂, hlines₂⟩ := hlines₂.skipLines
      obtain ⟨hs₂, h₂⟩ := ih₂
      have hfront : front _ ≠ .mark .rbracket := he.front_ne rfl rfl
      refine ⟨hs₂.trans (hl₂.trans ((List.suffix_cons _ _).trans (hl₁.trans hs₁))), ?_⟩
      rw [Parse.elements, if_neg hfront]
      simp only [ok_bind, h₁, hlines₁, if_pos hcomma, hus.onto, hlines₂]
      rw [if_neg fun hclose => absurd (hlast hclose.1) (Bool.eq_false_iff.mp hclose.2)]
      simp only [h₂]
      rfl
  | call hkind hus hlines _ ih =>
      obtain ⟨hl, hlines⟩ := hlines.skipLines
      obtain ⟨hs, h⟩ := ih
      refine ⟨hs.trans (hl.trans (List.suffix_cons _ _)), ?_⟩
      simp only [Parse.call, if_pos hkind, hus.onto, ok_bind, hlines, h]
      rfl
  | @noArgument t us done hkind hus =>
      refine ⟨List.suffix_cons _ _, ?_⟩
      rw [Parse.arguments, if_pos (show front (t :: us) = _ from hkind), expect_of_kind hkind hus]
      rfl
  | lastArgument harg hnamed hlines hparen hrest ih =>
      obtain ⟨hs, h⟩ := ih
      obtain ⟨hl, hlines⟩ := hlines.skipLines
      have hfront : front _ ≠ .mark .rparen := harg.front_ne rfl rfl
      refine ⟨(List.suffix_cons _ _).trans (hl.trans hs), ?_⟩
      rw [Parse.arguments, if_neg hfront]
      simp only [ok_bind, h]
      rw [if_neg fun hclose => Bool.eq_false_iff.mp (hnamed hclose.1) hclose.2]
      simp only [ok_bind, hlines, hparen, hrest.onto]
      rfl
  | arguments harg hnamed hlines₁ hcomma hus hlines₂ _ ih₁ ih₂ =>
      obtain ⟨hs₁, h₁⟩ := ih₁
      obtain ⟨hl₁, hlines₁⟩ := hlines₁.skipLines
      obtain ⟨hl₂, hlines₂⟩ := hlines₂.skipLines
      obtain ⟨hs₂, h₂⟩ := ih₂
      have hfront : front _ ≠ .mark .rparen := harg.front_ne rfl rfl
      refine ⟨hs₂.trans (hl₂.trans ((List.suffix_cons _ _).trans (hl₁.trans hs₁))), ?_⟩
      rw [Parse.arguments, if_neg hfront]
      simp only [ok_bind, h₁]
      rw [if_neg fun hclose => Bool.eq_false_iff.mp (hnamed hclose.1) hclose.2]
      simp only [ok_bind, hlines₁, if_pos hcomma, hus.onto, hlines₂, h₂]
      rfl
  | @argument input rest e hkind _ ih =>
      obtain ⟨hs, h⟩ := ih
      refine ⟨hs, ?_⟩
      match input with
      | [] => rw [Parse.expression, binary, unary] at h; cases h
      | [t] => simp only [Parse.argument, if_neg (show t.kind ≠ _ from hkind), ok_bind, h]; rfl
      | t :: u :: vs =>
          simp only [Parse.argument, if_neg (show t.kind ≠ _ from hkind), ok_bind, h]
          rfl
  | @keyword t u vs in₁ rest saw e ht hu hvs hlines _ ih =>
      obtain ⟨hl, hlines⟩ := hlines.skipLines
      obtain ⟨hs, h⟩ := ih
      have hus : Legible (u :: vs) := by rw [Legible, front, hu]; nofun
      refine ⟨hs.trans (hl.trans ((List.suffix_cons _ _).trans (List.suffix_cons _ _))), ?_⟩
      simp only [Parse.argument, if_pos ht, hus.onto, if_pos hu, hvs.onto, ok_bind, hlines, h]
      rfl
  | @calledArgument t us mid rest c e ht hcall _ ih₁ ih₂ =>
      obtain ⟨hs₁, h₁⟩ := ih₁
      obtain ⟨hs₂, h₂⟩ := ih₂
      have hfront := hcall.front_call
      refine ⟨hs₂.trans (hs₁.trans (List.suffix_cons _ _)), ?_⟩
      match us with
      | [] => cases hfront
      | u :: vs =>
          have hu : u.kind = .mark .lparen := hfront
          have hus : Legible (u :: vs) := by rw [Legible, hfront]; nofun
          have hassign : u.kind ≠ .mark .assign := by rw [hu]; decide
          simp only [Parse.argument, if_pos ht, hus.onto, if_neg hassign, if_pos hu, ok_bind, h₁,
            h₂]
          rfl
  | continued _ _ _ ih₁ ih₂ ih₃ =>
      obtain ⟨hs₁, h₁⟩ := ih₁
      obtain ⟨hs₂, h₂⟩ := ih₂
      obtain ⟨hs₃, h₃⟩ := ih₃
      refine ⟨hs₃.trans (hs₂.trans hs₁), ?_⟩
      simp only [Parse.continued, ok_bind, h₁, h₂, h₃]
      rfl

/-! ## What is left -/

variable {rest : List Token}

theorem Lines.isSuffix {saw : Bool} (h : Lines input saw rest) : rest <:+ input := by
  obtain ⟨hs, -⟩ := h.skipLines
  exact hs

theorem Reads.isSuffix {f : Form} {v : f.Result} (h : Reads f input v rest) : rest <:+ input := by
  obtain ⟨hs, -⟩ := h.parse .start
  exact hs

/-- A malformed token among some tokens is behind every one that is none. -/
theorem mem_behind {t u : Token} {us : List Token} (ht : t ∈ u :: us) (hinvalid : t.kind = .invalid)
    (hu : u.kind ≠ .invalid) : t ∈ us := by
  rcases List.mem_cons.mp ht with rfl | ht
  · exact absurd hinvalid hu
  · exact ht

theorem Lines.mem_of_invalid {saw : Bool} (h : Lines input saw rest) {t : Token} (ht : t ∈ input)
    (hinvalid : t.kind = .invalid) : t ∈ rest := by
  induction h with
  | none => exact ht
  | line hkind _ _ ih | comment hkind _ _ ih =>
      exact ih (mem_behind ht hinvalid (by rw [hkind]; decide))

/-- A parser goes past no malformed token. -/
theorem Reads.mem_of_invalid {f : Form} {v : f.Result} (h : Reads f input v rest) {t : Token}
    (ht : t ∈ input) (hinvalid : t.kind = .invalid) : t ∈ rest := by
  have of_kind {u : Token} {us : List Token} {kind : Kind} (ht : t ∈ u :: us) (hu : u.kind = kind)
      (hkind : kind ≠ .invalid) : t ∈ us :=
    mem_behind ht hinvalid (hu ▸ hkind)
  induction h with
  | expression _ _ ih₁ ih₂ => exact ih₂ (ih₁ ht)
  | noChoice => exact ht
  | choice hkind _ hlines₁ _ hlines₂ hcolon _ hlines₃ _ ih₁ ih₂ =>
      have hmid := ih₁ (hlines₁.mem_of_invalid (of_kind ht hkind nofun) hinvalid)
      have hvs := of_kind (hlines₂.mem_of_invalid hmid hinvalid) hcolon nofun
      exact ih₂ (hlines₃.mem_of_invalid hvs hinvalid)
  | operation _ _ ih₁ ih₂ => exact ih₂ (ih₁ ht)
  | noOperation => exact ht
  | operations hop _ _ hlines _ _ ih₁ ih₂ =>
      have hus := mem_behind ht hinvalid fun hkind => by rw [hkind] at hop; cases hop
      exact ih₂ (ih₁ (hlines.mem_of_invalid hus hinvalid))
  | prefixed hop _ _ ih =>
      exact ih (mem_behind ht hinvalid fun hkind => by rw [hkind] at hop; cases hop)
  | operand _ _ ih₁ ih₂ => exact ih₂ (ih₁ ht)
  | noIndex => exact ht
  | index hkind _ hlines₁ _ hlines₂ hbracket _ _ ih₁ ih₂ =>
      have hmid := ih₁ (hlines₁.mem_of_invalid (of_kind ht hkind nofun) hinvalid)
      exact ih₂ (of_kind (hlines₂.mem_of_invalid hmid hinvalid) hbracket nofun)
  | literal hkind =>
      exact mem_behind ht hinvalid fun hinvalid => by rw [hinvalid] at hkind; cases hkind
  | localVar hkind | baseVar hkind => exact of_kind ht hkind nofun
  | group hkind _ hlines₁ _ hlines₂ hparen _ ih =>
      have hmid := ih (hlines₁.mem_of_invalid (of_kind ht hkind nofun) hinvalid)
      exact of_kind (hlines₂.mem_of_invalid hmid hinvalid) hparen nofun
  | array hkind _ hlines _ ih => exact ih (hlines.mem_of_invalid (of_kind ht hkind nofun) hinvalid)
  | called hkind _ ih => exact ih (of_kind ht hkind nofun)
  | noElement hkind => exact of_kind ht hkind nofun
  | lastElement _ hlines hbracket _ ih =>
      exact of_kind (hlines.mem_of_invalid (ih ht) hinvalid) hbracket nofun
  | element _ hlines₁ hcomma _ hlines₂ _ _ ih₁ ih₂ =>
      have hus := of_kind (hlines₁.mem_of_invalid (ih₁ ht) hinvalid) hcomma nofun
      exact ih₂ (hlines₂.mem_of_invalid hus hinvalid)
  | call hkind _ hlines _ ih => exact ih (hlines.mem_of_invalid (of_kind ht hkind nofun) hinvalid)
  | noArgument hkind => exact of_kind ht hkind nofun
  | lastArgument _ _ hlines hparen _ ih =>
      exact of_kind (hlines.mem_of_invalid (ih ht) hinvalid) hparen nofun
  | arguments _ _ hlines₁ hcomma _ hlines₂ _ ih₁ ih₂ =>
      have hus := of_kind (hlines₁.mem_of_invalid (ih₁ ht) hinvalid) hcomma nofun
      exact ih₂ (hlines₂.mem_of_invalid hus hinvalid)
  | argument _ _ ih => exact ih ht
  | keyword ht' hu _ hlines _ ih =>
      have hvs := of_kind (of_kind ht ht' nofun) hu nofun
      exact ih (hlines.mem_of_invalid hvs hinvalid)
  | calledArgument ht' _ _ ih₁ ih₂ => exact ih₂ (ih₁ (of_kind ht ht' nofun))
  | continued _ _ _ ih₁ ih₂ ih₃ => exact ih₃ (ih₂ (ih₁ ht))

end

end ConfigLang.Parse
