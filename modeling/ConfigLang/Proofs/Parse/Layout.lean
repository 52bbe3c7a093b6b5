import Mathlib
import ConfigLang.Parse.Document
import ConfigLang.Proofs.Parse.Grammar

/-!
# The grammar of documents

`Parse.Builds` has one rule for each thing that a parser of documents does, as
`Parse.Reads` has for expressions.  A parser builds what the rules derive, and nothing
else: `builds_body` and the theorems behind it say the one, `Builds.parse` the other.

A body is built field by field into the object that is there already, so the rules for
bodies go from the first item to the last, and each hands its object on to the next.

## Strategy

* **The ends of fields.**  A field ends with its line, with the brace that closes its
  block, or with the text, and a comment may stand before that.  The two parsers that see
  to it are relations of their own (`Trailing`, `EndsItem`), each with both directions.
* **Soundness.**  `builds_body`, `builds_field`, `builds_block` and the theorems for
  directives follow the mutual recursion of the parsers, and use what is known of
  expressions where these call for one.
* **Completeness.**  `Builds.parse` is by induction on the derivation.  A rule must not
  apply where a parser would have taken another branch, so it asks for what the parser
  looks at: the kind of the next token, and of the one behind a name.
* **Whole documents.**  What a part leaves is a suffix of its tokens (`Builds.isSuffix`)
  and holds all malformed ones (`Builds.mem_of_invalid`).  A body without braces leaves
  nothing (`Builds.rest_eq_nil`), hence a document is such a body, of all the tokens
  (`parseDocument_iff`).  Where its root stands changes its position only
  (`Builds.elsewhere`).
-/

namespace ConfigLang.Parse

/-- The comment behind a field, if there is one. -/
inductive Trailing : List Token → Option String → List Token → Prop
  | none {input : List Token} (h : front input ≠ .comment) : Trailing input none input
  | some {t : Token} {us : List Token} (hkind : t.kind = .comment) (hus : Legible us) :
      Trailing (t :: us) (some t.text) us

/-- The end of an item: that of its line, a closing brace or the end of the text. -/
inductive EndsItem : List Token → List Token → Prop
  | line {t : Token} {us : List Token} (hkind : t.kind = .eol) (hus : Legible us) :
      EndsItem (t :: us) us
  | brace {t : Token} {us : List Token} (hkind : t.kind = .mark .rbrace) :
      EndsItem (t :: us) (t :: us)
  | finish : EndsItem [] []

/-- What a parser of documents may be about to read, with what was read before it. -/
inductive Part where
  /-- The items of an object. -/
  | body (inBraces : Bool) (object : Object) (pending : List String)
  /-- A field behind its name. -/
  | field (name : Token) (leading : List String)
  /-- An object in braces. -/
  | block (name : String) (label : Option String) (position : Position) (leading : List String)
  /-- The arguments of a directive behind its name. -/
  | directive (name : Token) (offset : Nat)
  | directiveArgs (done : List (Argument Payload))
  | directiveArg
  | payload

/-- What is read. -/
@[reducible] def Part.Result : Part → Type
  | body .. => Object
  | field .. | block .. => Node
  | directive .. => Directive
  | directiveArgs _ => List (Argument Payload)
  | directiveArg => Argument Payload
  | payload => Payload

/-- `Builds p input v rest` says that `v` is read as the part `p` off the front of `input`, and that
`rest` is left. -/
inductive Builds : (p : Part) → List Token → p.Result → List Token → Prop
  | finish {o : Object} {pending : List String} :
      Builds (.body false o pending) [] { o with footer := o.footer ++ pending } []
  | close {o : Object} {pending : List String} {t : Token} {us : List Token}
      (hkind : t.kind = .mark .rbrace) :
      Builds (.body true o pending) (t :: us) { o with footer := o.footer ++ pending } (t :: us)
  | line {inBraces : Bool} {o v : Object} {pending : List String} {t : Token}
      {us rest : List Token} (hkind : t.kind = .eol) (hus : Legible us)
      (hbody : Builds (.body inBraces o pending) us v rest) :
      Builds (.body inBraces o pending) (t :: us) v rest
  | comment {inBraces : Bool} {o v : Object} {pending : List String} {t : Token}
      {us rest : List Token} (hkind : t.kind = .comment) (hus : Legible us)
      (hbody : Builds (.body inBraces o (pending ++ [t.text])) us v rest) :
      Builds (.body inBraces o pending) (t :: us) v rest
  | directiveItem {inBraces : Bool} {o v : Object} {pending : List String} {t : Token}
      {us mid next rest : List Token} {d : Directive} (hkind : t.kind = .directive)
      (hd : Builds (.directive t o.fields.length) us d mid) (hend : EndsItem mid next)
      (hbody : Builds (.body inBraces (addDirective o d pending) []) next v rest) :
      Builds (.body inBraces o pending) (t :: us) v rest
  | fieldItem {inBraces : Bool} {o v : Object} {pending : List String} {t : Token}
      {us mid rest : List Token} {node : Node} (hkind : t.kind = .identifier)
      (hnode : Builds (.field t pending) us node mid)
      (hbody : Builds (.body inBraces (o.insert node) []) mid v rest) :
      Builds (.body inBraces o pending) (t :: us) v rest
  | option {name t : Token} {leading : List String} {us mid next rest : List Token} {e : Expr}
      {trailing : Option String} (hkind : t.kind = .mark .assign) (hus : Legible us)
      (he : Reads .expression us e mid) (htrailing : Trailing mid trailing next)
      (hend : EndsItem next rest) :
      Builds (.field name leading) (t :: us)
        (.option ⟨name.text, e, ⟨leading, trailing⟩, name.position⟩) rest
  | object {name : Token} {leading : List String} {input rest : List Token} {node : Node}
      (hblock : Builds (.block name.text none name.position leading) input node rest) :
      Builds (.field name leading) input node rest
  | labelled {name t : Token} {leading : List String} {us rest : List Token} {node : Node}
      (hkind : t.kind = .identifier) (hus : Legible us)
      (hblock : Builds (.block name.text (some t.text) name.position leading) us node rest) :
      Builds (.field name leading) (t :: us) node rest
  | block {name : String} {label : Option String} {position : Position} {leading : List String}
      {t brace : Token} {us vs next rest : List Token} {o : Object} {trailing : Option String}
      (hkind : t.kind = .mark .lbrace) (hus : Legible us)
      (hbody : Builds (.body true { Object.empty name position with label } []) us o (brace :: vs))
      (hbrace : brace.kind = .mark .rbrace) (hvs : Legible vs)
      (htrailing : Trailing vs trailing next) (hend : EndsItem next rest) :
      Builds (.block name label position leading) (t :: us)
        (.object { o with comments := ⟨leading, trailing⟩ }) rest
  | directive {name t : Token} {offset : Nat} {kind : DirectiveKind} {us in₁ rest : List Token}
      {saw : Bool} {args : List (Argument Payload)}
      (hname : DirectiveKind.ofName? name.text = some kind) (hkind : t.kind = .mark .lparen)
      (hus : Legible us) (hlines : Lines us saw in₁)
      (hargs : Builds (.directiveArgs []) in₁ args rest) :
      Builds (.directive name offset) (t :: us) ⟨kind, args, name.position, offset⟩ rest
  | noArg {done : List (Argument Payload)} {t : Token} {us : List Token}
      (hkind : t.kind = .mark .rparen) (hus : Legible us) :
      Builds (.directiveArgs done) (t :: us) done.reverse us
  | lastArg {done : List (Argument Payload)} {arg : Argument Payload} {paren : Token}
      {input mid rest : List Token} {saw : Bool} (harg : Builds .directiveArg input arg mid)
      (hlines : Lines mid saw (paren :: rest)) (hparen : paren.kind = .mark .rparen)
      (hrest : Legible rest) : Builds (.directiveArgs done) input (arg :: done).reverse rest
  | args {done args : List (Argument Payload)} {arg : Argument Payload} {comma : Token}
      {input mid us in₁ rest : List Token} {saw₁ saw₂ : Bool}
      (harg : Builds .directiveArg input arg mid) (hlines₁ : Lines mid saw₁ (comma :: us))
      (hcomma : comma.kind = .mark .comma) (hus : Legible us) (hlines₂ : Lines us saw₂ in₁)
      (hargs : Builds (.directiveArgs (arg :: done)) in₁ args rest) :
      Builds (.directiveArgs done) input args rest
  | arg {value : Payload} {input rest : List Token}
      -- a name in front of an equals sign is a keyword
      (hkeyword : ∀ t u vs, input = t :: u :: vs → t.kind = .identifier → u.kind ≠ .mark .assign)
      (hvalue : Builds .payload input value rest) : Builds .directiveArg input ⟨none, value⟩ rest
  | keyword {t u : Token} {vs in₁ rest : List Token} {saw : Bool} {value : Payload}
      (ht : t.kind = .identifier) (hu : u.kind = .mark .assign) (hvs : Legible vs)
      (hlines : Lines vs saw in₁) (hvalue : Builds .payload in₁ value rest) :
      Builds .directiveArg (t :: u :: vs) ⟨some t.text, value⟩ rest
  | fragment {t brace : Token} {us rest : List Token} {o : Object} (hkind : t.kind = .mark .lbrace)
      (hus : Legible us)
      (hbody : Builds (.body true (Object.empty "" t.position) []) us o (brace :: rest))
      (hbrace : brace.kind = .mark .rbrace) (hrest : Legible rest) :
      Builds .payload (t :: us) (.block o) rest
  | name {t : Token} {us : List Token} (hkind : t.kind = .identifier) (hus : Legible us)
      (hfront : front us ≠ .mark .lparen) : Builds .payload (t :: us) (.ident t.text) us
  | calledValue {t : Token} {us mid rest : List Token} {c e : Expr} (hkind : t.kind = .identifier)
      (hcall : Reads (.call t) us c mid) (he : Reads (.continued c) mid e rest) :
      Builds .payload (t :: us) (.expr e) rest
  | value {input rest : List Token} {e : Expr} (hfront : front input ≠ .identifier)
      (he : Reads .expression input e rest) : Builds .payload input (.expr e) rest

/-- The parser of a part. -/
def Part.parse (stop : Position) : (p : Part) → (input : List Token) →
    Except ParseError (Parsed p.Result input)
  | body inBraces o pending, input => Parse.body stop inBraces o pending input
  | field name leading, input => Parse.field stop name leading input
  | block name label position leading, input => Parse.block stop name label position leading input
  | directive name offset, input => Parse.directive stop name offset input
  | directiveArgs done, input => Parse.directiveArgs stop done input
  | directiveArg, input => Parse.directiveArg stop input
  | payload, input => Parse.payload stop input

/-! ## The ends of fields -/

section

open Running

variable {stop : Position} {input us rest : List Token}

theorem trailing_of_trailingComment {p : Parsed (Option String) input}
    (h : trailingComment input = .ok p) : Trailing input p.value p.rest := by
  cases input with
  | nil =>
      cases h
      exact .none nofun
  | cons t us =>
      rw [trailingComment] at h
      split at h
      · rename_i hkind
        obtain ⟨_, hus, h⟩ := bind_eq_ok h
        cases h
        exact .some hkind (legible_of_onto hus)
      · rename_i hkind
        cases h
        exact .none hkind

theorem Trailing.parse {trailing : Option String} (h : Trailing input trailing rest) :
    ∃ hs, trailingComment input = .ok ⟨trailing, rest, hs⟩ := by
  cases h with
  | none h =>
      refine ⟨List.suffix_refl _, ?_⟩
      cases input with
      | nil => rfl
      | cons t us => exact if_neg h
  | some hkind hus =>
      refine ⟨List.suffix_cons _ _, ?_⟩
      rw [trailingComment, if_pos hkind, hus.onto]
      rfl

theorem endsItem_of_endOfItem {p : Parsed Unit input} (h : endOfItem stop input = .ok p) :
    EndsItem input p.rest := by
  cases input with
  | nil =>
      cases h
      exact .finish
  | cons t us =>
      rw [endOfItem] at h
      split at h
      · rename_i hkind
        obtain ⟨_, hus, h⟩ := bind_eq_ok h
        cases h
        exact .line hkind (legible_of_onto hus)
      · split at h
        · rename_i hkind
          cases h
          exact .brace hkind
        · cases h

theorem EndsItem.parse (h : EndsItem input rest) (stop : Position) :
    ∃ hs, endOfItem stop input = .ok ⟨(), rest, hs⟩ := by
  cases h with
  | line hkind hus =>
      refine ⟨List.suffix_cons _ _, ?_⟩
      rw [endOfItem, if_pos hkind, hus.onto]
      rfl
  | brace hkind =>
      refine ⟨List.suffix_refl _, ?_⟩
      rw [endOfItem, if_neg (by rw [hkind]; decide), if_pos hkind]
      rfl
  | finish => exact ⟨List.suffix_refl _, rfl⟩

theorem EndsItem.isSuffix (h : EndsItem input rest) : rest <:+ input := by
  obtain ⟨hs, -⟩ := h.parse .start
  exact hs

theorem suffix_behind {t : Token} {tokens : List Token} (h : t :: us <:+ tokens) : us <:+ tokens :=
  (List.suffix_cons t us).trans h

/-! ## A parser builds what the rules derive -/

/-- Behind a name there is a call or nothing. -/
theorem builds_payloadBehindName {t : Token} {us : List Token} (ht : t.kind = .identifier)
    (hus : Legible us) {p : Parsed Payload us} (h : payloadBehindName stop t us = .ok p) :
    Builds .payload (t :: us) p.value p.rest := by
  rw [payloadBehindName] at h
  split at h
  · obtain ⟨called, hcalled, h⟩ := bind_eq_ok h
    obtain ⟨e, he, h⟩ := bind_eq_ok h
    cases h
    exact .calledValue ht (reads_call hcalled) (reads_continued he)
  · rename_i hfront
    cases h
    exact .name ht hus hfront

mutual

theorem builds_body : ∀ {inBraces : Bool} {o : Object} {pending : List String}
    {input : List Token} {p : Parsed Object input}, body stop inBraces o pending input = .ok p →
      Builds (.body inBraces o pending) input p.value p.rest
  | inBraces, _, _, [], p, h => by
    rw [body] at h
    split at h
    · cases h
    · rename_i hopen
      cases h
      obtain rfl : inBraces = false := by simpa using hopen
      exact .finish
  | inBraces, _, _, t :: us, p, h => by
    rw [body] at h
    split at h
    · rename_i hclose
      cases h
      obtain ⟨rfl, hkind⟩ := hclose
      exact .close hkind
    · split at h
      · rename_i hkind
        obtain ⟨_, hus, h⟩ := bind_eq_ok h
        obtain ⟨o, ho, h⟩ := bind_eq_ok h
        cases h
        exact .line hkind (legible_of_onto hus) (builds_body ho)
      · rename_i hkind
        obtain ⟨_, hus, h⟩ := bind_eq_ok h
        obtain ⟨o, ho, h⟩ := bind_eq_ok h
        cases h
        exact .comment hkind (legible_of_onto hus) (builds_body ho)
      · rename_i hkind
        obtain ⟨d, hd, h⟩ := bind_eq_ok h
        -- what is left is no longer, which the measure needs
        have := d.length_le
        obtain ⟨line, hline, h⟩ := bind_eq_ok h
        have := line.length_le
        obtain ⟨o, ho, h⟩ := bind_eq_ok h
        cases h
        exact .directiveItem hkind (builds_directive hd) (endsItem_of_endOfItem hline)
          (builds_body ho)
      · rename_i hkind
        obtain ⟨node, hnode, h⟩ := bind_eq_ok h
        have := node.length_le
        obtain ⟨o, ho, h⟩ := bind_eq_ok h
        cases h
        exact .fieldItem hkind (builds_field hnode) (builds_body ho)
      · cases h
termination_by _ _ _ input => input.length * 4 + 1

theorem builds_field {name : Token} {leading : List String} : ∀ {input : List Token}
    {p : Parsed Node input}, field stop name leading input = .ok p →
      Builds (.field name leading) input p.value p.rest
  | [], p, h => by
    rw [field] at h
    cases h
  | t :: us, p, h => by
    rw [field] at h
    obtain ⟨_, -, h⟩ := bind_eq_ok h
    split at h
    · rename_i hkind
      obtain ⟨_, hus, h⟩ := bind_eq_ok h
      obtain ⟨e, he, h⟩ := bind_eq_ok h
      obtain ⟨trailing, htrailing, h⟩ := bind_eq_ok h
      obtain ⟨line, hline, h⟩ := bind_eq_ok h
      cases h
      exact .option hkind (legible_of_onto hus) (reads_expression he)
        (trailing_of_trailingComment htrailing) (endsItem_of_endOfItem hline)
    · split at h
      · exact .object (builds_block h)
      · split at h
        · rename_i hkind
          obtain ⟨_, hus, h⟩ := bind_eq_ok h
          obtain ⟨node, hnode, h⟩ := bind_eq_ok h
          cases h
          exact .labelled hkind (legible_of_onto hus) (builds_block hnode)
        · cases h
termination_by input => input.length * 4 + 2

theorem builds_block {name : String} {label : Option String} {position : Position}
    {leading : List String} : ∀ {input : List Token} {p : Parsed Node input},
      block stop name label position leading input = .ok p →
        Builds (.block name label position leading) input p.value p.rest
  | [], p, h => by
    rw [block] at h
    cases h
  | t :: us, p, h => by
    rw [block] at h
    split at h
    · rename_i hkind
      obtain ⟨_, hus, h⟩ := bind_eq_ok h
      obtain ⟨o, ho, h⟩ := bind_eq_ok h
      obtain ⟨brace, hbrace, h⟩ := bind_eq_ok h
      obtain ⟨trailing, htrailing, h⟩ := bind_eq_ok h
      obtain ⟨line, hline, h⟩ := bind_eq_ok h
      cases h
      obtain ⟨b, vs, hrest, hbraceRest, hkind', hvs⟩ := exists_of_expect hbrace
      have hbody := builds_body ho
      rw [hrest, ← hbraceRest] at hbody
      exact .block hkind (legible_of_onto hus) hbody hkind' (hbraceRest ▸ hvs)
        (trailing_of_trailingComment htrailing) (endsItem_of_endOfItem hline)
    · cases h
termination_by input => input.length * 4 + 1

theorem builds_directive {name : Token} {offset : Nat} {input : List Token}
    {p : Parsed Directive input} (h : directive stop name offset input = .ok p) :
    Builds (.directive name offset) input p.value p.rest := by
  rw [directive] at h
  obtain ⟨_, -, h⟩ := bind_eq_ok h
  split at h
  · cases h
  · rename_i kind hname
    obtain ⟨paren, hparen, h⟩ := bind_eq_ok h
    have := paren.length_le
    obtain ⟨lines, hlines, h⟩ := bind_eq_ok h
    have := lines.length_le
    obtain ⟨args, hargs, h⟩ := bind_eq_ok h
    cases h
    obtain ⟨t, us, hinput, hparenRest, hkind, hus⟩ := exists_of_expect hparen
    have hlines : Lines us lines.value lines.rest := by
      rw [← hparenRest]
      exact lines_of_skipLines hlines
    have hbuilds : Builds (.directive name offset) (t :: us)
        ⟨kind, args.value, name.position, offset⟩ args.rest :=
      .directive hname hkind hus hlines (builds_directiveArgs hargs)
    rwa [← hinput] at hbuilds
termination_by input.length * 4 + 3

theorem builds_directiveArgs {done : List (Argument Payload)} {input : List Token}
    {p : Parsed (List (Argument Payload)) input} (h : directiveArgs stop done input = .ok p) :
    Builds (.directiveArgs done) input p.value p.rest := by
  rw [directiveArgs] at h
  split at h
  · obtain ⟨paren, hparen, h⟩ := bind_eq_ok h
    cases h
    obtain ⟨t, us, rfl, hrest, hkind, hus⟩ := exists_of_expect hparen
    change Builds (.directiveArgs done) (t :: us) done.reverse paren.rest
    rw [hrest]
    exact .noArg hkind hus
  · obtain ⟨arg, harg, h⟩ := bind_eq_ok h
    have := arg.length_le
    obtain ⟨lines, hlines, h⟩ := bind_eq_ok h
    have := lines.length_le
    split at h
    · rename_i saw c us left
      have : us.length < arg.rest.length := left.length_le
      have hlines := lines_of_skipLines hlines
      split at h
      · rename_i hcomma
        obtain ⟨_, hus, h⟩ := bind_eq_ok h
        obtain ⟨lines', hlines', h⟩ := bind_eq_ok h
        have := lines'.length_le
        obtain ⟨all, hall, h⟩ := bind_eq_ok h
        cases h
        exact .args (builds_directiveArg harg) hlines hcomma (legible_of_onto hus)
          (lines_of_skipLines hlines') (builds_directiveArgs hall)
      · split at h
        · rename_i hparen
          obtain ⟨_, hus, h⟩ := bind_eq_ok h
          cases h
          exact .lastArg (builds_directiveArg harg) hlines hparen (legible_of_onto hus)
        · cases h
    · cases h
termination_by input.length * 4 + 2

theorem builds_directiveArg : ∀ {input : List Token} {p : Parsed (Argument Payload) input},
    directiveArg stop input = .ok p → Builds .directiveArg input p.value p.rest
  | [], p, h => by
    simp only [directiveArg] at h
    obtain ⟨value, hvalue, h⟩ := bind_eq_ok h
    cases h
    exact .arg (by rintro _ _ _ ⟨⟩) (builds_payload hvalue)
  | [t], p, h => by
    simp only [directiveArg] at h
    obtain ⟨value, hvalue, h⟩ := bind_eq_ok h
    cases h
    exact .arg (by rintro _ _ _ ⟨⟩) (builds_payload hvalue)
  | t :: u :: vs, p, h => by
    rw [directiveArg] at h
    split at h
    · rename_i ht
      obtain ⟨_, hus, h⟩ := bind_eq_ok h
      split at h
      · rename_i hu
        obtain ⟨_, hvs, h⟩ := bind_eq_ok h
        obtain ⟨lines, hlines, h⟩ := bind_eq_ok h
        have := lines.length_le
        obtain ⟨value, hvalue, h⟩ := bind_eq_ok h
        cases h
        exact .keyword ht hu (legible_of_onto hvs) (lines_of_skipLines hlines)
          (builds_payload hvalue)
      · rename_i hu
        obtain ⟨value, hvalue, h⟩ := bind_eq_ok h
        cases h
        refine .arg ?_ (builds_payloadBehindName ht (legible_of_onto hus) hvalue)
        rintro _ _ _ ⟨⟩ _
        exact hu
    · rename_i ht
      obtain ⟨value, hvalue, h⟩ := bind_eq_ok h
      cases h
      refine .arg ?_ (builds_payload hvalue)
      rintro _ _ _ ⟨⟩ hname
      exact absurd hname ht
termination_by input => input.length * 4 + 1

theorem builds_payload : ∀ {input : List Token} {p : Parsed Payload input},
    payload stop input = .ok p → Builds .payload input p.value p.rest
  | [], p, h => by
    rw [payload] at h
    cases h
  | t :: us, p, h => by
    rw [payload] at h
    split at h
    · rename_i hkind
      obtain ⟨_, hus, h⟩ := bind_eq_ok h
      obtain ⟨o, ho, h⟩ := bind_eq_ok h
      obtain ⟨brace, hbrace, h⟩ := bind_eq_ok h
      cases h
      obtain ⟨b, vs, hrest, hbraceRest, hkind', hvs⟩ := exists_of_expect hbrace
      have hbody := builds_body ho
      rw [hrest, ← hbraceRest] at hbody
      exact .fragment hkind (legible_of_onto hus) hbody hkind' (hbraceRest ▸ hvs)
    · split at h
      · rename_i hkind
        obtain ⟨_, hus, h⟩ := bind_eq_ok h
        obtain ⟨value, hvalue, h⟩ := bind_eq_ok h
        cases h
        exact builds_payloadBehindName hkind (legible_of_onto hus) hvalue
      · rename_i hkind
        obtain ⟨e, he, h⟩ := bind_eq_ok h
        cases h
        exact .value hkind (reads_expression he)
termination_by input => input.length * 4

end

/-! ## A parser builds all that the rules derive -/

theorem legible_of_kind {t : Token} {kind : Kind} (ht : t.kind = kind) (hkind : kind ≠ .invalid) :
    Legible (t :: us) := by
  rw [Legible, front, ht]
  exact hkind

/-- No other token closes a body than a brace. -/
theorem not_close_of_kind {inBraces : Bool} {t : Token} {kind : Kind} (ht : t.kind = kind)
    (hkind : kind ≠ .mark .rbrace) : ¬(inBraces = true ∧ t.kind = .mark .rbrace) := by
  rintro ⟨-, hbrace⟩
  exact hkind (ht.symm.trans hbrace)

theorem Builds.front_directiveArg {arg : Argument Payload}
    (h : Builds .directiveArg input arg rest) : front input ≠ .mark .rparen := by
  cases h with
  | keyword ht => rw [front, ht]; decide
  | arg _ hvalue =>
      cases hvalue with
      | fragment hkind | name hkind | calledValue hkind => rw [front, hkind]; decide
      | value _ he => exact he.front_ne rfl rfl

theorem Builds.front_block {name : String} {label : Option String} {position : Position}
    {leading : List String} {node : Node}
    (h : Builds (.block name label position leading) input node rest) :
    front input = .mark .lbrace := by
  cases h with
  | block hkind => exact hkind

theorem Builds.parse {p : Part} {v : p.Result} (h : Builds p input v rest) (stop : Position) :
    ∃ hs, p.parse stop input = .ok ⟨v, rest, hs⟩ := by
  induction h with
  | finish =>
      refine ⟨List.suffix_refl _, ?_⟩
      rw [Part.parse, Parse.body]
      rfl
  | close hkind =>
      refine ⟨List.suffix_refl _, ?_⟩
      rw [Part.parse, Parse.body, if_pos ⟨rfl, hkind⟩]
      rfl
  | line hkind hus _ ih =>
      obtain ⟨hs, ih : Parse.body _ _ _ _ _ = _⟩ := ih
      refine ⟨hs.trans (List.suffix_cons _ _), ?_⟩
      rw [Part.parse, Parse.body, if_neg (not_close_of_kind hkind (by decide))]
      simp only [hkind, hus.onto, ih, ok_bind]
      rfl
  | comment hkind hus _ ih =>
      obtain ⟨hs, ih : Parse.body _ _ _ _ _ = _⟩ := ih
      refine ⟨hs.trans (List.suffix_cons _ _), ?_⟩
      rw [Part.parse, Parse.body, if_neg (not_close_of_kind hkind (by decide))]
      simp only [hkind, hus.onto, ih, ok_bind]
      rfl
  | directiveItem hkind _ hend _ ih₁ ih₂ =>
      obtain ⟨hs₁, ih₁ : Parse.directive _ _ _ _ = _⟩ := ih₁
      obtain ⟨hl, hline⟩ := hend.parse stop
      obtain ⟨hs₂, ih₂ : Parse.body _ _ _ _ _ = _⟩ := ih₂
      refine ⟨hs₂.trans (hl.trans (hs₁.trans (List.suffix_cons _ _))), ?_⟩
      rw [Part.parse, Parse.body, if_neg (not_close_of_kind hkind (by decide))]
      simp only [hkind, ih₁, hline, ih₂, ok_bind]
      rfl
  | fieldItem hkind _ _ ih₁ ih₂ =>
      obtain ⟨hs₁, ih₁ : Parse.field _ _ _ _ = _⟩ := ih₁
      obtain ⟨hs₂, ih₂ : Parse.body _ _ _ _ _ = _⟩ := ih₂
      refine ⟨hs₂.trans (hs₁.trans (List.suffix_cons _ _)), ?_⟩
      rw [Part.parse, Parse.body, if_neg (not_close_of_kind hkind (by decide))]
      simp only [hkind, ih₁, ih₂, ok_bind]
      rfl
  | option hkind hus he htrailing hend =>
      obtain ⟨hs, he : Parse.expression stop _ = _⟩ := he.parse stop
      obtain ⟨hc, htrailing⟩ := htrailing.parse
      obtain ⟨hl, hline⟩ := hend.parse stop
      refine ⟨hl.trans (hc.trans (hs.trans (List.suffix_cons _ _))), ?_⟩
      rw [Part.parse, Parse.field, (legible_of_kind hkind (by decide)).onto]
      simp only [if_pos hkind, hus.onto, he, htrailing, hline, ok_bind]
      rfl
  | @object name leading input rest node hblock ih =>
      obtain ⟨hs, ih : Parse.block _ _ _ _ _ _ = _⟩ := ih
      refine ⟨hs, ?_⟩
      have hfront := hblock.front_block
      cases input with
      | nil => cases hfront
      | cons t us =>
          have hkind : t.kind = .mark .lbrace := hfront
          rw [Part.parse, Parse.field, (legible_of_kind hkind (by decide)).onto]
          simp only [ok_bind]
          rw [if_neg (by rw [hkind]; decide), if_pos hkind, ih]
  | labelled hkind hus hblock ih =>
      obtain ⟨hs, ih : Parse.block _ _ _ _ _ _ = _⟩ := ih
      refine ⟨hs.trans (List.suffix_cons _ _), ?_⟩
      rw [Part.parse, Parse.field, (legible_of_kind hkind (by decide)).onto]
      simp only [ok_bind]
      rw [if_neg (by rw [hkind]; decide), if_neg (by rw [hkind]; decide), if_pos hkind]
      simp only [hus.onto, ih, ok_bind]
      rfl
  | block hkind hus _ hbrace hvs htrailing hend ih =>
      obtain ⟨hs, ih : Parse.body _ _ _ _ _ = _⟩ := ih
      obtain ⟨hc, htrailing⟩ := htrailing.parse
      obtain ⟨hl, hline⟩ := hend.parse stop
      refine ⟨hl.trans (hc.trans ((List.suffix_cons _ _).trans (hs.trans
        (List.suffix_cons _ _)))), ?_⟩
      rw [Part.parse, Parse.block, if_pos hkind]
      simp only [hus.onto, ih, expect_of_kind hbrace hvs, htrailing, hline, ok_bind]
      rfl
  | directive hname hkind hus hlines _ ih =>
      obtain ⟨hl, hlines⟩ := hlines.skipLines
      obtain ⟨hs, ih : Parse.directiveArgs _ _ _ = _⟩ := ih
      refine ⟨hs.trans (hl.trans (List.suffix_cons _ _)), ?_⟩
      rw [Part.parse, Parse.directive, (legible_of_kind hkind (by decide)).onto]
      simp only [hname, expect_of_kind hkind hus, hlines, ih, ok_bind]
      rfl
  | noArg hkind hus =>
      refine ⟨List.suffix_cons _ _, ?_⟩
      rw [Part.parse, Parse.directiveArgs, if_pos (show front (_ :: _) = _ from hkind),
        expect_of_kind hkind hus]
      rfl
  | lastArg harg hlines hparen hrest ih =>
      obtain ⟨hs, ih : Parse.directiveArg _ _ = _⟩ := ih
      obtain ⟨hl, hlines⟩ := hlines.skipLines
      refine ⟨(List.suffix_cons _ _).trans (hl.trans hs), ?_⟩
      rw [Part.parse, Parse.directiveArgs, if_neg harg.front_directiveArg]
      simp only [ih, hlines, hparen, hrest.onto, ok_bind]
      rfl
  | args harg hlines₁ hcomma hus hlines₂ _ ih₁ ih₂ =>
      obtain ⟨hs₁, ih₁ : Parse.directiveArg _ _ = _⟩ := ih₁
      obtain ⟨hl₁, hlines₁⟩ := hlines₁.skipLines
      obtain ⟨hl₂, hlines₂⟩ := hlines₂.skipLines
      obtain ⟨hs₂, ih₂ : Parse.directiveArgs _ _ _ = _⟩ := ih₂
      refine ⟨hs₂.trans (hl₂.trans ((List.suffix_cons _ _).trans (hl₁.trans hs₁))), ?_⟩
      rw [Part.parse, Parse.directiveArgs, if_neg harg.front_directiveArg]
      simp only [ih₁, hlines₁, if_pos hcomma, hus.onto, hlines₂, ih₂, ok_bind]
      rfl
  | @arg value input rest hkeyword hvalue ih =>
      obtain ⟨hs, ih : Parse.payload _ _ = _⟩ := ih
      refine ⟨hs, ?_⟩
      rw [Part.parse]
      rcases input with _ | ⟨t, _ | ⟨u, vs⟩⟩
      · simp only [Parse.directiveArg, ih, ok_bind]
        rfl
      · simp only [Parse.directiveArg, ih, ok_bind]
        rfl
      · rw [Parse.directiveArg]
        split
        · rename_i ht
          rw [Parse.payload, if_neg (by rw [ht]; decide), if_pos ht] at ih
          obtain ⟨_, hus, ih⟩ := bind_eq_ok ih
          obtain ⟨behind, hbehind, ih⟩ := bind_eq_ok ih
          cases ih
          simp only [hus, if_neg (hkeyword t u vs rfl ht), hbehind, ok_bind]
          rfl
        · rw [ih]
          rfl
  | keyword ht hu hvs hlines _ ih =>
      obtain ⟨hl, hlines⟩ := hlines.skipLines
      obtain ⟨hs, ih : Parse.payload _ _ = _⟩ := ih
      refine ⟨hs.trans (hl.trans ((List.suffix_cons _ _).trans (List.suffix_cons _ _))), ?_⟩
      rw [Part.parse, Parse.directiveArg, if_pos ht, (legible_of_kind hu (by decide)).onto]
      simp only [if_pos hu, hvs.onto, hlines, ih, ok_bind]
      rfl
  | fragment hkind hus _ hbrace hrest ih =>
      obtain ⟨hs, ih : Parse.body _ _ _ _ _ = _⟩ := ih
      refine ⟨(List.suffix_cons _ _).trans (hs.trans (List.suffix_cons _ _)), ?_⟩
      rw [Part.parse, Parse.payload, if_pos hkind]
      simp only [hus.onto, ih, expect_of_kind hbrace hrest, ok_bind]
      rfl
  | name hkind hus hfront =>
      refine ⟨List.suffix_cons _ _, ?_⟩
      rw [Part.parse, Parse.payload, if_neg (by rw [hkind]; decide), if_pos hkind]
      simp only [hus.onto, ok_bind]
      rw [payloadBehindName, if_neg hfront]
      rfl
  | @calledValue t us mid rest c e hkind hcall he =>
      obtain ⟨hs₁, h₁ : Parse.call stop _ _ = _⟩ := hcall.parse stop
      obtain ⟨hs₂, h₂ : Parse.continued stop _ _ = _⟩ := he.parse stop
      have hfront := hcall.front_call
      have hus : Legible us := by rw [Legible, hfront]; decide
      refine ⟨hs₂.trans (hs₁.trans (List.suffix_cons _ _)), ?_⟩
      rw [Part.parse, Parse.payload, if_neg (by rw [hkind]; decide), if_pos hkind]
      simp only [hus.onto, ok_bind]
      rw [payloadBehindName, if_pos hfront]
      simp only [h₁, h₂, ok_bind]
      rfl
  | @value input rest e hfront he =>
      obtain ⟨hs, h : Parse.expression stop _ = _⟩ := he.parse stop
      refine ⟨hs, ?_⟩
      rw [Part.parse]
      have hbrace : front input ≠ .mark .lbrace := he.front_ne rfl rfl
      have heof : front input ≠ .eof := he.front_ne rfl rfl
      cases input with
      | nil => exact absurd rfl heof
      | cons t us =>
          rw [Parse.payload, if_neg (show t.kind ≠ _ from hbrace),
            if_neg (show t.kind ≠ _ from hfront)]
          simp only [h, ok_bind]
          rfl

theorem Builds.isSuffix {p : Part} {v : p.Result} (h : Builds p input v rest) : rest <:+ input := by
  obtain ⟨hs, -⟩ := h.parse .start
  exact hs

/-! ## Whole documents -/

/-- A body without braces ends with the text. -/
theorem Builds.rest_eq_nil {p : Part} {v : p.Result} (h : Builds p input v rest) :
    ∀ o pending, p = .body false o pending → rest = [] := by
  induction h with
  | finish => exact fun _ _ _ => rfl
  | line _ _ _ ih | comment _ _ _ ih | directiveItem _ _ _ _ _ ih | fieldItem _ _ _ _ ih =>
      rintro _ _ ⟨⟩
      exact ih _ _ rfl
  | _ => rintro _ _ ⟨⟩

/-- A parser of documents goes past no malformed token. -/
theorem Builds.mem_of_invalid {p : Part} {v : p.Result} (h : Builds p input v rest) {t : Token}
    (ht : t ∈ input) (hinvalid : t.kind = .invalid) : t ∈ rest := by
  have of_kind {u : Token} {us : List Token} {kind : Kind} (ht : t ∈ u :: us) (hu : u.kind = kind)
      (hkind : kind ≠ .invalid) : t ∈ us :=
    mem_behind ht hinvalid (hu ▸ hkind)
  have of_endsItem {input rest : List Token} (ht : t ∈ input) (h : EndsItem input rest) :
      t ∈ rest := by
    cases h with
    | line hkind => exact of_kind ht hkind nofun
    | brace | finish => exact ht
  have of_trailing {input rest : List Token} {trailing : Option String} (ht : t ∈ input)
      (h : Trailing input trailing rest) : t ∈ rest := by
    cases h with
    | none => exact ht
    | some hkind => exact of_kind ht hkind nofun
  induction h with
  | finish | close => exact ht
  | line hkind _ _ ih | comment hkind _ _ ih => exact ih (of_kind ht hkind nofun)
  | directiveItem hkind _ hend _ ih₁ ih₂ =>
      exact ih₂ (of_endsItem (ih₁ (of_kind ht hkind nofun)) hend)
  | fieldItem hkind _ _ ih₁ ih₂ => exact ih₂ (ih₁ (of_kind ht hkind nofun))
  | option hkind _ he htrailing hend =>
      have hmid := he.mem_of_invalid (of_kind ht hkind nofun) hinvalid
      exact of_endsItem (of_trailing hmid htrailing) hend
  | object _ ih => exact ih ht
  | labelled hkind _ _ ih => exact ih (of_kind ht hkind nofun)
  | block hkind _ _ hbrace _ htrailing hend ih =>
      have hvs := of_kind (ih (of_kind ht hkind nofun)) hbrace nofun
      exact of_endsItem (of_trailing hvs htrailing) hend
  | directive _ hkind _ hlines _ ih =>
      exact ih (hlines.mem_of_invalid (of_kind ht hkind nofun) hinvalid)
  | noArg hkind => exact of_kind ht hkind nofun
  | lastArg _ hlines hparen _ ih =>
      exact of_kind (hlines.mem_of_invalid (ih ht) hinvalid) hparen nofun
  | args _ hlines₁ hcomma _ hlines₂ _ ih₁ ih₂ =>
      have hus := of_kind (hlines₁.mem_of_invalid (ih₁ ht) hinvalid) hcomma nofun
      exact ih₂ (hlines₂.mem_of_invalid hus hinvalid)
  | arg _ _ ih => exact ih ht
  | keyword ht' hu _ hlines _ ih =>
      have hvs := of_kind (of_kind ht ht' nofun) hu nofun
      exact ih (hlines.mem_of_invalid hvs hinvalid)
  | fragment hkind _ _ hbrace _ ih => exact of_kind (ih (of_kind ht hkind nofun)) hbrace nofun
  | name hkind => exact of_kind ht hkind nofun
  | calledValue hkind hcall he =>
      have hmid := hcall.mem_of_invalid (of_kind ht hkind nofun) hinvalid
      exact he.mem_of_invalid hmid hinvalid
  | value _ he => exact he.mem_of_invalid ht hinvalid

/-- A body is read into an object that stands elsewhere. -/
def Part.Elsewhere (position : Position) (input rest : List Token) : (p : Part) → p.Result → Prop
  | body inBraces o pending, v =>
    Builds (.body inBraces { o with position } pending) input { v with position } rest
  | _, _ => True

/-- Where an object stands does not matter for what is read into it. -/
theorem Builds.elsewhere {p : Part} {v : p.Result} (h : Builds p input v rest)
    (position : Position) : p.Elsewhere position input rest v := by
  induction h with
  | finish => exact .finish
  | close hkind => exact .close hkind
  | line hkind hus _ ih => exact .line hkind hus ih
  | comment hkind hus _ ih => exact .comment hkind hus ih
  | directiveItem hkind hd hend _ _ ih => exact .directiveItem hkind hd hend ih
  | fieldItem hkind hnode _ _ ih => exact .fieldItem hkind hnode ih
  | _ => trivial

/-- Reads tokens that are a document as a whole. -/
def wholeDocument (stop : Position) (tokens : List Token) : Except ParseError Object := do
  onto tokens
  let root ← body stop false (Object.empty "" (place stop tokens)) [] tokens
  return root.value

theorem parseDocument_eq (text : String) :
    parseDocument text =
      wholeDocument (TokenList.ofText text).stop (TokenList.ofText text).tokens :=
  rfl

/-- A document is a body without braces, of all the tokens. -/
theorem wholeDocument_iff {tokens : List Token} {root : Object} :
    wholeDocument stop tokens = .ok root ↔ Legible tokens ∧
      Builds (.body false (Object.empty "" (place stop tokens)) []) tokens root [] := by
  constructor
  · intro h
    obtain ⟨_, hlegible, h⟩ := bind_eq_ok h
    obtain ⟨p, hp, h⟩ := bind_eq_ok h
    cases h
    have hbuilds := builds_body hp
    exact ⟨legible_of_onto hlegible, hbuilds.rest_eq_nil _ _ rfl ▸ hbuilds⟩
  · rintro ⟨hlegible, hbuilds⟩
    obtain ⟨_, hparse : body stop _ _ _ _ = _⟩ := hbuilds.parse stop
    rw [wholeDocument]
    simp only [hlegible.onto, hparse, ok_bind]
    rfl

/-- A document is a body without braces, of all the tokens of the text. -/
theorem parseDocument_iff {text : String} {root : Object} :
    parseDocument text = .ok root ↔ Legible (TokenList.ofText text).tokens ∧
      Builds (.body false (Object.empty "" (place (TokenList.ofText text).stop
        (TokenList.ofText text).tokens)) []) (TokenList.ofText text).tokens root [] := by
  rw [parseDocument_eq]
  exact wholeDocument_iff

theorem valid_of_parseDocument {text : String} {root : Object} (h : parseDocument text = .ok root) :
    ∀ t ∈ (TokenList.ofText text).tokens, t.kind ≠ .invalid := by
  obtain ⟨-, hbuilds⟩ := parseDocument_iff.mp h
  intro t ht hinvalid
  cases hbuilds.mem_of_invalid ht hinvalid

end

end ConfigLang.Parse
