import Mathlib
import ConfigLang.Parse.Document
import ConfigLang.Proofs.Parse.Precedence

/-!
# An expression is read the same everywhere

Tokens that are an expression on their own are read as that expression wherever one may
stand: as the value of an option, in parentheses, as an index, as an element of an array,
and as an argument of a call or of a directive (`readAnywhere`).

## Strategy

* **The tokens behind do not matter.**  A reading that ends with the text reads the same
  in front of every token that cannot go on with an expression (`Reads.append`).  Which
  tokens these are depends on what is being read, so the induction is about the tokens
  that close a form (`Reads.append_of_closedBy`); those of `Closes` close them all.
* **The parsers of arguments take a name first.**  They consume the name and its call
  and go on behind them in the middle of the climb; `Reads.exists_call` says that an
  expression that starts with a name is read in this way.  From it come
  `Reads.toArgument` for calls and `payload_of_reads` for directives.
* **Lists go on.**  Items that were read before an item do not matter to it, but stand in
  front in what is read (`Reads.behind`, `directiveArgs_behind`).  `Earlier` says what may
  stand before an item and `Later` what may stand behind it, so the item may have any
  place in its list (`Earlier.elements`, `Earlier.arguments`, `Earlier.directiveArgs`).
* **Whole expressions.**  An expression text is an expression with line ends and comments
  around it (`wholeExpression_iff`).  Without these it is read up to its last token
  (`reads_of_wholeExpression`), which each context then asks for: `Reads.asOption`,
  `Reads.asElement`, `Reads.asArgument`, `directiveArgs_of_reads`.
-/

namespace ConfigLang.Parse

/-! ## Tokens behind an expression -/

/-- The front of some tokens cannot go on with an expression. -/
structure Closes (after : List Token) : Prop where
  legible : Legible after
  operation : BinaryOp.ofKind? (front after) = none
  question : front after ≠ .mark .question
  lbracket : front after ≠ .mark .lbracket

section

variable {input us rest after : List Token}

theorem front_append (h : input ≠ []) (after : List Token) :
    front (input ++ after) = front input := by
  cases input with
  | nil => exact absurd rfl h
  | cons t us => rfl

theorem Legible.append (h : Legible us) (hafter : Legible after) : Legible (us ++ after) := by
  cases us with
  | nil => exact hafter
  | cons t us => exact h

theorem Lines.append {saw : Bool} (h : Lines input saw rest) (hrest : rest ≠ [])
    (hafter : Legible after) : Lines (input ++ after) saw (rest ++ after) := by
  induction h with
  | none heol hcomment =>
      exact .none (by rwa [front_append hrest]) (by rwa [front_append hrest])
  | line hkind hus _ ih => exact .line hkind (hus.append hafter) (ih hrest)
  | comment hkind hus _ ih => exact .comment hkind (hus.append hafter) (ih hrest)

theorem Reads.ne_nil {f : Form} {v : f.Result} (h : Reads f input v rest)
    (hf : f.hasOperand = true) : input ≠ [] := by
  rintro rfl
  exact h.front_ne hf rfl rfl

theorem Reads.elements_ne_nil {done items : List Expr}
    (h : Reads (.elements done) input items rest) : input ≠ [] := by
  cases h with
  | noElement => exact List.cons_ne_nil _ _
  | lastElement he => exact he.ne_nil rfl
  | element he => exact he.ne_nil rfl

theorem Reads.arguments_ne_nil {done args : List (Argument Expr)}
    (h : Reads (.arguments done) input args rest) : input ≠ [] := by
  cases h with
  | noArgument => exact List.cons_ne_nil _ _
  | lastArgument harg => exact harg.ne_nil rfl
  | arguments harg => exact harg.ne_nil rfl

/-- The front of some tokens cannot go on with what is read in a form. -/
def Form.ClosedBy (after : List Token) : Form → Prop
  | expression | choice _ | argument | continued _ => Closes after
  | operation least | operations least _ =>
    front after ≠ .mark .lbracket ∧
      ∀ op, BinaryOp.ofKind? (front after) = some op → op.power < least ∧ op ≠ .pow
  | operand =>
    front after ≠ .mark .lbracket ∧
      ∀ op, BinaryOp.ofKind? (front after) = some op → op ≠ .pow
  | indexes _ => front after ≠ .mark .lbracket
  | primary | elements _ | call _ | arguments _ => True

theorem Closes.operation_closedBy (h : Closes after) (least : Nat) :
    (Form.operation least).ClosedBy after := by
  refine ⟨h.lbracket, ?_⟩
  intro op hop
  cases h.operation.symm.trans hop

theorem Reads.rest_eq_nil {f : Form} {v : f.Result} (h : Reads f [] v rest) : rest = [] := by
  obtain ⟨hs, -⟩ := h.parse default
  exact List.suffix_nil.mp hs

/-- **What ends with the text is read the same in front of a token that cannot go on with it.** -/
theorem Reads.append_of_closedBy {f : Form} {v : f.Result} (h : Reads f input v rest)
    (hlegible : Legible after) (hafter : rest = [] → f.ClosedBy after) :
    Reads f (input ++ after) v (rest ++ after) := by
  have hlines {us in₁ : List Token} {saw : Bool} (hlines : Lines us saw in₁) (hne : in₁ ≠ []) :=
    hlines.append hne hlegible
  have hnil {f : Form} {v : f.Result} {mid rest : List Token} (h : Reads f mid v rest)
      (hmid : mid = []) : rest = [] := by
    subst hmid
    exact h.rest_eq_nil
  induction h with
  | expression _ hchoice ih₁ ih₂ =>
      exact .expression (ih₁ fun hmid => (hafter (hnil hchoice hmid)).operation_closedBy 1)
        (ih₂ hafter)
  | @noChoice input c hkind =>
      refine .noChoice ?_
      cases input with
      | nil => exact (hafter rfl).question
      | cons t us => exact hkind
  | choice hkind hus hlines₁ hyes hlines₂ hcolon hvs hlines₃ hno ih₁ ih₂ =>
      refine .choice hkind (hus.append hlegible) (hlines hlines₁ (hyes.ne_nil rfl)) (ih₁ ?_)
        (hlines hlines₂ (List.cons_ne_nil _ _)) hcolon (hvs.append hlegible)
        (hlines hlines₃ (hno.ne_nil rfl)) (ih₂ hafter)
      rintro rfl
      cases hlines₂
  | operation _ hoperations ih₁ ih₂ =>
      refine .operation (ih₁ fun hmid => ?_) (ih₂ hafter)
      obtain ⟨hlbracket, hop⟩ := hafter (hnil hoperations hmid)
      exact ⟨hlbracket, fun op h => (hop op h).2⟩
  | @noOperation least input left hpower =>
      refine .noOperation ?_
      cases input with
      | nil => exact fun op hop => ((hafter rfl).2 op hop).1
      | cons t us => exact hpower
  | @operations least _ _ _ _ _ _ op _ _ _ hop hpower hus hlines₁ hright hoperations ih₁ ih₂ =>
      refine .operations hop hpower (hus.append hlegible) (hlines hlines₁ (hright.ne_nil rfl))
        (ih₁ fun hmid => ?_) (ih₂ hafter)
      obtain ⟨hlbracket, hop'⟩ := hafter (hnil hoperations hmid)
      have hle : least ≤ op.rightPower := hpower.trans op.power_le_rightPower
      exact ⟨hlbracket, fun op h => ⟨(hop' op h).1.trans_le hle, (hop' op h).2⟩⟩
  | prefixed hop hus _ ih =>
      refine .prefixed hop (hus.append hlegible) (ih fun hrest => ?_)
      obtain ⟨hlbracket, hop⟩ := hafter hrest
      exact ⟨hlbracket, fun op h => ⟨BinaryOp.power_lt (hop op h), hop op h⟩⟩
  | operand _ _ ih₁ ih₂ => exact .operand (ih₁ fun _ => trivial) (ih₂ fun hrest => (hafter hrest).1)
  | @noIndex input target hkind =>
      refine .noIndex ?_
      cases input with
      | nil => exact hafter rfl
      | cons t us => exact hkind
  | index hkind hus hlines₁ hindex hlines₂ hbracket hvs _ ih₁ ih₂ =>
      refine .index hkind (hus.append hlegible) (hlines hlines₁ (hindex.ne_nil rfl)) (ih₁ ?_)
        (hlines hlines₂ (List.cons_ne_nil _ _)) hbracket (hvs.append hlegible) (ih₂ hafter)
      rintro rfl
      cases hlines₂
  | literal hkind hus hvalue => exact .literal hkind (hus.append hlegible) hvalue
  | localVar hkind hus => exact .localVar hkind (hus.append hlegible)
  | baseVar hkind hus => exact .baseVar hkind (hus.append hlegible)
  | group hkind hus hlines₁ he hlines₂ hparen hrest ih =>
      refine .group hkind (hus.append hlegible) (hlines hlines₁ (he.ne_nil rfl)) (ih ?_)
        (hlines hlines₂ (List.cons_ne_nil _ _)) hparen (hrest.append hlegible)
      rintro rfl
      cases hlines₂
  | array hkind hus hlines₁ hitems ih =>
      exact .array hkind (hus.append hlegible) (hlines hlines₁ hitems.elements_ne_nil)
        (ih fun _ => trivial)
  | called hkind _ ih => exact .called hkind (ih fun _ => trivial)
  | noElement hkind hus => exact .noElement hkind (hus.append hlegible)
  | lastElement _ hlines₁ hbracket hrest ih =>
      refine .lastElement (ih ?_) (hlines hlines₁ (List.cons_ne_nil _ _)) hbracket
        (hrest.append hlegible)
      rintro rfl
      cases hlines₁
  | element _ hlines₁ hcomma hus hlines₂ hlast hitems ih₁ ih₂ =>
      refine .element (ih₁ ?_) (hlines hlines₁ (List.cons_ne_nil _ _)) hcomma (hus.append hlegible)
        (hlines hlines₂ hitems.elements_ne_nil) ?_ (ih₂ fun _ => trivial)
      · rintro rfl
        cases hlines₁
      · rwa [front_append hitems.elements_ne_nil]
  | call hkind hus hlines₁ hargs ih =>
      exact .call hkind (hus.append hlegible) (hlines hlines₁ hargs.arguments_ne_nil)
        (ih fun _ => trivial)
  | noArgument hkind hus => exact .noArgument hkind (hus.append hlegible)
  | lastArgument _ hnamed hlines₁ hparen hrest ih =>
      refine .lastArgument (ih ?_) hnamed (hlines hlines₁ (List.cons_ne_nil _ _)) hparen
        (hrest.append hlegible)
      rintro rfl
      cases hlines₁
  | arguments _ hnamed hlines₁ hcomma hus hlines₂ hargs ih₁ ih₂ =>
      refine .arguments (ih₁ ?_) hnamed (hlines hlines₁ (List.cons_ne_nil _ _)) hcomma
        (hus.append hlegible) (hlines hlines₂ hargs.arguments_ne_nil) (ih₂ fun _ => trivial)
      rintro rfl
      cases hlines₁
  | argument hkind he ih =>
      exact .argument (by rwa [front_append (he.ne_nil rfl)]) (ih hafter)
  | keyword ht hu hvs hlines₁ he ih =>
      exact .keyword ht hu (hvs.append hlegible) (hlines hlines₁ (he.ne_nil rfl)) (ih hafter)
  | calledArgument ht _ _ ih₁ ih₂ => exact .calledArgument ht (ih₁ fun _ => trivial) (ih₂ hafter)
  | continued _ hoperations hchoice ih₁ ih₂ ih₃ =>
      refine .continued (ih₁ fun hmid => ?_) (ih₂ fun hmid => ?_) (ih₃ hafter)
      · exact (hafter (hnil hchoice (hnil hoperations hmid))).lbracket
      · exact (hafter (hnil hchoice hmid)).operation_closedBy 1

/-- What ends with the text is read the same in front of a token that closes it. -/
theorem Reads.append {f : Form} {v : f.Result} (h : Reads f input v rest) (hafter : Closes after) :
    Reads f (input ++ after) v (rest ++ after) := by
  refine h.append_of_closedBy hafter.legible fun _ => ?_
  have hno (op : BinaryOp) : BinaryOp.ofKind? (front after) ≠ some op := by
    rw [hafter.operation]
    exact nofun
  cases f with
  | expression | choice | argument | continued => exact hafter
  | operation | operations => exact ⟨hafter.lbracket, fun op hop => absurd hop (hno op)⟩
  | operand => exact ⟨hafter.lbracket, fun op hop => absurd hop (hno op)⟩
  | indexes => exact hafter.lbracket
  | primary | elements | call | arguments => trivial

/-! ## Expressions that start with a name -/

/-- An expression that starts with a name calls it, and goes on behind the call. -/
theorem Reads.exists_call {t : Token} {e : Expr} (ht : t.kind = .identifier)
    (h : Reads .expression (t :: us) e rest) :
    ∃ c mid, Reads (.call t) us c mid ∧ Reads (.continued c) mid e rest := by
  cases h with
  | expression hcondition hchoice =>
      cases hcondition with
      | operation hleft hoperations =>
          cases hleft with
          | prefixed hop => rw [ht] at hop; cases hop
          | operand hprimary hindexes =>
              cases hprimary with
              | called _ hcall => exact ⟨_, _, hcall, .continued hindexes hoperations hchoice⟩
              | literal hkind => rw [ht] at hkind; cases hkind
              | localVar hkind => rw [ht] at hkind; cases hkind
              | baseVar hkind => rw [ht] at hkind; cases hkind
              | group hkind => rw [ht] at hkind; cases hkind
              | array hkind => rw [ht] at hkind; cases hkind

/-- An expression is an argument without a keyword. -/
theorem Reads.toArgument {e : Expr} (h : Reads .expression input e rest) :
    Reads .argument input ⟨none, e⟩ rest := by
  by_cases hkind : front input = .identifier
  · cases input with
    | nil => cases hkind
    | cons t us =>
        obtain ⟨c, mid, hcall, hcontinued⟩ := h.exists_call hkind
        exact .calledArgument hkind hcall hcontinued
  · exact .argument hkind h

/-! ## What stands around an expression -/

/-- A parser reads `value` and leaves `rest`. -/
def Returns {α : Type} (r : Except ParseError (Parsed α input)) (value : α)
    (rest : List Token) : Prop :=
  ∃ p, r = .ok p ∧ p.value = value ∧ p.rest = rest

theorem returns_iff_reads {stop : Position} (f : Form) {v : f.Result} :
    Returns (f.parse stop input) v rest ↔ Reads f input v rest := by
  constructor
  · rintro ⟨p, hp, rfl, rfl⟩
    cases f with
    | expression => exact reads_expression hp
    | choice c => exact reads_ternaryRest hp
    | operation least => exact reads_binary hp
    | operations least left => exact reads_binaryRest hp
    | operand => exact reads_unary hp
    | indexes target => exact reads_postfixes hp
    | primary => exact reads_primary hp
    | elements done => exact reads_elements hp
    | call name => exact reads_call hp
    | arguments done => exact reads_arguments hp
    | argument => exact reads_argument hp
    | continued target => exact reads_continued hp
  · intro h
    obtain ⟨hs, hp⟩ := h.parse stop
    exact ⟨_, hp, rfl, rfl⟩

theorem closes_of_kind (kind : Kind) (h : front after = kind)
    (hkind : kind ∈ [.eof, .eol, .comment, .mark .comma, .mark .rparen, .mark .rbracket,
      .mark .rbrace]) : Closes after := by
  simp only [List.mem_cons, List.not_mem_nil, or_false] at hkind
  constructor
  · rw [Legible, h]
    rintro rfl
    simp at hkind
  · rw [h]
    rcases hkind with rfl | rfl | rfl | rfl | rfl | rfl | rfl <;> rfl
  · rw [h]
    rintro rfl
    simp at hkind
  · rw [h]
    rintro rfl
    simp at hkind

theorem Lines.closes {saw : Bool} (h : Lines after saw rest) (hrest : Closes rest) :
    Closes after := by
  cases h with
  | none => exact hrest
  | line hkind => exact closes_of_kind .eol hkind (by decide)
  | comment hkind => exact closes_of_kind .comment hkind (by decide)

theorem Reads.closed {E : List Token} {t : Expr} (h : Reads .expression E t [])
    (hafter : Closes after) : Reads .expression (E ++ after) t after :=
  h.append hafter

/-! ## Lists -/

/-- Items are read off the front of some tokens, with a comma behind each. -/
inductive Earlier {α : Type} (Item : List Token → α → List Token → Prop) :
    List Token → List α → List Token → Prop
  | nil (input : List Token) : Earlier Item input [] input
  | cons {input mid us in₁ rest : List Token} {comma : Token} {saw₁ saw₂ : Bool} {a : α}
      {as : List α} (hitem : Item input a mid) (hlines₁ : Lines mid saw₁ (comma :: us))
      (hcomma : comma.kind = .mark .comma) (hus : Legible us) (hlines₂ : Lines us saw₂ in₁)
      (h : Earlier Item in₁ as rest) : Earlier Item input (a :: as) rest

/-- What may stand behind an item: the token that closes the list, or a comma and what `More`
says of the tokens behind the line ends there. -/
inductive Later {α : Type} (close : Kind) (More : Bool → List Token → List α → List Token → Prop) :
    List Token → List α → List Token → Prop
  | close {mid rest : List Token} {t : Token} {saw : Bool} (hlines : Lines mid saw (t :: rest))
      (hkind : t.kind = close) (hrest : Legible rest) : Later close More mid [] rest
  | comma {mid us in₁ rest : List Token} {comma : Token} {saw₁ saw₂ : Bool} {as : List α}
      (hlines₁ : Lines mid saw₁ (comma :: us)) (hcomma : comma.kind = .mark .comma)
      (hus : Legible us) (hlines₂ : Lines us saw₂ in₁) (hmore : More saw₂ in₁ as rest) :
      Later close More mid as rest

section

variable {α : Type} {Item : List Token → α → List Token → Prop} {close : Kind}
  {More : Bool → List Token → List α → List Token → Prop}

theorem Earlier.mono {Item' : List Token → α → List Token → Prop} {as : List α}
    (h : Earlier Item input as rest)
    (himp : ∀ {us a mid}, Item us a mid → Item' us a mid) : Earlier Item' input as rest := by
  induction h with
  | nil input => exact .nil input
  | cons hitem hlines₁ hcomma hus hlines₂ _ ih =>
      exact .cons (himp hitem) hlines₁ hcomma hus hlines₂ ih

theorem Later.closes {as : List α} (h : Later close More after as rest)
    (hclose : close = .mark .rparen ∨ close = .mark .rbracket) : Closes after := by
  cases h with
  | close hlines hkind =>
      refine hlines.closes (closes_of_kind _ hkind ?_)
      rcases hclose with rfl | rfl <;> decide
  | comma hlines hcomma => exact hlines.closes (closes_of_kind _ hcomma (by decide))

end

/-- Once an argument of a call is named, the others are too. -/
def NamedLast (args : List (Argument Expr)) : Prop :=
  args.Pairwise fun a b => a.name.isSome → b.name.isSome

theorem NamedLast.any_eq_false {done args : List (Argument Expr)} {arg : Argument Expr}
    (h : NamedLast (done.reverse ++ arg :: args)) (hnone : arg.name.isNone) :
    done.any (·.name.isSome) = false := by
  rw [List.any_eq_false]
  intro a ha hsome
  have hnamed := (List.pairwise_append.mp h).2.2 a (List.mem_reverse.mpr ha) arg
    (List.mem_cons_self ..) hsome
  rw [Option.isNone_iff_eq_none.mp hnone] at hnamed
  cases hnamed

/-- Items that were read before do not matter to a list, but stand in front in what is read. -/
def Form.Behind : (f : Form) → List Token → f.Result → List Token → Prop
  | elements done, input, items, rest =>
    ∀ earlier, Reads (.elements (done ++ earlier)) input (earlier.reverse ++ items) rest
  | arguments done, input, args, rest =>
    done ⊆ args ∧ ∀ earlier, NamedLast (earlier.reverse ++ args) →
      Reads (.arguments (done ++ earlier)) input (earlier.reverse ++ args) rest
  | _, _, _, _ => True

theorem Reads.behind {f : Form} {v : f.Result} (h : Reads f input v rest) :
    f.Behind input v rest := by
  induction h with
  | noElement hkind hus =>
      intro earlier
      rw [← List.reverse_append]
      exact .noElement hkind hus
  | lastElement he hlines hbracket hrest =>
      intro earlier
      rw [← List.reverse_append]
      exact .lastElement he hlines hbracket hrest
  | element he hlines₁ hcomma hus hlines₂ hlast _ _ ih =>
      intro earlier
      exact .element he hlines₁ hcomma hus hlines₂ hlast (ih earlier)
  | noArgument hkind hus =>
      refine ⟨fun a ha => List.mem_reverse.mpr ha, fun earlier _ => ?_⟩
      rw [← List.reverse_append]
      exact .noArgument hkind hus
  | lastArgument harg hnamed hlines hparen hrest =>
      refine ⟨fun a ha => List.mem_reverse.mpr (.tail _ ha), fun earlier hlast => ?_⟩
      rw [← List.reverse_append] at hlast ⊢
      refine .lastArgument harg (fun hnone => ?_) hlines hparen hrest
      rw [List.cons_append, List.reverse_cons] at hlast
      exact NamedLast.any_eq_false hlast hnone
  | @arguments _ _ _ _ _ _ _ _ done args arg harg hnamed hlines₁ hcomma hus hlines₂ _ _ ih =>
      obtain ⟨hsub, ih⟩ := ih
      refine ⟨fun a ha => hsub (.tail _ ha), fun earlier hlast => ?_⟩
      refine .arguments harg (fun hnone => ?_) hlines₁ hcomma hus hlines₂ (ih earlier hlast)
      rw [List.any_append, hnamed hnone, Bool.false_or, List.any_eq_false]
      intro a ha hsome
      have hnamed' := (List.pairwise_append.mp hlast).2.2 a (List.mem_reverse.mpr ha) arg
        (hsub (List.mem_cons_self ..)) hsome
      rw [Option.isNone_iff_eq_none.mp hnone] at hnamed'
      cases hnamed'
  | _ => exact trivial

theorem Earlier.elements {before items done : List Expr} {mid : List Token}
    (h : Earlier (Reads .expression) input before mid)
    (hread : Reads (.elements (before.reverse ++ done)) mid items rest)
    (hmid : front mid ≠ .mark .rbracket) : Reads (.elements done) input items rest := by
  induction h generalizing done with
  | nil input => exact hread
  | @cons input mid' us in₁ mid comma saw₁ saw₂ a as hitem hlines₁ hcomma hus hlines₂ hearlier ih =>
      rw [List.reverse_cons, List.append_assoc] at hread
      refine .element hitem hlines₁ hcomma hus hlines₂ (fun hfront => ?_) (ih hread hmid)
      cases hearlier with
      | nil => exact absurd hfront hmid
      | cons hitem => exact absurd hfront (hitem.front_ne rfl rfl)

theorem Earlier.arguments {before args done : List (Argument Expr)} {mid : List Token}
    (h : Earlier (Reads .argument) input before mid)
    (hread : Reads (.arguments (before.reverse ++ done)) mid args rest)
    (hnamed : NamedLast (done.reverse ++ before)) : Reads (.arguments done) input args rest := by
  induction h generalizing done with
  | nil input => exact hread
  | @cons input mid' us in₁ mid comma saw₁ saw₂ a as hitem hlines₁ hcomma hus hlines₂ hearlier ih =>
      rw [List.reverse_cons, List.append_assoc] at hread
      refine .arguments hitem hnamed.any_eq_false hlines₁ hcomma hus hlines₂ (ih hread ?_)
      rwa [List.reverse_cons, List.append_assoc]

/-! ## Arguments of directives -/

section

open Running

variable {stop : Position} {mid : List Token} {saw : Bool}

theorem Returns.exists_eq {α : Type} {r : Except ParseError (Parsed α input)} {value : α}
    (h : Returns r value rest) : ∃ hs, r = .ok ⟨value, rest, hs⟩ := by
  obtain ⟨p, hp, rfl, rfl⟩ := h
  exact ⟨p.isSuffix, hp⟩

/-- Behind a name, an expression goes on with the arguments of a call. -/
theorem payloadBehindName_of_reads (stop : Position) {t : Token} {e : Expr}
    (ht : t.kind = .identifier) (h : Reads .expression (t :: us) e rest) :
    Legible us ∧ front us = .mark .lparen ∧
      ∃ hs, payloadBehindName stop t us = .ok ⟨.expr e, rest, hs⟩ := by
  obtain ⟨c, mid, hcall, hcontinued⟩ := h.exists_call ht
  have hfront := hcall.front_call
  obtain ⟨hs, hcall : call stop t us = _⟩ := hcall.parse stop
  obtain ⟨hs', hcontinued : continued stop c mid = _⟩ := hcontinued.parse stop
  refine ⟨by rw [Legible, hfront]; decide, hfront, hs'.trans hs, ?_⟩
  rw [payloadBehindName, if_pos hfront]
  simp only [hcall, hcontinued, ok_bind]
  rfl

theorem payload_of_reads (stop : Position) {e : Expr} (h : Reads .expression input e rest) :
    Returns (payload stop input) (.expr e) rest := by
  cases input with
  | nil => exact absurd rfl (h.ne_nil rfl)
  | cons t us =>
      have hbrace : t.kind ≠ .mark .lbrace := h.front_ne rfl rfl
      by_cases ht : t.kind = .identifier
      · obtain ⟨hus, -, hs, hname⟩ := payloadBehindName_of_reads stop ht h
        refine ⟨⟨_, _, hs.trans (List.suffix_cons _ _)⟩, ?_, rfl, rfl⟩
        rw [payload, if_neg hbrace, if_pos ht]
        simp only [hus.onto, hname, ok_bind]
        rfl
      · obtain ⟨hs, h : expression stop (t :: us) = _⟩ := h.parse stop
        refine ⟨⟨_, _, hs⟩, ?_, rfl, rfl⟩
        rw [payload, if_neg hbrace, if_neg ht]
        simp only [h, ok_bind]
        rfl

theorem directiveArg_of_payload {value : Payload} (hfront : front input ≠ .identifier)
    (h : Returns (payload stop input) value rest) :
    Returns (directiveArg stop input) ⟨none, value⟩ rest := by
  obtain ⟨hs, h⟩ := h.exists_eq
  refine ⟨⟨_, _, hs⟩, ?_, rfl, rfl⟩
  match input with
  | [] | [t] =>
      simp only [directiveArg, h, ok_bind]
      rfl
  | t :: u :: vs =>
      rw [directiveArg, if_neg (show t.kind ≠ _ from hfront), h]
      rfl

/-- An expression is an argument of a directive without a keyword. -/
theorem directiveArg_of_reads {e : Expr} (h : Reads .expression input e rest) :
    Returns (directiveArg stop input) ⟨none, .expr e⟩ rest := by
  by_cases hfront : front input = .identifier
  · match input with
    | [] => cases hfront
    | t :: us =>
        obtain ⟨hus, hparen, hs, hname⟩ := payloadBehindName_of_reads stop hfront h
        match us with
        | [] => cases hparen
        | u :: vs =>
            have hassign : u.kind ≠ .mark .assign := by
              rw [show u.kind = .mark .lparen from hparen]
              decide
            refine ⟨⟨_, _, hs.trans (List.suffix_cons _ _)⟩, ?_, rfl, rfl⟩
            rw [directiveArg, if_pos (show t.kind = _ from hfront), hus.onto]
            simp only [if_neg hassign, hname, ok_bind]
            rfl
  · exact directiveArg_of_payload hfront (payload_of_reads stop h)

theorem directiveArg_of_named {t u : Token} {vs in₁ : List Token} {e : Expr}
    (ht : t.kind = .identifier) (hu : u.kind = .mark .assign) (hvs : Legible vs)
    (hlines : Lines vs saw in₁) (h : Reads .expression in₁ e rest) :
    Returns (directiveArg stop (t :: u :: vs)) ⟨some t.text, .expr e⟩ rest := by
  obtain ⟨hl, hlines⟩ := hlines.skipLines
  obtain ⟨hs, h⟩ := (payload_of_reads stop h).exists_eq
  have hus : Legible (u :: vs) := by rw [Legible, front, hu]; decide
  refine ⟨⟨_, _, hs.trans (hl.trans ((List.suffix_cons _ _).trans (List.suffix_cons _ _)))⟩, ?_,
    rfl, rfl⟩
  rw [directiveArg, if_pos ht, hus.onto]
  simp only [if_pos hu, hvs.onto, hlines, h, ok_bind]
  rfl

theorem front_ne_of_directiveArg {arg : Argument Payload}
    (h : Returns (directiveArg stop input) arg mid) : front input ≠ .mark .rparen := by
  intro hfront
  obtain ⟨p, hp, -, -⟩ := h
  -- such a token is neither a name nor a brace, so an expression is read
  have hpayload (p : Parsed Payload input) (hp : payload stop input = .ok p) : False := by
    cases input with
    | nil => cases hfront
    | cons t us =>
        have ht : t.kind = .mark .rparen := hfront
        rw [payload, ht] at hp
        obtain ⟨e, he, -⟩ := bind_eq_ok hp
        exact (reads_expression he).front_ne rfl rfl hfront
  rcases input with _ | ⟨t, _ | ⟨u, vs⟩⟩
  · cases hfront
  · simp only [directiveArg] at hp
    obtain ⟨value, hvalue, -⟩ := bind_eq_ok hp
    exact hpayload value hvalue
  · have ht : t.kind ≠ .identifier := by
      rw [show t.kind = .mark .rparen from hfront]
      decide
    rw [directiveArg, if_neg ht] at hp
    obtain ⟨value, hvalue, -⟩ := bind_eq_ok hp
    exact hpayload value hvalue

theorem directiveArgs_last {done : List (Argument Payload)} {arg : Argument Payload} {paren : Token}
    (harg : Returns (directiveArg stop input) arg mid) (hlines : Lines mid saw (paren :: rest))
    (hparen : paren.kind = .mark .rparen) (hrest : Legible rest) :
    Returns (directiveArgs stop done input) (arg :: done).reverse rest := by
  have hfront := front_ne_of_directiveArg harg
  obtain ⟨hs, harg⟩ := harg.exists_eq
  obtain ⟨hl, hlines⟩ := hlines.skipLines
  refine ⟨⟨_, _, (List.suffix_cons _ _).trans (hl.trans hs)⟩, ?_, rfl, rfl⟩
  rw [directiveArgs, if_neg hfront]
  simp only [harg, hlines, hparen, hrest.onto, ok_bind]
  rfl

theorem directiveArgs_more {done args : List (Argument Payload)} {arg : Argument Payload}
    {comma : Token} {in₁ : List Token} {saw' : Bool}
    (harg : Returns (directiveArg stop input) arg mid) (hlines : Lines mid saw (comma :: us))
    (hcomma : comma.kind = .mark .comma) (hus : Legible us) (hlines' : Lines us saw' in₁)
    (hargs : Returns (directiveArgs stop (arg :: done) in₁) args rest) :
    Returns (directiveArgs stop done input) args rest := by
  have hfront := front_ne_of_directiveArg harg
  obtain ⟨hs, harg⟩ := harg.exists_eq
  obtain ⟨hl, hlines⟩ := hlines.skipLines
  obtain ⟨hl', hlines'⟩ := hlines'.skipLines
  obtain ⟨hs', hargs⟩ := hargs.exists_eq
  refine ⟨⟨_, _, hs'.trans (hl'.trans ((List.suffix_cons _ _).trans (hl.trans hs)))⟩, ?_, rfl, rfl⟩
  rw [directiveArgs, if_neg hfront]
  simp only [harg, hlines, if_pos hcomma, hus.onto, hlines', hargs, ok_bind]
  rfl

/-- Arguments that were read before do not matter to a directive, but stand in front. -/
theorem directiveArgs_behind {input rest : List Token} {done args : List (Argument Payload)}
    (h : Returns (directiveArgs stop done input) args rest) (earlier : List (Argument Payload)) :
    Returns (directiveArgs stop (done ++ earlier) input) (earlier.reverse ++ args) rest := by
  obtain ⟨p, hp, hvalue, hrest⟩ := h
  rw [directiveArgs] at hp
  split at hp
  · rename_i hfront
    obtain ⟨paren, hparen, hp⟩ := bind_eq_ok hp
    cases hp
    refine ⟨paren.map fun _ => (done ++ earlier).reverse, ?_, ?_, hrest⟩
    · rw [directiveArgs, if_pos hfront, hparen]
      rfl
    · subst hvalue
      exact List.reverse_append
  · obtain ⟨arg, harg, hp⟩ := bind_eq_ok hp
    have := arg.length_le
    obtain ⟨lines, hlines, hp⟩ := bind_eq_ok hp
    split at hp
    · rename_i saw' c us left
      have : us.length < arg.rest.length := left.length_le
      have hlines := lines_of_skipLines hlines
      split at hp
      · rename_i hcomma
        obtain ⟨_, hus, hp⟩ := bind_eq_ok hp
        obtain ⟨lines', hlines', hp⟩ := bind_eq_ok hp
        have := lines'.length_le
        obtain ⟨all, hall, hp⟩ := bind_eq_ok hp
        cases hp
        have hall : Returns (directiveArgs stop (arg.value :: done) lines'.rest) args rest :=
          ⟨_, hall, hvalue, hrest⟩
        exact directiveArgs_more ⟨_, harg, rfl, rfl⟩ hlines hcomma (legible_of_onto hus)
          (lines_of_skipLines hlines') (directiveArgs_behind hall earlier)
      · split at hp
        · rename_i hparen
          obtain ⟨_, hus, hp⟩ := bind_eq_ok hp
          cases hp
          subst hvalue hrest
          have hlast : Returns (directiveArgs stop (done ++ earlier) input) _ us :=
            directiveArgs_last ⟨_, harg, rfl, rfl⟩ hlines hparen (legible_of_onto hus)
          rwa [← List.cons_append, List.reverse_append] at hlast
        · cases hp
    · cases hp
termination_by input.length

theorem Earlier.directiveArgs {before args done : List (Argument Payload)}
    (h : Earlier (fun us arg mid => Returns (directiveArg stop us) arg mid) input before mid)
    (hread : Returns (Parse.directiveArgs stop (before.reverse ++ done) mid) args rest) :
    Returns (Parse.directiveArgs stop done input) args rest := by
  induction h generalizing done with
  | nil input => exact hread
  | cons hitem hlines₁ hcomma hus hlines₂ _ ih =>
      rw [List.reverse_cons, List.append_assoc] at hread
      exact directiveArgs_more hitem hlines₁ hcomma hus hlines₂ (ih hread)

end

/-! ## Every context -/

section

variable {stop : Position} {E : List Token} {t : Expr}

/-- Reads tokens that are an expression as a whole, with line ends and comments around. -/
def wholeExpression (stop : Position) (tokens : List Token) : Except ParseError Expr := do
  onto tokens
  let lines ← skipLines tokens
  let e ← expression stop lines.rest
  let lines' ← skipLines e.rest
  match lines'.rest with
  | [] => return e.value
  | rest => throw (unexpected stop (.token .eof) rest)

theorem parseExpression_eq (text : String) :
    parseExpression text =
      wholeExpression (TokenList.ofText text).stop (TokenList.ofText text).tokens :=
  rfl

/-- Neither the first nor the last token is a line end or a comment. -/
def Trimmed (E : List Token) : Prop :=
  ∀ u, u ∈ E.head? ∨ u ∈ E.getLast? → u.kind ≠ .eol ∧ u.kind ≠ .comment

/-- The tokens `E` as an argument, bare or behind a keyword. -/
inductive AsArgument (E : List Token) : Option String → List Token → List Token → Prop
  | bare (after : List Token) : AsArgument E none (E ++ after) after
  | named {key assign : Token} {us after : List Token} {saw : Bool}
      (hkey : key.kind = .identifier) (hassign : assign.kind = .mark .assign) (hus : Legible us)
      (hlines : Lines us saw (E ++ after)) :
      AsArgument E (some key.text) (key :: assign :: us) after

/-- The tokens `E` are read as `t` wherever an expression may stand. -/
structure ReadAnywhere (stop : Position) (E : List Token) (t : Expr) : Prop where
  /-- The value of an option. -/
  option : ∀ {name assign : Token} {leading : List String} {after : List Token}
    {trailing : Parsed (Option String) after} {line : Parsed Unit trailing.rest},
    assign.kind = .mark .assign → trailingComment after = .ok trailing →
    endOfItem stop trailing.rest = .ok line →
    Returns (field stop name leading (assign :: (E ++ after)))
      (.option ⟨name.text, t, ⟨leading, trailing.value⟩, name.position⟩) line.rest
  /-- In parentheses. -/
  group : ∀ {lparen rparen : Token} {us mid rest : List Token} {saw saw' : Bool},
    lparen.kind = .mark .lparen → Lines us saw (E ++ mid) → Lines mid saw' (rparen :: rest) →
    rparen.kind = .mark .rparen → Legible rest → Returns (primary stop (lparen :: us)) t rest
  /-- The index of any expression, with what may follow the index. -/
  index : ∀ {lbracket rbracket : Token} {us mid behind rest : List Token} {saw saw' : Bool}
    {target e : Expr}, lbracket.kind = .mark .lbracket → Lines us saw (E ++ mid) →
    Lines mid saw' (rbracket :: behind) → rbracket.kind = .mark .rbracket → Legible behind →
    Returns (postfixes stop (.index target t) behind) e rest →
    Returns (postfixes stop target (lbracket :: us)) e rest
  /-- An element of an array, at any place in it. -/
  element : ∀ {lbracket : Token} {us in₁ mid rest : List Token} {saw : Bool}
    {before after : List Expr}, lbracket.kind = .mark .lbracket → Legible us → Lines us saw in₁ →
    Earlier (fun us e mid => Returns (expression stop us) e mid) in₁ before (E ++ mid) →
    Later (.mark .rbracket) (fun saw us items rest =>
      -- behind the comma after the last element the line has to end
      (front us = .mark .rbracket → saw = true) ∧ Returns (elements stop [] us) items rest)
      mid after rest →
    Returns (primary stop (lbracket :: us)) (.array (before ++ t :: after)) rest
  /-- An argument of a call, at any place among them. -/
  argument : ∀ {name lparen : Token} {us in₁ arg mid rest : List Token} {saw : Bool}
    {key : Option String} {before after : List (Argument Expr)}, name.kind = .identifier →
    lparen.kind = .mark .lparen → Legible us → Lines us saw in₁ →
    Earlier (fun us a mid => Returns (Parse.argument stop us) a mid) in₁ before arg →
    AsArgument E key arg mid →
    Later (.mark .rparen) (fun _ us args rest => Returns (arguments stop [] us) args rest)
      mid after rest →
    NamedLast (before ++ ⟨key, t⟩ :: after) →
    Returns (primary stop (name :: lparen :: us))
      (.call name.text (before ++ ⟨key, t⟩ :: after) name.position) rest
  /-- An argument of a directive, at any place among them. -/
  directiveArgument : ∀ {name lparen : Token} {kind : DirectiveKind} {offset : Nat}
    {us in₁ arg mid rest : List Token} {saw : Bool} {key : Option String}
    {before after : List (Argument Payload)}, DirectiveKind.ofName? name.text = some kind →
    lparen.kind = .mark .lparen → Legible us → Lines us saw in₁ →
    Earlier (fun us a mid => Returns (directiveArg stop us) a mid) in₁ before arg →
    AsArgument E key arg mid →
    Later (.mark .rparen) (fun _ us args rest => Returns (directiveArgs stop [] us) args rest)
      mid after rest →
    Returns (directive stop name offset (lparen :: us))
      ⟨kind, before ++ ⟨key, .expr t⟩ :: after, name.position, offset⟩ rest

open Running

theorem Lines.eq_of_front {saw : Bool} (h : Lines input saw rest) (heol : front input ≠ .eol)
    (hcomment : front input ≠ .comment) : rest = input := by
  cases h with
  | none => rfl
  | line hkind => exact absurd hkind heol
  | comment hkind => exact absurd hkind hcomment

theorem Lines.getLast?_blank {saw : Bool} (h : Lines input saw rest) (hrest : rest = [])
    (hinput : input ≠ []) : ∃ u ∈ input.getLast?, u.kind = .eol ∨ u.kind = .comment := by
  have step {t : Token} {us : List Token} (ht : t.kind = .eol ∨ t.kind = .comment)
      (ih : us ≠ [] → ∃ u ∈ us.getLast?, u.kind = .eol ∨ u.kind = .comment) :
      ∃ u ∈ (t :: us).getLast?, u.kind = .eol ∨ u.kind = .comment := by
    cases us with
    | nil => exact ⟨t, rfl, ht⟩
    | cons u us =>
        rw [List.getLast?_cons_cons]
        exact ih (List.cons_ne_nil _ _)
  induction h with
  | none => exact absurd hrest hinput
  | line hkind _ _ ih => exact step (.inl hkind) (ih hrest)
  | comment hkind _ _ ih => exact step (.inr hkind) (ih hrest)

/-- An expression as a whole is one with line ends and comments around. -/
theorem wholeExpression_iff : wholeExpression stop E = .ok t ↔ Legible E ∧
    ∃ saw saw' in₁ mid, Lines E saw in₁ ∧ Reads .expression in₁ t mid ∧ Lines mid saw' [] := by
  constructor
  · intro h
    obtain ⟨_, hE, h⟩ := bind_eq_ok h
    obtain ⟨lines, hlines, h⟩ := bind_eq_ok h
    obtain ⟨e, he, h⟩ := bind_eq_ok h
    obtain ⟨lines', hlines', h⟩ := bind_eq_ok h
    split at h
    · rename_i hrest
      cases h
      exact ⟨legible_of_onto hE, _, _, _, _, lines_of_skipLines hlines, reads_expression he,
        hrest ▸ lines_of_skipLines hlines'⟩
    · cases h
  · rintro ⟨hE, saw, saw', in₁, mid, hlines, he, hlines'⟩
    obtain ⟨_, hlines⟩ := hlines.skipLines
    obtain ⟨_, hread : expression stop in₁ = _⟩ := he.parse stop
    obtain ⟨_, hlines'⟩ := hlines'.skipLines
    rw [wholeExpression, hE.onto]
    simp only [hlines, hread, hlines', ok_bind]
    rfl

/-- A trimmed expression is read up to its last token. -/
theorem reads_of_wholeExpression (h : wholeExpression stop E = .ok t) (htrim : Trimmed E) :
    Reads .expression E t [] := by
  obtain ⟨-, _, _, in₁, mid, hlines, he, hlines'⟩ := wholeExpression_iff.mp h
  have hfront : front E ≠ .eol ∧ front E ≠ .comment := by
    cases E with
    | nil => exact ⟨nofun, nofun⟩
    | cons u us => exact htrim u (.inl rfl)
  obtain rfl := hlines.eq_of_front hfront.1 hfront.2
  have hend : mid = [] := by
    by_contra hne
    obtain ⟨u, hu, hkind⟩ := hlines'.getLast?_blank rfl hne
    obtain ⟨hs, -⟩ := he.parse stop
    obtain ⟨before, hbefore⟩ := hs
    have hlast := htrim u (.inr (by rw [← hbefore, List.getLast?_append, hu]; rfl))
    exact hkind.elim hlast.1 hlast.2
  subst hend
  exact he

theorem wholeExpression_of_reads (h : Reads .expression E t []) :
    wholeExpression stop E = .ok t :=
  wholeExpression_iff.mpr ⟨h.front_ne rfl rfl, false, false, E, [],
    .none (h.front_ne rfl rfl) (h.front_ne rfl rfl), h, .none nofun nofun⟩

theorem closes_of_endOfItem {trailing : Parsed (Option String) after}
    {line : Parsed Unit trailing.rest} (htrailing : trailingComment after = .ok trailing)
    (hline : endOfItem stop trailing.rest = .ok line) : Closes after := by
  cases after with
  | nil => exact closes_of_kind .eof rfl (by decide)
  | cons u us =>
      rw [trailingComment] at htrailing
      split at htrailing
      · exact closes_of_kind .comment (by assumption) (by decide)
      · cases htrailing
        change endOfItem stop (u :: us) = .ok line at hline
        rw [endOfItem] at hline
        split at hline
        · exact closes_of_kind .eol (by assumption) (by decide)
        · split at hline
          · exact closes_of_kind (.mark .rbrace) (by assumption) (by decide)
          · cases hline

theorem Reads.asOption (h : Reads .expression E t []) {name assign : Token} {leading : List String}
    {trailing : Parsed (Option String) after} {line : Parsed Unit trailing.rest}
    (hassign : assign.kind = .mark .assign) (htrailing : trailingComment after = .ok trailing)
    (hline : endOfItem stop trailing.rest = .ok line) :
    Returns (field stop name leading (assign :: (E ++ after)))
      (.option ⟨name.text, t, ⟨leading, trailing.value⟩, name.position⟩) line.rest := by
  have hread := h.closed (closes_of_endOfItem htrailing hline)
  have hE : Legible (E ++ after) := hread.front_ne rfl rfl
  have hlegible : Legible (assign :: (E ++ after)) := by rw [Legible, front, hassign]; decide
  obtain ⟨hs, hread : Parse.expression stop (E ++ after) = _⟩ := hread.parse stop
  refine ⟨⟨_, _, line.isSuffix.trans (trailing.isSuffix.trans (hs.trans (List.suffix_cons _ _)))⟩,
    ?_, rfl, rfl⟩
  rw [field, hlegible.onto]
  simp only [if_pos hassign, hE.onto, hread, htrailing, hline, ok_bind]
  rfl

theorem AsArgument.reads {key : Option String} {arg : List Token} (h : AsArgument E key arg after)
    (hE : Reads .expression E t []) (hafter : Closes after) :
    Reads .argument arg ⟨key, t⟩ after := by
  cases h with
  | bare => exact (hE.closed hafter).toArgument
  | named hkey hassign hus hlines => exact .keyword hkey hassign hus hlines (hE.closed hafter)

theorem AsArgument.directiveArg (stop : Position) {key : Option String} {arg : List Token}
    (h : AsArgument E key arg after) (hE : Reads .expression E t []) (hafter : Closes after) :
    Returns (Parse.directiveArg stop arg) ⟨key, .expr t⟩ after := by
  cases h with
  | bare => exact directiveArg_of_reads (hE.closed hafter)
  | named hkey hassign hus hlines =>
      exact directiveArg_of_named hkey hassign hus hlines (hE.closed hafter)

theorem Reads.asElement (h : Reads .expression E t []) {mid : List Token} {before after : List Expr}
    (hbefore : Earlier (fun us e mid => Returns (Parse.expression stop us) e mid) input before
      (E ++ mid))
    (hafter : Later (.mark .rbracket) (fun saw us items rest =>
      (front us = .mark .rbracket → saw = true) ∧ Returns (Parse.elements stop [] us) items rest)
      mid after rest) :
    Reads (.elements []) input (before ++ t :: after) rest := by
  have hread := h.closed (hafter.closes (.inr rfl))
  have hmid : front (E ++ mid) ≠ .mark .rbracket := hread.front_ne rfl rfl
  have hall : Reads (.elements before.reverse) (E ++ mid) (before ++ t :: after) rest := by
    cases hafter with
    | close hlines hkind hrest =>
        have hlast : Reads (.elements before.reverse) _ _ _ :=
          .lastElement hread hlines hkind hrest
        rwa [List.reverse_cons, List.reverse_reverse] at hlast
    | comma hlines₁ hcomma hus hlines₂ hmore =>
        have hitems := ((returns_iff_reads (.elements [])).mp hmore.2).behind (t :: before.reverse)
        rw [List.nil_append, List.reverse_cons, List.reverse_reverse, List.append_assoc] at hitems
        exact .element hread hlines₁ hcomma hus hlines₂ hmore.1 hitems
  have hearlier : Earlier (Reads .expression) input before (E ++ mid) :=
    hbefore.mono (returns_iff_reads .expression).mp
  exact hearlier.elements (by rwa [List.append_nil]) hmid

theorem Reads.asArgument (h : Reads .expression E t []) {arg mid : List Token}
    {key : Option String} {before after : List (Argument Expr)}
    (hbefore : Earlier (fun us a mid => Returns (Parse.argument stop us) a mid) input before arg)
    (harg : AsArgument E key arg mid)
    (hafter : Later (.mark .rparen) (fun _ us args rest =>
      Returns (Parse.arguments stop [] us) args rest) mid after rest)
    (hnamed : NamedLast (before ++ ⟨key, t⟩ :: after)) :
    Reads (.arguments []) input (before ++ ⟨key, t⟩ :: after) rest := by
  have hread := harg.reads h (hafter.closes (.inl rfl))
  have hdone (hnone : key.isNone) : before.reverse.any (·.name.isSome) = false :=
    NamedLast.any_eq_false (by rwa [List.reverse_reverse]) hnone
  have hall : Reads (.arguments before.reverse) arg (before ++ ⟨key, t⟩ :: after) rest := by
    cases hafter with
    | close hlines hkind hrest =>
        have hlast : Reads (.arguments before.reverse) _ _ _ :=
          .lastArgument hread hdone hlines hkind hrest
        rwa [List.reverse_cons, List.reverse_reverse] at hlast
    | comma hlines₁ hcomma hus hlines₂ hmore =>
        have hargs := ((returns_iff_reads (.arguments [])).mp hmore).behind.2
          (⟨key, t⟩ :: before.reverse)
        rw [List.nil_append, List.reverse_cons, List.reverse_reverse, List.append_assoc] at hargs
        exact .arguments hread hdone hlines₁ hcomma hus hlines₂ (hargs hnamed)
  have hearlier : Earlier (Reads .argument) input before arg :=
    hbefore.mono (returns_iff_reads .argument).mp
  refine hearlier.arguments (by rwa [List.append_nil]) ?_
  exact (List.pairwise_append.mp hnamed).1

theorem directiveArgs_of_reads (h : Reads .expression E t []) {arg mid : List Token}
    {key : Option String} {before after : List (Argument Payload)}
    (hbefore : Earlier (fun us a mid => Returns (Parse.directiveArg stop us) a mid) input before
      arg)
    (harg : AsArgument E key arg mid)
    (hafter : Later (.mark .rparen) (fun _ us args rest =>
      Returns (directiveArgs stop [] us) args rest) mid after rest) :
    Returns (directiveArgs stop [] input) (before ++ ⟨key, .expr t⟩ :: after) rest := by
  have hread := harg.directiveArg stop h (hafter.closes (.inl rfl))
  have hall : Returns (directiveArgs stop before.reverse arg)
      (before ++ ⟨key, .expr t⟩ :: after) rest := by
    cases hafter with
    | close hlines hkind hrest =>
        have hlast : Returns (directiveArgs stop before.reverse arg) _ _ :=
          directiveArgs_last hread hlines hkind hrest
        rwa [List.reverse_cons, List.reverse_reverse] at hlast
    | comma hlines₁ hcomma hus hlines₂ hmore =>
        have hargs := directiveArgs_behind hmore (⟨key, .expr t⟩ :: before.reverse)
        rw [List.nil_append, List.reverse_cons, List.reverse_reverse, List.append_assoc] at hargs
        exact directiveArgs_more hread hlines₁ hcomma hus hlines₂ hargs
  exact hbefore.directiveArgs (by rwa [List.append_nil])

/-- **An expression is read the same in every context**, its tokens and so its positions too. -/
theorem readAnywhere (h : wholeExpression stop E = .ok t) (htrim : Trimmed E) (stop' : Position) :
    ReadAnywhere stop' E t := by
  have h := reads_of_wholeExpression h htrim
  constructor
  case option =>
    intro name assign leading after trailing line hassign htrailing hline
    exact h.asOption hassign htrailing hline
  case group =>
    intro lparen rparen us mid rest saw saw' hlparen hus hmid hrparen hrest
    have hread := h.closed (hmid.closes (closes_of_kind _ hrparen (by decide)))
    have hlegible : Legible us := hus.legible (hread.front_ne rfl rfl)
    exact (returns_iff_reads .primary).mpr (.group hlparen hlegible hus hread hmid hrparen hrest)
  case index =>
    intro lbracket rbracket us mid behind rest saw saw' target e hlbracket hus hmid hrbracket
      hbehind hindexes
    have hread := h.closed (hmid.closes (closes_of_kind _ hrbracket (by decide)))
    have hlegible : Legible us := hus.legible (hread.front_ne rfl rfl)
    have hindexes := (returns_iff_reads (.indexes _)).mp hindexes
    exact (returns_iff_reads (.indexes _)).mpr
      (.index hlbracket hlegible hus hread hmid hrbracket hbehind hindexes)
  case element =>
    intro lbracket us in₁ mid rest saw before after hlbracket hus hlines hbefore hafter
    exact (returns_iff_reads .primary).mpr
      (.array hlbracket hus hlines (h.asElement hbefore hafter))
  case argument =>
    intro name lparen us in₁ arg mid rest saw key before after hname hlparen hus hlines hbefore
      harg hafter hnamed
    exact (returns_iff_reads .primary).mpr
      (.called hname (.call hlparen hus hlines (h.asArgument hbefore harg hafter hnamed)))
  case directiveArgument =>
    intro name lparen kind offset us in₁ arg mid rest saw key before after hkind hlparen hus
      hlines hbefore harg hafter
    obtain ⟨hl, hlines⟩ := hlines.skipLines
    obtain ⟨hs, hargs⟩ := (directiveArgs_of_reads h hbefore harg hafter).exists_eq
    have hlegible : Legible (lparen :: us) := by rw [Legible, front, hlparen]; decide
    refine ⟨⟨_, _, hs.trans (hl.trans (List.suffix_cons _ _))⟩, ?_, rfl, rfl⟩
    rw [directive, hlegible.onto]
    simp only [hkind, expect_of_kind hlparen hus, hlines, hargs, ok_bind]
    rfl

/-- `f() ** $a` is read the same as an argument of the call `g(f() ** $a)`. -/
theorem readAnywhere_of_call :
    let lparen : Token := ⟨.mark .lparen, "(", .start⟩
    let rparen : Token := ⟨.mark .rparen, ")", .start⟩
    let power : Token := ⟨.mark .pow, "**", .start⟩
    let var : Token := ⟨.localVar, "a", .start⟩
    let name (s : String) : Token := ⟨.identifier, s, .start⟩
    let E := [name "f", lparen, rparen, power, var]
    let t : Expr := .binary .pow (.call "f" [] .start) (.var .enclosing "a" .start)
    wholeExpression .start E = .ok t ∧ Trimmed E ∧
      Returns (primary .start (name "g" :: lparen :: (E ++ [rparen])))
        (.call "g" [⟨none, t⟩] .start) [] := by
  intro lparen rparen power var name E t
  have hcall : Reads (.call (name "f")) [lparen, rparen, power, var] (.call "f" [] .start)
      [power, var] :=
    .call rfl nofun (.none nofun nofun) (.noArgument rfl nofun)
  have hpower : Reads (.operation BinaryOp.pow.rightPower) [var] (.var .enclosing "a" .start) [] :=
    .operation (.operand (.localVar rfl nofun) (.noIndex nofun))
      (.noOperation fun op hop => by cases hop)
  have hcondition : Reads (.operation 1) E t [] :=
    .operation (.operand (.called rfl hcall) (.noIndex nofun))
      (.operations rfl (by decide) nofun (.none nofun nofun) hpower
        (.noOperation fun op hop => by cases hop))
  have hE : Reads .expression E t [] := .expression hcondition (.noChoice nofun)
  have hwhole : wholeExpression .start E = .ok t := wholeExpression_of_reads hE
  have htrim : Trimmed E := by
    rintro u (hu | hu) <;> cases hu <;> exact ⟨nofun, nofun⟩
  refine ⟨hwhole, htrim, ?_⟩
  have hus : Lines (E ++ [rparen]) false (E ++ [rparen]) := .none nofun nofun
  have hmid : Lines [rparen] false [rparen] := .none nofun nofun
  have hlegible : Legible (E ++ [rparen]) := nofun
  exact (readAnywhere hwhole htrim .start).argument rfl rfl hlegible hus (.nil _) (.bare [rparen])
    (.close hmid rfl nofun) (List.pairwise_singleton _ _)

end

end

end ConfigLang.Parse
