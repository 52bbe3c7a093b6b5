import Mathlib
import ConfigLang.Proofs.Parse.Layout

/-!
# The grammar by pieces

`Parse.Reads` and `Parse.Builds` follow the parsers through the tokens that are left.  Here the
grammar is written down the way a manual does it, by the pieces that tokens are put together from
(`Phrase`).  Arrays, calls and directives are three kinds of one `Listing`: items with one comma
between two of them, and line ends and comments wherever a list goes on.

They differ in what an item is, and in whether a comma may stand behind the last one.  In an array
it may if the line ends there.  A call and a directive let it stand anyway, which the grammar of the
manual does not; `lax` says which of the two is meant.

Whatever is read is a phrase (`Reads.exists_phrase`, `Builds.exists_phrase`).

## Strategy

Both proofs are by induction on what is read.  A form may go on with something that has been read
before, such as the left operand of an operation or the items at the start of a list, and then the
piece is only the end of a phrase: `Form.Writes` and `Part.Writes` say of what.

* **Gaps.**  Lines that are skipped are a `Gap` (`Lines.exists_gap`), and what stands behind a field
  up to the end of its line is an `Aside` (`Trailing.exists_aside`).
* **Lists.**  The three lists are written from their end to their start, by one lemma for each rule:
  `Listing.written_close`, `Listing.written_last`, `Listing.written_more`.
* **Bodies.**  A field needs the end of its line only if another item comes behind it
  (`EndsItem.exists_ending`, `EndedField.body`).
-/

namespace ConfigLang.Parse

/-! ## Pieces -/

/-- Line ends and comments alone. -/
def Gap (tokens : List Token) : Prop :=
  ∀ t ∈ tokens, t.kind = .eol ∨ t.kind = .comment

/-- At most one comment. -/
inductive Aside : List Token → Prop
  | none : Aside []
  | some {t : Token} (hkind : t.kind = .comment) : Aside [t]

/-- What may stand between the name of an object and its brace: a label or nothing. -/
inductive Labels : List Token → Prop
  | none : Labels []
  | some {t : Token} (hkind : t.kind = .identifier) : Labels [t]

/-- The lists that items are written in. -/
inductive Listing where
  | array
  | call
  | directive
deriving DecidableEq

namespace Listing

/-- What a list starts with. -/
def opener : Listing → Kind
  | array => .mark .lbracket
  | call | directive => .mark .lparen

/-- What a list ends with. -/
def closer : Listing → Kind
  | array => .mark .rbracket
  | call | directive => .mark .rparen

/-- Whether a comma may stand behind the last item, with `gap` between it and the end. -/
def MayTrail (lax : Bool) (gap : List Token) : Listing → Prop
  | array => ∃ t ∈ gap, t.kind = .eol
  | call | directive => lax = true

end Listing

/-- What a piece is. -/
inductive Shape where
  | expression
  /-- Operands with prefix operators in front and infix operators between them. -/
  | row
  /-- A primary expression with its indexes. -/
  | indexed
  | primary
  | listing (l : Listing)
  /-- The items of a list that are left, with its end; `named` says whether the item before them
  has a keyword. -/
  | items (l : Listing) (named : Bool)
  /-- An item, with a keyword or without. -/
  | item (l : Listing) (named : Bool)
  /-- What is behind an item, with the end of the list. -/
  | tail (l : Listing) (named : Bool)
  /-- An item without its keyword. -/
  | value (l : Listing)
  | body
  /-- An option, an object or a directive. -/
  | field

/-- The pieces of each shape. Where `lax` is true, the last item of a call and of a directive may
have a comma behind it. -/
inductive Phrase (lax : Bool) : Shape → List Token → Prop
  | row {xs : List Token} (h : Phrase lax .row xs) : Phrase lax .expression xs
  | choice {xs ys zs g₁ g₂ g₃ : List Token} {t colon : Token} (hxs : Phrase lax .row xs)
      (hkind : t.kind = .mark .question) (hg₁ : Gap g₁) (hys : Phrase lax .expression ys)
      (hg₂ : Gap g₂) (hcolon : colon.kind = .mark .colon) (hg₃ : Gap g₃)
      (hzs : Phrase lax .expression zs) :
      Phrase lax .expression (xs ++ t :: (g₁ ++ (ys ++ (g₂ ++ colon :: (g₃ ++ zs)))))
  | operand {xs : List Token} (h : Phrase lax .indexed xs) : Phrase lax .row xs
  | sign {xs : List Token} {t : Token} {op : UnaryOp} (hop : UnaryOp.ofKind? t.kind = some op)
      (hxs : Phrase lax .row xs) : Phrase lax .row (t :: xs)
  | link {xs ys g : List Token} {t : Token} {op : BinaryOp} (hxs : Phrase lax .row xs)
      (hop : BinaryOp.ofKind? t.kind = some op) (hg : Gap g) (hys : Phrase lax .row ys) :
      Phrase lax .row (xs ++ t :: (g ++ ys))
  | primary {xs : List Token} (h : Phrase lax .primary xs) : Phrase lax .indexed xs
  | index {xs ys g₁ g₂ : List Token} {t u : Token} (hxs : Phrase lax .indexed xs)
      (hopen : t.kind = .mark .lbracket) (hg₁ : Gap g₁) (hys : Phrase lax .expression ys)
      (hg₂ : Gap g₂) (hclose : u.kind = .mark .rbracket) :
      Phrase lax .indexed (xs ++ t :: (g₁ ++ (ys ++ (g₂ ++ [u]))))
  | literal {t : Token} {value : Value × Option UnitSuffix} (hkind : isLiteral t.kind = true)
      (hvalue : Literal.decode t.kind t.text = .ok value) : Phrase lax .primary [t]
  | var {t : Token} (hkind : t.kind = .localVar ∨ t.kind = .envVar) : Phrase lax .primary [t]
  | group {xs g₁ g₂ : List Token} {t u : Token} (hopen : t.kind = .mark .lparen) (hg₁ : Gap g₁)
      (hxs : Phrase lax .expression xs) (hg₂ : Gap g₂) (hclose : u.kind = .mark .rparen) :
      Phrase lax .primary (t :: (g₁ ++ (xs ++ (g₂ ++ [u]))))
  | array {xs : List Token} (h : Phrase lax (.listing .array) xs) : Phrase lax .primary xs
  | call {xs : List Token} {t : Token} (hkind : t.kind = .identifier)
      (hxs : Phrase lax (.listing .call) xs) : Phrase lax .primary (t :: xs)
  | empty {l : Listing} {g : List Token} {t u : Token} (hopen : t.kind = l.opener) (hg : Gap g)
      (hclose : u.kind = l.closer) : Phrase lax (.listing l) (t :: (g ++ [u]))
  | listing {l : Listing} {xs g : List Token} {t : Token} (hopen : t.kind = l.opener) (hg : Gap g)
      (hxs : Phrase lax (.items l false) xs) : Phrase lax (.listing l) (t :: (g ++ xs))
  | items {l : Listing} {xs ys : List Token} {named keyword : Bool}
      (hxs : Phrase lax (.item l keyword) xs)
      -- once an argument of a call has a keyword, the others have one too
      (hnamed : l = .call → named = true → keyword = true)
      (hys : Phrase lax (.tail l keyword) ys) : Phrase lax (.items l named) (xs ++ ys)
  | close {l : Listing} {g : List Token} {u : Token} {named : Bool} (hg : Gap g)
      (hclose : u.kind = l.closer) : Phrase lax (.tail l named) (g ++ [u])
  | comma {l : Listing} {xs g₁ g₂ : List Token} {t : Token} {named : Bool} (hg₁ : Gap g₁)
      (hcomma : t.kind = .mark .comma) (hg₂ : Gap g₂) (hxs : Phrase lax (.items l named) xs) :
      Phrase lax (.tail l named) (g₁ ++ t :: (g₂ ++ xs))
  | trailing {l : Listing} {g₁ g₂ : List Token} {t u : Token} {named : Bool} (hg₁ : Gap g₁)
      (hcomma : t.kind = .mark .comma) (hg₂ : Gap g₂) (hclose : u.kind = l.closer)
      (htrail : l.MayTrail lax g₂) : Phrase lax (.tail l named) (g₁ ++ t :: (g₂ ++ [u]))
  | bare {l : Listing} {xs : List Token} (h : Phrase lax (.value l) xs) :
      Phrase lax (.item l false) xs
  | keyword {l : Listing} {xs g : List Token} {t u : Token} (hl : l ≠ .array)
      (ht : t.kind = .identifier) (hu : u.kind = .mark .assign) (hg : Gap g)
      (hxs : Phrase lax (.value l) xs) : Phrase lax (.item l true) (t :: u :: (g ++ xs))
  | value {l : Listing} {xs : List Token} (h : Phrase lax .expression xs) :
      Phrase lax (.value l) xs
  | name {t : Token} (hkind : t.kind = .identifier) : Phrase lax (.value .directive) [t]
  | fragment {xs : List Token} {t u : Token} (hopen : t.kind = .mark .lbrace)
      (hxs : Phrase lax .body xs) (hclose : u.kind = .mark .rbrace) :
      Phrase lax (.value .directive) (t :: (xs ++ [u]))
  | nothing : Phrase lax .body []
  | blank {xs : List Token} {t : Token} (hkind : t.kind = .eol ∨ t.kind = .comment)
      (hxs : Phrase lax .body xs) : Phrase lax .body (t :: xs)
  | lastField {xs : List Token} (h : Phrase lax .field xs) : Phrase lax .body xs
  | field {xs ys : List Token} {t : Token} (hxs : Phrase lax .field xs) (hkind : t.kind = .eol)
      (hys : Phrase lax .body ys) : Phrase lax .body (xs ++ t :: ys)
  | option {xs aside : List Token} {name t : Token} (hname : name.kind = .identifier)
      (hkind : t.kind = .mark .assign) (hxs : Phrase lax .expression xs) (haside : Aside aside) :
      Phrase lax .field (name :: t :: (xs ++ aside))
  | object {xs label aside : List Token} {name t u : Token} (hname : name.kind = .identifier)
      (hlabel : Labels label) (hopen : t.kind = .mark .lbrace) (hxs : Phrase lax .body xs)
      (hclose : u.kind = .mark .rbrace) (haside : Aside aside) :
      Phrase lax .field (name :: (label ++ t :: (xs ++ u :: aside)))
  | directive {xs : List Token} {t : Token} {kind : DirectiveKind} (hkind : t.kind = .directive)
      (hname : DirectiveKind.ofName? t.text = some kind)
      (hxs : Phrase lax (.listing .directive) xs) : Phrase lax .field (t :: xs)

/-! ## Gaps -/

section

variable {input us rest : List Token} {saw : Bool}

theorem Lines.exists_gap (h : Lines input saw rest) :
    ∃ g, input = g ++ rest ∧ Gap g ∧ (saw = true → ∃ t ∈ g, t.kind = .eol) := by
  induction h with
  | none => exact ⟨[], rfl, nofun, nofun⟩
  | @line t us rest saw hkind hus _ ih =>
      obtain ⟨g, rfl, hg, -⟩ := ih
      exact ⟨t :: g, rfl, List.forall_mem_cons.mpr ⟨.inl hkind, hg⟩,
        fun _ => ⟨t, List.mem_cons_self, hkind⟩⟩
  | @comment t us rest saw hkind hus _ ih =>
      obtain ⟨g, rfl, hg, hsaw⟩ := ih
      refine ⟨t :: g, rfl, List.forall_mem_cons.mpr ⟨.inr hkind, hg⟩, fun h => ?_⟩
      obtain ⟨u, hu, heol⟩ := hsaw h
      exact ⟨u, List.mem_cons_of_mem t hu, heol⟩

theorem Trailing.exists_aside {trailing : Option String} (h : Trailing input trailing rest) :
    ∃ aside, input = aside ++ rest ∧ Aside aside := by
  cases h with
  | none => exact ⟨[], rfl, .none⟩
  | @some t us hkind => exact ⟨[t], rfl, .some hkind⟩

/-! ## Lists that are read -/

/-- What is read of a list is its end alone, or items with the end. -/
def Listing.Written (l : Listing) (lax : Bool) (named : Bool) (xs : List Token) : Prop :=
  (∃ u : Token, xs = [u] ∧ u.kind = l.closer) ∨ Phrase lax (.items l named) xs

namespace Listing

variable {l : Listing} {lax named keyword : Bool} {xs ys g g₁ g₂ : List Token} {t u : Token}

theorem written_close (hclose : u.kind = l.closer) : l.Written lax named [u] :=
  .inl ⟨u, rfl, hclose⟩

theorem written_last (hxs : Phrase lax (.item l keyword) xs)
    (hnamed : l = .call → named = true → keyword = true) (hg : Gap g)
    (hclose : u.kind = l.closer) : l.Written lax named (xs ++ (g ++ [u])) :=
  .inr (.items hxs hnamed (.close hg hclose))

theorem written_more (hxs : Phrase lax (.item l keyword) xs)
    (hnamed : l = .call → named = true → keyword = true) (hg₁ : Gap g₁)
    (hcomma : t.kind = .mark .comma) (hg₂ : Gap g₂)
    (htrail : ∀ u : Token, ys = [u] → u.kind = l.closer → l.MayTrail lax g₂)
    (hys : l.Written lax keyword ys) : l.Written lax named (xs ++ (g₁ ++ t :: (g₂ ++ ys))) := by
  refine .inr (.items hxs hnamed ?_)
  obtain ⟨u, rfl, hclose⟩ | hys := hys
  · exact .trailing hg₁ hcomma hg₂ hclose (htrail u rfl hclose)
  · exact .comma hg₁ hcomma hg₂ hys

theorem Written.listing (hopen : t.kind = l.opener) (hg : Gap g) (hxs : l.Written lax false xs) :
    Phrase lax (.listing l) (t :: (g ++ xs)) := by
  obtain ⟨u, rfl, hclose⟩ | hxs := hxs
  · exact .empty hopen hg hclose
  · exact .listing hopen hg hxs

end Listing

/-! ## What an expression is read of -/

/-- The tokens that are read in a form are a phrase, or go on with one. -/
def Form.Writes : (f : Form) → f.Result → List Token → Prop
  | expression, _, xs => Phrase true .expression xs
  | choice _, _, xs => ∀ ys, Phrase true .row ys → Phrase true .expression (ys ++ xs)
  | operations _ _, _, xs => ∀ ys, Phrase true .row ys → Phrase true .row (ys ++ xs)
  | operation _, _, xs | operand, _, xs => Phrase true .row xs
  | indexes _, _, xs => ∀ ys, Phrase true .indexed ys → Phrase true .indexed (ys ++ xs)
  | primary, _, xs => Phrase true .primary xs
  | elements _, _, xs => Listing.array.Written true false xs
  | call _, _, xs => Phrase true (.listing .call) xs
  | arguments done, _, xs => Listing.call.Written true (done.any (·.name.isSome)) xs
  | argument, arg, xs => Phrase true (.item .call arg.name.isSome) xs
  | continued _, _, xs => ∀ ys, Phrase true .primary ys → Phrase true .expression (ys ++ xs)

/-- **An expression is read of a phrase**, and so is every part of one. -/
theorem Reads.exists_phrase {f : Form} {v : f.Result} (h : Reads f input v rest) :
    ∃ xs, input = xs ++ rest ∧ f.Writes v xs := by
  induction h with
  | expression _ _ ih₁ ih₂ =>
      obtain ⟨xs, rfl, hxs⟩ := ih₁
      obtain ⟨ys, rfl, hys⟩ := ih₂
      exact ⟨xs ++ ys, by simp, hys xs hxs⟩
  | noChoice => exact ⟨[], rfl, fun ys hys => by simpa using Phrase.row hys⟩
  | @choice t colon us vs in₁ in₂ mid rest _ _ _ c yes no hkind _ hlines₁ _ hlines₂ hcolon _ hlines₃ _
      ih₁ ih₂ =>
      obtain ⟨g₁, rfl, hg₁, -⟩ := hlines₁.exists_gap
      obtain ⟨xs, rfl, hxs⟩ := ih₁
      obtain ⟨g₂, rfl, hg₂, -⟩ := hlines₂.exists_gap
      obtain ⟨g₃, rfl, hg₃, -⟩ := hlines₃.exists_gap
      obtain ⟨ys, rfl, hys⟩ := ih₂
      exact ⟨t :: (g₁ ++ (xs ++ (g₂ ++ colon :: (g₃ ++ ys)))), by simp,
        fun zs hzs => .choice hzs hkind hg₁ hxs hg₂ hcolon hg₃ hys⟩
  | operation _ _ ih₁ ih₂ =>
      obtain ⟨xs, rfl, hxs⟩ := ih₁
      obtain ⟨ys, rfl, hys⟩ := ih₂
      exact ⟨xs ++ ys, by simp, hys xs hxs⟩
  | noOperation => exact ⟨[], rfl, fun ys hys => by simpa using hys⟩
  | @operations _ t _ _ _ _ _ _ _ _ _ hop _ _ hlines _ _ ih₁ ih₂ =>
      obtain ⟨g, rfl, hg, -⟩ := hlines.exists_gap
      obtain ⟨xs, rfl, hxs⟩ := ih₁
      obtain ⟨ys, rfl, hys⟩ := ih₂
      refine ⟨t :: (g ++ (xs ++ ys)), by simp, fun zs hzs => ?_⟩
      simpa using hys _ (.link hzs hop hg hxs)
  | @prefixed t _ _ _ _ hop _ _ ih =>
      obtain ⟨xs, rfl, hxs⟩ := ih
      exact ⟨t :: xs, rfl, .sign hop hxs⟩
  | operand _ _ ih₁ ih₂ =>
      obtain ⟨xs, rfl, hxs⟩ := ih₁
      obtain ⟨ys, rfl, hys⟩ := ih₂
      exact ⟨xs ++ ys, by simp, .operand (hys xs (.primary hxs))⟩
  | noIndex => exact ⟨[], rfl, fun ys hys => by simpa using hys⟩
  | @index t u _ _ _ _ _ _ _ _ _ _ hopen _ hlines₁ _ hlines₂ hclose _ _ ih₁ ih₂ =>
      obtain ⟨g₁, rfl, hg₁, -⟩ := hlines₁.exists_gap
      obtain ⟨xs, rfl, hxs⟩ := ih₁
      obtain ⟨g₂, rfl, hg₂, -⟩ := hlines₂.exists_gap
      obtain ⟨ys, rfl, hys⟩ := ih₂
      refine ⟨t :: (g₁ ++ (xs ++ (g₂ ++ u :: ys))), by simp, fun zs hzs => ?_⟩
      simpa using hys _ (.index hzs hopen hg₁ hxs hg₂ hclose)
  | @literal t _ _ _ hkind _ hvalue => exact ⟨[t], rfl, .literal hkind hvalue⟩
  | @localVar t _ hkind => exact ⟨[t], rfl, .var (.inl hkind)⟩
  | @baseVar t _ hkind => exact ⟨[t], rfl, .var (.inr hkind)⟩
  | @group t u _ _ _ _ _ _ _ hopen _ hlines₁ _ hlines₂ hclose _ ih =>
      obtain ⟨g₁, rfl, hg₁, -⟩ := hlines₁.exists_gap
      obtain ⟨xs, rfl, hxs⟩ := ih
      obtain ⟨g₂, rfl, hg₂, -⟩ := hlines₂.exists_gap
      exact ⟨t :: (g₁ ++ (xs ++ (g₂ ++ [u]))), by simp, .group hopen hg₁ hxs hg₂ hclose⟩
  | @array t _ _ _ _ _ hopen _ hlines _ ih =>
      obtain ⟨g, rfl, hg, -⟩ := hlines.exists_gap
      obtain ⟨xs, rfl, hxs⟩ := ih
      exact ⟨t :: (g ++ xs), by simp, .array (hxs.listing hopen hg)⟩
  | @called t _ _ _ hkind _ ih =>
      obtain ⟨xs, rfl, hxs⟩ := ih
      exact ⟨t :: xs, rfl, .call hkind hxs⟩
  | @noElement t _ _ hclose => exact ⟨[t], rfl, Listing.written_close hclose⟩
  | @lastElement u _ _ _ _ _ _ _ hlines hclose _ ih =>
      obtain ⟨xs, rfl, hxs⟩ := ih
      obtain ⟨g, rfl, hg, -⟩ := hlines.exists_gap
      exact ⟨xs ++ (g ++ [u]), by simp, Listing.written_last (.bare (.value hxs)) nofun hg hclose⟩
  | @element comma _ _ _ _ _ _ _ _ _ _ _ hlines₁ hcomma _ hlines₂ hlast _ ih₁ ih₂ =>
      obtain ⟨xs, rfl, hxs⟩ := ih₁
      obtain ⟨g₁, rfl, hg₁, -⟩ := hlines₁.exists_gap
      obtain ⟨g₂, rfl, hg₂, hsaw⟩ := hlines₂.exists_gap
      obtain ⟨ys, rfl, hys⟩ := ih₂
      refine ⟨xs ++ (g₁ ++ comma :: (g₂ ++ ys)), by simp,
        Listing.written_more (.bare (.value hxs)) nofun hg₁ hcomma hg₂ ?_ hys⟩
      rintro u rfl hclose
      exact hsaw (hlast hclose)
  | @call _ t _ _ _ _ _ hopen _ hlines _ ih =>
      obtain ⟨g, rfl, hg, -⟩ := hlines.exists_gap
      obtain ⟨xs, rfl, hxs⟩ := ih
      exact ⟨t :: (g ++ xs), by simp, hxs.listing hopen hg⟩
  | @noArgument t _ _ hclose => exact ⟨[t], rfl, Listing.written_close hclose⟩
  | @lastArgument u _ _ _ _ done arg _ hnamed hlines hclose _ ih =>
      obtain ⟨xs, rfl, hxs⟩ := ih
      obtain ⟨g, rfl, hg, -⟩ := hlines.exists_gap
      refine ⟨xs ++ (g ++ [u]), by simp, Listing.written_last hxs (fun _ hdone => ?_) hg hclose⟩
      by_contra hnone
      rw [hnamed (by simpa using hnone)] at hdone
      cases hdone
  | @arguments comma _ _ _ _ _ _ _ done _ arg _ hnamed hlines₁ hcomma _ hlines₂ _ ih₁ ih₂ =>
      obtain ⟨xs, rfl, hxs⟩ := ih₁
      obtain ⟨g₁, rfl, hg₁, -⟩ := hlines₁.exists_gap
      obtain ⟨g₂, rfl, hg₂, -⟩ := hlines₂.exists_gap
      obtain ⟨ys, rfl, hys⟩ := ih₂
      have horder : done.any (·.name.isSome) = true → arg.name.isSome = true := by
        intro hdone
        by_contra hnone
        rw [hnamed (by simpa using hnone)] at hdone
        cases hdone
      have hany : (arg :: done).any (·.name.isSome) = arg.name.isSome := by
        rw [List.any_cons, Bool.or_eq_left_iff_imp]
        exact horder
      refine ⟨xs ++ (g₁ ++ comma :: (g₂ ++ ys)), by simp, Listing.written_more hxs
        (fun _ => horder) hg₁ hcomma hg₂ (fun _ _ _ => rfl) (hany ▸ hys)⟩
  | argument _ _ ih =>
      obtain ⟨xs, rfl, hxs⟩ := ih
      exact ⟨xs, rfl, .bare (.value hxs)⟩
  | @keyword t u _ _ _ _ _ ht hu _ hlines _ ih =>
      obtain ⟨g, rfl, hg, -⟩ := hlines.exists_gap
      obtain ⟨xs, rfl, hxs⟩ := ih
      exact ⟨t :: u :: (g ++ xs), by simp, .keyword nofun ht hu hg (.value hxs)⟩
  | @calledArgument t _ _ _ _ _ ht _ _ ih₁ ih₂ =>
      obtain ⟨xs, rfl, hxs⟩ := ih₁
      obtain ⟨ys, rfl, hys⟩ := ih₂
      exact ⟨t :: (xs ++ ys), by simp, .bare (.value (hys _ (.call ht hxs)))⟩
  | continued _ _ _ ih₁ ih₂ ih₃ =>
      obtain ⟨xs, rfl, hxs⟩ := ih₁
      obtain ⟨ys, rfl, hys⟩ := ih₂
      obtain ⟨zs, rfl, hzs⟩ := ih₃
      refine ⟨xs ++ (ys ++ zs), by simp, fun ws hws => ?_⟩
      simpa using hzs _ (hys _ (.operand (hxs _ (.primary hws))))

/-! ## What a document is read of -/

/-- What is behind a field: the end of its line, or nothing if the body ends there. -/
inductive Ending : List Token → List Token → Prop
  | line {t : Token} {rest : List Token} (hkind : t.kind = .eol) : Ending [t] rest
  | stop {rest : List Token} (h : rest = [] ∨ front rest = .mark .rbrace) : Ending [] rest

theorem EndsItem.exists_ending (h : EndsItem input rest) :
    ∃ ending, input = ending ++ rest ∧ Ending ending rest := by
  cases h with
  | @line t us hkind => exact ⟨[t], rfl, .line hkind⟩
  | brace hkind => exact ⟨[], rfl, .stop (.inr hkind)⟩
  | finish => exact ⟨[], rfl, .stop (.inl rfl)⟩

/-- Where a body has to end nothing more is read. -/
theorem Builds.eq_of_stops {inBraces : Bool} {o v : Object} {pending : List String}
    (h : Builds (.body inBraces o pending) input v rest)
    (hstop : input = [] ∨ front input = .mark .rbrace) : rest = input := by
  have hother {t : Token} {us : List Token} {kind : Kind} (ht : t.kind = kind)
      (hkind : kind ≠ .mark .rbrace) (hstop : t :: us = [] ∨ front (t :: us) = .mark .rbrace) :
      False := by
    rcases hstop with hstop | hstop
    · cases hstop
    · exact hkind (ht.symm.trans hstop)
  cases h with
  | finish => rfl
  | close => rfl
  | line hkind => exact (hother hkind nofun hstop).elim
  | comment hkind => exact (hother hkind nofun hstop).elim
  | directiveItem hkind => exact (hother hkind nofun hstop).elim
  | fieldItem hkind => exact (hother hkind nofun hstop).elim

/-- A field and what is behind it. -/
def EndedField (name : List Token) (xs rest : List Token) : Prop :=
  ∃ ys ending, xs = ys ++ ending ∧ Phrase true .field (name ++ ys) ∧ Ending ending rest

/-- The tokens that are read as a part are a phrase, or go on with one. -/
def Part.Writes : (p : Part) → p.Result → List Token → List Token → Prop
  | body .., _, xs, _ => Phrase true .body xs
  | field name _, _, xs, rest => name.kind = .identifier → EndedField [name] xs rest
  | block .., _, xs, rest => ∀ name label, name.kind = .identifier → Labels label →
      EndedField (name :: label) xs rest
  | directive name _, _, xs, _ =>
    (∃ kind, DirectiveKind.ofName? name.text = some kind) ∧ Phrase true (.listing .directive) xs
  | directiveArgs _, _, xs, _ => ∀ named, Listing.directive.Written true named xs
  | directiveArg, arg, xs, _ => Phrase true (.item .directive arg.name.isSome) xs
  | payload, _, xs, _ => Phrase true (.value .directive) xs

theorem EndedField.body {name xs ys : List Token} (h : EndedField name xs (ys ++ rest))
    (hys : Phrase true .body ys)
    (hstop : ys ++ rest = [] ∨ front (ys ++ rest) = .mark .rbrace → ys = []) :
    Phrase true .body (name ++ (xs ++ ys)) := by
  obtain ⟨zs, ending, rfl, hzs, hending⟩ := h
  cases hending with
  | line hkind => simpa using Phrase.field hzs hkind hys
  | stop h =>
      rw [hstop h]
      simpa using Phrase.lastField hzs

/-- **A document is read of a phrase**, and so is every part of one. -/
theorem Builds.exists_phrase {p : Part} {v : p.Result} (h : Builds p input v rest) :
    ∃ xs, input = xs ++ rest ∧ p.Writes v xs rest := by
  induction h with
  | finish => exact ⟨[], rfl, .nothing⟩
  | close => exact ⟨[], rfl, .nothing⟩
  | @line _ _ _ _ t _ _ hkind _ _ ih =>
      obtain ⟨xs, rfl, hxs⟩ := ih
      exact ⟨t :: xs, rfl, .blank (.inl hkind) hxs⟩
  | @comment _ _ _ _ t _ _ hkind _ _ ih =>
      obtain ⟨xs, rfl, hxs⟩ := ih
      exact ⟨t :: xs, rfl, .blank (.inr hkind) hxs⟩
  | @directiveItem _ _ _ _ t _ _ _ rest _ hkind _ hend hbody ih₁ ih₂ =>
      obtain ⟨xs, rfl, ⟨kind, hname⟩, hxs⟩ := ih₁
      obtain ⟨ending, rfl, hending⟩ := hend.exists_ending
      obtain ⟨ys, rfl, hys⟩ := ih₂
      have hfield : EndedField [t] (xs ++ ending) (ys ++ rest) :=
        ⟨xs, ending, rfl, .directive hkind hname hxs, hending⟩
      have hphrase := hfield.body hys fun h => by simpa using hbody.eq_of_stops h
      exact ⟨t :: (xs ++ ending ++ ys), by simp, hphrase⟩
  | @fieldItem _ _ _ _ t _ _ rest _ hkind _ hbody ih₁ ih₂ =>
      obtain ⟨xs, rfl, hxs⟩ := ih₁
      obtain ⟨ys, rfl, hys⟩ := ih₂
      have hphrase := (hxs hkind).body hys fun h => by simpa using hbody.eq_of_stops h
      exact ⟨t :: (xs ++ ys), by simp, hphrase⟩
  | @option name t _ _ _ _ _ _ _ hkind _ he htrailing hend =>
      obtain ⟨xs, rfl, hxs⟩ := he.exists_phrase
      obtain ⟨aside, rfl, haside⟩ := htrailing.exists_aside
      obtain ⟨ending, rfl, hending⟩ := hend.exists_ending
      exact ⟨t :: (xs ++ (aside ++ ending)), by simp, fun hname =>
        ⟨t :: (xs ++ aside), ending, by simp, .option hname hkind hxs haside, hending⟩⟩
  | object _ ih =>
      obtain ⟨xs, rfl, hxs⟩ := ih
      exact ⟨xs, rfl, fun hname => hxs _ [] hname .none⟩
  | @labelled name t _ _ _ _ hkind _ _ ih =>
      obtain ⟨xs, rfl, hxs⟩ := ih
      refine ⟨t :: xs, rfl, fun hname => ?_⟩
      obtain ⟨ys, ending, rfl, hys, hending⟩ := hxs name [t] hname (.some hkind)
      exact ⟨t :: ys, ending, rfl, hys, hending⟩
  | @block _ _ _ _ t u _ _ _ _ _ _ hopen _ _ hclose _ htrailing hend ih =>
      obtain ⟨xs, rfl, hxs⟩ := ih
      obtain ⟨aside, rfl, haside⟩ := htrailing.exists_aside
      obtain ⟨ending, rfl, hending⟩ := hend.exists_ending
      exact ⟨t :: (xs ++ u :: (aside ++ ending)), by simp, fun name label hname hlabel =>
        ⟨t :: (xs ++ u :: aside), ending, by simp,
          .object hname hlabel hopen hxs hclose haside, hending⟩⟩
  | @directive _ t _ kind _ _ _ _ _ hname hopen _ hlines _ ih =>
      obtain ⟨g, rfl, hg, -⟩ := hlines.exists_gap
      obtain ⟨xs, rfl, hxs⟩ := ih
      exact ⟨t :: (g ++ xs), by simp, ⟨kind, hname⟩, (hxs false).listing hopen hg⟩
  | @noArg _ t _ hclose => exact ⟨[t], rfl, fun _ => Listing.written_close hclose⟩
  | @lastArg _ _ u _ _ _ _ _ hlines hclose _ ih =>
      obtain ⟨xs, rfl, hxs⟩ := ih
      obtain ⟨g, rfl, hg, -⟩ := hlines.exists_gap
      exact ⟨xs ++ (g ++ [u]), by simp, fun _ => Listing.written_last hxs nofun hg hclose⟩
  | @args _ _ arg comma _ _ _ _ _ _ _ _ hlines₁ hcomma _ hlines₂ _ ih₁ ih₂ =>
      obtain ⟨xs, rfl, hxs⟩ := ih₁
      obtain ⟨g₁, rfl, hg₁, -⟩ := hlines₁.exists_gap
      obtain ⟨g₂, rfl, hg₂, -⟩ := hlines₂.exists_gap
      obtain ⟨ys, rfl, hys⟩ := ih₂
      exact ⟨xs ++ (g₁ ++ comma :: (g₂ ++ ys)), by simp, fun _ =>
        Listing.written_more hxs nofun hg₁ hcomma hg₂ (fun _ _ _ => rfl) (hys arg.name.isSome)⟩
  | arg _ _ ih =>
      obtain ⟨xs, rfl, hxs⟩ := ih
      exact ⟨xs, rfl, .bare hxs⟩
  | @keyword t u _ _ _ _ _ ht hu _ hlines _ ih =>
      obtain ⟨g, rfl, hg, -⟩ := hlines.exists_gap
      obtain ⟨xs, rfl, hxs⟩ := ih
      exact ⟨t :: u :: (g ++ xs), by simp, .keyword nofun ht hu hg hxs⟩
  | @fragment t u _ _ _ hopen _ _ hclose _ ih =>
      obtain ⟨xs, rfl, hxs⟩ := ih
      exact ⟨t :: (xs ++ [u]), by simp, .fragment hopen hxs hclose⟩
  | @name t _ hkind => exact ⟨[t], rfl, .name hkind⟩
  | @calledValue t _ _ _ _ _ hkind hcall he =>
      obtain ⟨xs, rfl, hxs⟩ := hcall.exists_phrase
      obtain ⟨ys, rfl, hys⟩ := he.exists_phrase
      exact ⟨t :: (xs ++ ys), by simp, .value (hys _ (.call hkind hxs))⟩
  | value _ he =>
      obtain ⟨xs, rfl, hxs⟩ := he.exists_phrase
      exact ⟨xs, rfl, .value hxs⟩

end

end ConfigLang.Parse
