import Mathlib
import ConfigLang.Proofs.Parse.Phrase

/-!
# Expressions with their tokens

An expression keeps some of the tokens that it is written with, and loses its brackets, operators,
commas and line ends.  `Wording` puts them back: it says which tokens an expression is written with,
and which of them belong to each of its parts.

Whatever is read as an expression has a wording in the tokens that are taken
(`Reads.exists_wording`).  The tokens of a part are a piece of those of the whole
(`Wording.isInfix`), and no part is left out (`Wording.mem_parts_iff`).

## Strategy

* **Spans.**  A wording lists the expressions inside with their tokens, each a `Span`.  In an array
  or a call an item is a `Member`, with the commas, line ends and keywords around it.
* **Parts.**  The theorems on the parts are inductions on the wording.  What is inside an expression
  has a wording of its own (`Wording.exists_inner`), so that what holds of all wordings holds of the
  parts; one thing is what they start with (`Wording.startsOperand`).
* **Reading.**  `Reads.exists_wording` is by induction on what is read.  A form that goes on with
  something, such as a left operand or the items of a list so far, has the tokens of that put in
  front (`Form.Words`), and lists are filled from their end (`Listed.close`, `Listed.cons`).
-/

namespace ConfigLang

mutual

/-- An expression and all the expressions inside it. -/
def Expr.parts : Expr → List Expr
  | .literal t value unit => [.literal t value unit]
  | .var scope name position => [.var scope name position]
  | .unary op operand => .unary op operand :: operand.parts
  | .binary op left right => .binary op left right :: (left.parts ++ right.parts)
  | .ternary c yes no => .ternary c yes no :: (c.parts ++ (yes.parts ++ no.parts))
  | .array items => .array items :: partsOfItems items
  | .index target i => .index target i :: (target.parts ++ i.parts)
  | .call name args position => .call name args position :: partsOfArgs args

/-- The expressions in the items of an array. -/
def partsOfItems : List Expr → List Expr
  | [] => []
  | item :: items => item.parts ++ partsOfItems items

/-- The expressions in the arguments of a call. -/
def partsOfArgs : List (Argument Expr) → List Expr
  | [] => []
  | ⟨_, value⟩ :: args => value.parts ++ partsOfArgs args

end

namespace Parse

/-! ## Wordings -/

/-- An expression and the tokens that it is written with. -/
structure Span where
  expr : Expr
  tokens : List Token

/-- An item of an array or an argument of a call, with what stands around it and the expressions
inside it. -/
structure Member where
  name : Option String
  before : List Token
  value : Span
  inner : List Span
  behind : List Token

/-- What stands before the value of an argument: nothing, or its keyword with the sign behind it. -/
inductive Keyword : Option String → List Token → Prop
  | none : Keyword none []
  | some {t u : Token} {g : List Token} (ht : t.kind = .identifier) (hu : u.kind = .mark .assign)
      (hg : Gap g) : Keyword (some t.text) (t :: u :: g)

/-- Commas, line ends and comments. -/
def Separates (tokens : List Token) : Prop :=
  ∀ t ∈ tokens, t.kind = .mark .comma ∨ t.kind = .eol ∨ t.kind = .comment

namespace Member

/-- All tokens of an item, with those behind it. -/
def tokens (m : Member) : List Token :=
  m.before ++ (m.value.tokens ++ m.behind)

/-- An item and the expressions inside it. -/
def spans (m : Member) : List Span :=
  m.value :: m.inner

/-- An item as an argument. -/
def argument (m : Member) : Argument Expr :=
  ⟨m.name, m.value.expr⟩

end Member

/-- `Wording e xs inner` says that `e` is written with the tokens `xs`, and that `inner` are the
expressions inside it, each with those of the tokens that are its own.  Inside a group is the
expression itself, without the parentheses. -/
inductive Wording : Expr → List Token → List Span → Prop
  | literal {t : Token} {value : Value} {unit : Option UnitSuffix}
      (hkind : isLiteral t.kind = true) : Wording (.literal t value unit) [t] []
  | localVar {t : Token} (hkind : t.kind = .localVar) :
      Wording (.var .enclosing t.text t.position) [t] []
  | baseVar {t : Token} (hkind : t.kind = .envVar) : Wording (.var .base t.text t.position) [t] []
  | group {e : Expr} {t u : Token} {g₁ g₂ xs : List Token} {ps : List Span}
      (hopen : t.kind = .mark .lparen) (hg₁ : Gap g₁) (h : Wording e xs ps) (hg₂ : Gap g₂)
      (hclose : u.kind = .mark .rparen) :
      Wording e (t :: (g₁ ++ (xs ++ (g₂ ++ [u])))) (⟨e, xs⟩ :: ps)
  | unary {e : Expr} {op : UnaryOp} {t : Token} {xs : List Token} {ps : List Span}
      (hop : UnaryOp.ofKind? t.kind = some op) (h : Wording e xs ps) :
      Wording (.unary op e) (t :: xs) (⟨e, xs⟩ :: ps)
  | binary {l r : Expr} {op : BinaryOp} {t : Token} {g xs ys : List Token} {ps qs : List Span}
      (hl : Wording l xs ps) (hop : BinaryOp.ofKind? t.kind = some op) (hg : Gap g)
      (hr : Wording r ys qs) :
      Wording (.binary op l r) (xs ++ t :: (g ++ ys)) (⟨l, xs⟩ :: ps ++ ⟨r, ys⟩ :: qs)
  | ternary {c yes no : Expr} {t colon : Token} {g₁ g₂ g₃ xs ys zs : List Token}
      {ps qs rs : List Span} (hc : Wording c xs ps) (hkind : t.kind = .mark .question)
      (hg₁ : Gap g₁) (hyes : Wording yes ys qs) (hg₂ : Gap g₂) (hcolon : colon.kind = .mark .colon)
      (hg₃ : Gap g₃) (hno : Wording no zs rs) :
      Wording (.ternary c yes no) (xs ++ t :: (g₁ ++ (ys ++ (g₂ ++ colon :: (g₃ ++ zs)))))
        (⟨c, xs⟩ :: ps ++ (⟨yes, ys⟩ :: qs ++ ⟨no, zs⟩ :: rs))
  | index {target i : Expr} {t u : Token} {g₁ g₂ xs ys : List Token} {ps qs : List Span}
      (htarget : Wording target xs ps) (hopen : t.kind = .mark .lbracket) (hg₁ : Gap g₁)
      (hi : Wording i ys qs) (hg₂ : Gap g₂) (hclose : u.kind = .mark .rbracket) :
      Wording (.index target i) (xs ++ t :: (g₁ ++ (ys ++ (g₂ ++ [u]))))
        (⟨target, xs⟩ :: ps ++ ⟨i, ys⟩ :: qs)
  | array {t u : Token} {g : List Token} {items : List Member} (hopen : t.kind = .mark .lbracket)
      (hg : Gap g) (hbefore : ∀ m ∈ items, m.before = [])
      (hitems : ∀ m ∈ items, Wording m.value.expr m.value.tokens m.inner)
      (hbehind : ∀ m ∈ items, Separates m.behind) (hclose : u.kind = .mark .rbracket) :
      Wording (.array (items.map (·.value.expr)))
        (t :: (g ++ (items.flatMap Member.tokens ++ [u]))) (items.flatMap Member.spans)
  | call {name t u : Token} {g : List Token} {args : List Member} (hname : name.kind = .identifier)
      (hopen : t.kind = .mark .lparen) (hg : Gap g) (hbefore : ∀ m ∈ args, Keyword m.name m.before)
      (hargs : ∀ m ∈ args, Wording m.value.expr m.value.tokens m.inner)
      (hbehind : ∀ m ∈ args, Separates m.behind) (hclose : u.kind = .mark .rparen) :
      Wording (.call name.text (args.map Member.argument) name.position)
        (name :: t :: (g ++ (args.flatMap Member.tokens ++ [u]))) (args.flatMap Member.spans)

namespace Wording

variable {e : Expr} {xs : List Token} {inner : List Span}

/-! ## The expressions inside -/

/-- What is inside an expression has a wording itself. -/
theorem exists_inner (h : Wording e xs inner) :
    ∀ s ∈ inner, ∃ ps, Wording s.expr s.tokens ps := by
  induction h with
  | literal | localVar | baseVar => exact List.forall_mem_nil _
  | group _ _ h _ _ ih | unary _ h ih => exact List.forall_mem_cons.mpr ⟨⟨_, h⟩, ih⟩
  | binary hl _ _ hr ih₁ ih₂ | index hl _ _ hr _ _ ih₁ ih₂ =>
      exact List.forall_mem_append.mpr
        ⟨List.forall_mem_cons.mpr ⟨⟨_, hl⟩, ih₁⟩, List.forall_mem_cons.mpr ⟨⟨_, hr⟩, ih₂⟩⟩
  | ternary hc _ _ hyes _ _ _ hno ih₁ ih₂ ih₃ =>
      exact List.forall_mem_append.mpr
        ⟨List.forall_mem_cons.mpr ⟨⟨_, hc⟩, ih₁⟩, List.forall_mem_append.mpr
          ⟨List.forall_mem_cons.mpr ⟨⟨_, hyes⟩, ih₂⟩, List.forall_mem_cons.mpr ⟨⟨_, hno⟩, ih₃⟩⟩⟩
  | array _ _ _ hitems _ _ ih | call _ _ _ _ hitems _ _ ih =>
      refine List.forall_mem_flatMap.mpr fun m hm => ?_
      exact List.forall_mem_cons.mpr ⟨⟨_, hitems m hm⟩, ih m hm⟩

theorem isInfix_of_member {items : List Member} {m : Member} (hm : m ∈ items) :
    m.value.tokens <:+: items.flatMap Member.tokens := by
  have hvalue : m.value.tokens <:+: m.tokens :=
    ⟨m.before, m.behind, by rw [Member.tokens, List.append_assoc]⟩
  exact hvalue.trans (List.infix_of_mem_flatten (List.mem_map_of_mem hm))

/-- The tokens of what is inside an expression are a piece of its own. -/
theorem isInfix (h : Wording e xs inner) : ∀ s ∈ inner, s.tokens <:+: xs := by
  have piece {e : Expr} {ys whole : List Token} {ps : List Span} (hys : ys <:+: whole)
      (ih : ∀ s ∈ ps, s.tokens <:+: ys) : ∀ s ∈ (⟨e, ys⟩ : Span) :: ps, s.tokens <:+: whole :=
    List.forall_mem_cons.mpr ⟨hys, fun s hs => (ih s hs).trans hys⟩
  induction h with
  | literal | localVar | baseVar => exact List.forall_mem_nil _
  | @group _ t u g₁ g₂ xs _ _ _ _ _ _ ih => exact piece ⟨t :: g₁, g₂ ++ [u], by simp⟩ ih
  | @unary _ _ t xs _ _ _ ih => exact piece (List.suffix_cons t xs).isInfix ih
  | @binary _ _ _ t g xs ys _ _ _ _ _ _ ih₁ ih₂ =>
      exact List.forall_mem_append.mpr ⟨piece (List.prefix_append _ _).isInfix ih₁,
        piece ⟨xs ++ t :: g, [], by simp⟩ ih₂⟩
  | @ternary _ _ _ t colon g₁ g₂ g₃ xs ys zs _ _ _ _ _ _ _ _ _ _ _ ih₁ ih₂ ih₃ =>
      refine List.forall_mem_append.mpr ⟨piece (List.prefix_append _ _).isInfix ih₁,
        List.forall_mem_append.mpr ⟨piece ?_ ih₂, piece ?_ ih₃⟩⟩
      · exact ⟨xs ++ t :: g₁, g₂ ++ colon :: (g₃ ++ zs), by simp⟩
      · exact ⟨xs ++ t :: (g₁ ++ (ys ++ (g₂ ++ colon :: g₃))), [], by simp⟩
  | @index _ _ t u g₁ g₂ xs ys _ _ _ _ _ _ _ _ ih₁ ih₂ =>
      exact List.forall_mem_append.mpr ⟨piece (List.prefix_append _ _).isInfix ih₁,
        piece ⟨xs ++ t :: g₁, g₂ ++ [u], by simp⟩ ih₂⟩
  | @array t u g items _ _ _ _ _ _ ih =>
      refine List.forall_mem_flatMap.mpr fun m hm => piece ?_ (ih m hm)
      exact (isInfix_of_member hm).trans ⟨t :: g, [u], by simp⟩
  | @call name t u g args _ _ _ _ _ _ _ ih =>
      refine List.forall_mem_flatMap.mpr fun m hm => piece ?_ (ih m hm)
      exact (isInfix_of_member hm).trans ⟨name :: t :: g, [u], by simp⟩

theorem mem_partsOfItems {items : List Expr} {part : Expr} :
    part ∈ partsOfItems items ↔ ∃ item ∈ items, part ∈ item.parts := by
  induction items with
  | nil => simp [partsOfItems]
  | cons item items ih => simp [partsOfItems, ih]

theorem mem_partsOfArgs {args : List (Argument Expr)} {part : Expr} :
    part ∈ partsOfArgs args ↔ ∃ arg ∈ args, part ∈ arg.value.parts := by
  induction args with
  | nil => simp [partsOfArgs]
  | cons arg args ih => simp [partsOfArgs, ih]

/-- No expression inside another is left out. -/
theorem mem_parts_iff (h : Wording e xs inner) {part : Expr} :
    part ∈ e.parts ↔ part ∈ e :: inner.map Span.expr := by
  have hmembers {members : List Member}
      (ih : ∀ m ∈ members, part ∈ m.value.expr.parts ↔
        part ∈ m.value.expr :: m.inner.map Span.expr) :
      (∃ m ∈ members, part ∈ m.value.expr.parts) ↔
        part ∈ (members.flatMap Member.spans).map Span.expr := by
    simp only [List.map_flatMap, List.mem_flatMap]
    exact exists_congr fun m => and_congr_right (ih m)
  induction h with
  | literal | localVar | baseVar => simp [Expr.parts]
  | group _ _ _ _ _ ih => simp [ih]
  | unary _ _ ih => simp [Expr.parts, ih]
  | binary _ _ _ _ ih₁ ih₂ | index _ _ _ _ _ _ ih₁ ih₂ => simp [Expr.parts, ih₁, ih₂, or_assoc]
  | ternary _ _ _ _ _ _ _ _ ih₁ ih₂ ih₃ => simp [Expr.parts, ih₁, ih₂, ih₃, or_assoc]
  | array _ _ _ _ _ _ ih =>
      rw [Expr.parts, List.mem_cons, List.mem_cons, mem_partsOfItems, ← hmembers ih]
      simp
  | call _ _ _ _ _ _ _ ih =>
      rw [Expr.parts, List.mem_cons, List.mem_cons, mem_partsOfArgs, ← hmembers ih]
      simp [Member.argument]

/-! ## What an expression starts with -/

/-- An expression starts with a token that an operand may start with. -/
theorem startsOperand (h : Wording e xs inner) : Parse.startsOperand (front xs) = true := by
  have onward {ys more : List Token} (ih : Parse.startsOperand (front ys) = true) :
      Parse.startsOperand (front (ys ++ more)) = true := by
    cases ys with
    | nil => cases ih
    | cons t ys => exact ih
  induction h with
  | literal hkind => exact startsOperand_of_isLiteral hkind
  | localVar hkind | baseVar hkind | group hkind | array hkind | call hkind =>
      rw [front, hkind]
      rfl
  | unary hop => exact startsOperand_of_ofKind? hop
  | binary _ _ _ _ ih | ternary _ _ _ _ _ _ _ _ ih | index _ _ _ _ _ _ ih => exact onward ih

end Wording

/-! ## What an expression is read of -/

/-- The items of a list that are left, with its end. -/
structure Listed (Leads : Member → Prop) (closer : Kind) (members : List Member)
    (xs : List Token) : Prop where
  stop : ∃ u : Token, u.kind = closer ∧ xs = members.flatMap Member.tokens ++ [u]
  leads : ∀ m ∈ members, Leads m
  worded : ∀ m ∈ members, Wording m.value.expr m.value.tokens m.inner
  separates : ∀ m ∈ members, Separates m.behind

section

variable {Leads : Member → Prop} {closer : Kind} {members : List Member} {m : Member}
  {xs g g₁ g₂ : List Token} {t u : Token}

theorem Gap.separates (hg : Gap g) : Separates g :=
  fun t ht => .inr (hg t ht)

theorem Separates.comma (hg₁ : Gap g₁) (ht : t.kind = .mark .comma) (hg₂ : Gap g₂) :
    Separates (g₁ ++ t :: g₂) :=
  List.forall_mem_append.mpr ⟨hg₁.separates, List.forall_mem_cons.mpr ⟨.inl ht, hg₂.separates⟩⟩

namespace Listed

theorem close (hclose : u.kind = closer) : Listed Leads closer [] [u] :=
  ⟨⟨u, hclose, rfl⟩, List.forall_mem_nil _, List.forall_mem_nil _, List.forall_mem_nil _⟩

theorem cons (hlead : Leads m) (hword : Wording m.value.expr m.value.tokens m.inner)
    (hbehind : Separates m.behind) (h : Listed Leads closer members xs) :
    Listed Leads closer (m :: members) (m.tokens ++ xs) := by
  obtain ⟨u, hclose, rfl⟩ := h.stop
  exact ⟨⟨u, hclose, by rw [List.flatMap_cons, List.append_assoc]⟩,
    List.forall_mem_cons.mpr ⟨hlead, h.leads⟩, List.forall_mem_cons.mpr ⟨hword, h.worded⟩,
    List.forall_mem_cons.mpr ⟨hbehind, h.separates⟩⟩

end Listed

end

/-- The tokens that are read in a form are those of the expression, or go on with them. -/
def Form.Words : (f : Form) → f.Result → List Token → Prop
  | expression, e, xs | operation _, e, xs | operand, e, xs | primary, e, xs =>
    ∃ ps, Wording e xs ps
  | choice c, e, xs | operations _ c, e, xs | indexes c, e, xs | continued c, e, xs =>
    ∀ ys ps, Wording c ys ps → ∃ qs, Wording e (ys ++ xs) qs
  | elements done, items, xs => ∃ members, items = done.reverse ++ members.map (·.value.expr) ∧
    Listed (·.before = []) (.mark .rbracket) members xs
  | call name, e, xs => name.kind = .identifier → ∃ ps, Wording e (name :: xs) ps
  | arguments done, args, xs => ∃ members, args = done.reverse ++ members.map Member.argument ∧
    Listed (fun m => Keyword m.name m.before) (.mark .rparen) members xs
  | argument, arg, xs => ∃ before ys ps, xs = before ++ ys ∧ Keyword arg.name before ∧
    Wording arg.value ys ps

/-- **An expression is read of a wording**, and so is every part of one. -/
theorem Reads.exists_wording {input rest : List Token} {f : Form} {v : f.Result}
    (h : Reads f input v rest) : ∃ xs, input = xs ++ rest ∧ f.Words v xs := by
  induction h with
  | expression _ _ ih₁ ih₂ | operation _ _ ih₁ ih₂ | operand _ _ ih₁ ih₂ =>
      obtain ⟨xs, rfl, ps, hxs⟩ := ih₁
      obtain ⟨ys, rfl, hys⟩ := ih₂
      exact ⟨xs ++ ys, by simp, hys xs ps hxs⟩
  | noChoice | noOperation | noIndex =>
      exact ⟨[], rfl, fun ys ps hys => ⟨ps, by simpa using hys⟩⟩
  | @choice t colon _ _ _ _ _ _ _ _ _ _ _ _ hkind _ hlines₁ _ hlines₂ hcolon _ hlines₃ _ ih₁
      ih₂ =>
      obtain ⟨g₁, rfl, hg₁, -⟩ := hlines₁.exists_gap
      obtain ⟨xs, rfl, ps, hxs⟩ := ih₁
      obtain ⟨g₂, rfl, hg₂, -⟩ := hlines₂.exists_gap
      obtain ⟨g₃, rfl, hg₃, -⟩ := hlines₃.exists_gap
      obtain ⟨ys, rfl, qs, hys⟩ := ih₂
      exact ⟨t :: (g₁ ++ (xs ++ (g₂ ++ colon :: (g₃ ++ ys)))), by simp, fun zs rs hzs =>
        ⟨_, .ternary hzs hkind hg₁ hxs hg₂ hcolon hg₃ hys⟩⟩
  | @operations _ t _ _ _ _ _ _ _ _ _ hop _ _ hlines _ _ ih₁ ih₂ =>
      obtain ⟨g, rfl, hg, -⟩ := hlines.exists_gap
      obtain ⟨xs, rfl, ps, hxs⟩ := ih₁
      obtain ⟨ys, rfl, hys⟩ := ih₂
      refine ⟨t :: (g ++ (xs ++ ys)), by simp, fun zs rs hzs => ?_⟩
      simpa using hys _ _ (.binary hzs hop hg hxs)
  | @prefixed t _ _ _ _ hop _ _ ih =>
      obtain ⟨xs, rfl, ps, hxs⟩ := ih
      exact ⟨t :: xs, rfl, _, .unary hop hxs⟩
  | @index t u _ _ _ _ _ _ _ _ _ _ hopen _ hlines₁ _ hlines₂ hclose _ _ ih₁ ih₂ =>
      obtain ⟨g₁, rfl, hg₁, -⟩ := hlines₁.exists_gap
      obtain ⟨xs, rfl, ps, hxs⟩ := ih₁
      obtain ⟨g₂, rfl, hg₂, -⟩ := hlines₂.exists_gap
      obtain ⟨ys, rfl, hys⟩ := ih₂
      refine ⟨t :: (g₁ ++ (xs ++ (g₂ ++ u :: ys))), by simp, fun zs rs hzs => ?_⟩
      simpa using hys _ _ (.index hzs hopen hg₁ hxs hg₂ hclose)
  | @literal t _ _ _ hkind => exact ⟨[t], rfl, _, .literal hkind⟩
  | @localVar t _ hkind => exact ⟨[t], rfl, _, .localVar hkind⟩
  | @baseVar t _ hkind => exact ⟨[t], rfl, _, .baseVar hkind⟩
  | @group t u _ _ _ _ _ _ _ hopen _ hlines₁ _ hlines₂ hclose _ ih =>
      obtain ⟨g₁, rfl, hg₁, -⟩ := hlines₁.exists_gap
      obtain ⟨xs, rfl, ps, hxs⟩ := ih
      obtain ⟨g₂, rfl, hg₂, -⟩ := hlines₂.exists_gap
      exact ⟨t :: (g₁ ++ (xs ++ (g₂ ++ [u]))), by simp, _, .group hopen hg₁ hxs hg₂ hclose⟩
  | @array t _ _ _ _ _ hopen _ hlines _ ih =>
      obtain ⟨g, rfl, hg, -⟩ := hlines.exists_gap
      obtain ⟨xs, rfl, members, rfl, h⟩ := ih
      obtain ⟨u, hclose, rfl⟩ := h.stop
      exact ⟨t :: (g ++ (members.flatMap Member.tokens ++ [u])), by simp, _,
        .array hopen hg h.leads h.worded h.separates hclose⟩
  | @called t _ _ _ hkind _ ih =>
      obtain ⟨xs, rfl, hxs⟩ := ih
      exact ⟨t :: xs, rfl, hxs hkind⟩
  | @noElement t _ _ hclose => exact ⟨[t], rfl, [], by simp, .close hclose⟩
  | @lastElement u _ _ _ _ _ e _ hlines hclose _ ih =>
      obtain ⟨xs, rfl, ps, hxs⟩ := ih
      obtain ⟨g, rfl, hg, -⟩ := hlines.exists_gap
      let m : Member := ⟨none, [], ⟨e, xs⟩, ps, g⟩
      exact ⟨m.tokens ++ [u], by simp [m, Member.tokens], [m], by simp [m],
        .cons rfl hxs hg.separates (.close hclose)⟩
  | @element comma _ _ _ _ _ _ _ _ _ e _ hlines₁ hcomma _ hlines₂ _ _ ih₁ ih₂ =>
      obtain ⟨xs, rfl, ps, hxs⟩ := ih₁
      obtain ⟨g₁, rfl, hg₁, -⟩ := hlines₁.exists_gap
      obtain ⟨g₂, rfl, hg₂, -⟩ := hlines₂.exists_gap
      obtain ⟨ys, rfl, members, rfl, hys⟩ := ih₂
      let m : Member := ⟨none, [], ⟨e, xs⟩, ps, g₁ ++ comma :: g₂⟩
      exact ⟨m.tokens ++ ys, by simp [m, Member.tokens], m :: members, by simp [m],
        .cons rfl hxs (.comma hg₁ hcomma hg₂) hys⟩
  | @call name t _ _ _ _ _ hopen _ hlines _ ih =>
      obtain ⟨g, rfl, hg, -⟩ := hlines.exists_gap
      obtain ⟨xs, rfl, members, rfl, h⟩ := ih
      obtain ⟨u, hclose, rfl⟩ := h.stop
      exact ⟨t :: (g ++ (members.flatMap Member.tokens ++ [u])), by simp, fun hname =>
        ⟨_, .call hname hopen hg h.leads h.worded h.separates hclose⟩⟩
  | @noArgument t _ _ hclose => exact ⟨[t], rfl, [], by simp, .close hclose⟩
  | @lastArgument u _ _ _ _ done arg _ _ hlines hclose _ ih =>
      obtain ⟨_, rfl, before, xs, ps, rfl, hbefore, hxs⟩ := ih
      obtain ⟨g, rfl, hg, -⟩ := hlines.exists_gap
      let m : Member := ⟨arg.name, before, ⟨arg.value, xs⟩, ps, g⟩
      exact ⟨m.tokens ++ [u], by simp [m, Member.tokens], [m], by simp [m, Member.argument],
        .cons hbefore hxs hg.separates (.close hclose)⟩
  | @arguments comma _ _ _ _ _ _ _ done _ arg _ _ hlines₁ hcomma _ hlines₂ _ ih₁ ih₂ =>
      obtain ⟨_, rfl, before, xs, ps, rfl, hbefore, hxs⟩ := ih₁
      obtain ⟨g₁, rfl, hg₁, -⟩ := hlines₁.exists_gap
      obtain ⟨g₂, rfl, hg₂, -⟩ := hlines₂.exists_gap
      obtain ⟨ys, rfl, members, rfl, hys⟩ := ih₂
      let m : Member := ⟨arg.name, before, ⟨arg.value, xs⟩, ps, g₁ ++ comma :: g₂⟩
      exact ⟨m.tokens ++ ys, by simp [m, Member.tokens], m :: members, by simp [m, Member.argument],
        .cons hbefore hxs (.comma hg₁ hcomma hg₂) hys⟩
  | argument _ _ ih =>
      obtain ⟨xs, rfl, ps, hxs⟩ := ih
      exact ⟨xs, rfl, [], xs, ps, rfl, .none, hxs⟩
  | @keyword t u _ _ _ _ _ ht hu _ hlines _ ih =>
      obtain ⟨g, rfl, hg, -⟩ := hlines.exists_gap
      obtain ⟨xs, rfl, ps, hxs⟩ := ih
      exact ⟨t :: u :: (g ++ xs), by simp, t :: u :: g, xs, ps, rfl, .some ht hu hg, hxs⟩
  | @calledArgument t _ _ _ _ _ ht _ _ ih₁ ih₂ =>
      obtain ⟨xs, rfl, hxs⟩ := ih₁
      obtain ⟨ys, rfl, hys⟩ := ih₂
      obtain ⟨ps, hxs⟩ := hxs ht
      obtain ⟨qs, hys⟩ := hys _ _ hxs
      exact ⟨t :: (xs ++ ys), by simp, [], _, qs, rfl, .none, hys⟩
  | continued _ _ _ ih₁ ih₂ ih₃ =>
      obtain ⟨xs, rfl, hxs⟩ := ih₁
      obtain ⟨ys, rfl, hys⟩ := ih₂
      obtain ⟨zs, rfl, hzs⟩ := ih₃
      refine ⟨xs ++ (ys ++ zs), by simp, fun ws ps hws => ?_⟩
      obtain ⟨_, hws⟩ := hxs ws ps hws
      obtain ⟨_, hws⟩ := hys _ _ hws
      simpa using hzs _ _ hws

end Parse

end ConfigLang
