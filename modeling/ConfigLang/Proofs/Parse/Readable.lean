import Mathlib
import ConfigLang.Proofs.Parse.Context
import ConfigLang.Proofs.Parse.Phrase

/-!
# Phrases are read

Every phrase is read (`Phrase.readable`), so that the parsers accept phrases and nothing else.

## Strategy

What is read of a phrase depends on the tokens behind it, so `Shape.Readable` says for each shape
that the piece is read in front of all tokens that may stand there, and the proof is by induction on
the phrase, with one lemma for each of its rules.

* **Gaps.**  Line ends and comments are skipped up to a token that is none
  (`Gap.exists_lines`), which the next piece starts with.
* **Rows.**  A row of operators and operands spells a tree (`Spells.of_reads`), and
  `Shape.Readable.operation` says that it is read as this tree in front of a token that goes on
  with no operator.
* **Lists.**  Those of arrays, calls and directives are filled by three parsers with one rule.
  `Listing.Fills` is about any of them, and a list is filled from its end to its start: by the token
  that closes it (`Listing.fills_close`), by its last item (`Listing.fills_last`), and by an item
  with a comma behind it (`Listing.fills_more`).  In a call an item behind a named one has to be
  named too (`Listing.Admits`).
* **Bodies.**  The items of a body are read into an object that is there already, one after the
  other.  What may stand behind a field closes its expression (`EndsItem.closes`, `Aside.closes`),
  and a comment there is taken along (`Aside.exists_trailing`).
-/

namespace ConfigLang.Parse

/-! ## Tokens in front of others -/

section

variable {us xs g rest after : List Token} {t : Token}

theorem Gap.legible (hg : Gap g) (hrest : Legible rest) : Legible (g ++ rest) := by
  cases g with
  | nil => exact hrest
  | cons t g =>
      rcases hg t List.mem_cons_self with hkind | hkind
      · exact legible_of_kind hkind nofun
      · exact legible_of_kind hkind nofun

theorem Gap.closes (hg : Gap g) (hrest : Closes rest) : Closes (g ++ rest) := by
  cases g with
  | nil => exact hrest
  | cons t g =>
      rcases hg t List.mem_cons_self with hkind | hkind
      · exact closes_of_kind .eol hkind (by decide)
      · exact closes_of_kind .comment hkind (by decide)

/-- A gap is skipped in front of a token that is none. -/
theorem Gap.exists_lines (hg : Gap g) (hrest : Legible rest) (heol : front rest ≠ .eol)
    (hcomment : front rest ≠ .comment) :
    ∃ saw, Lines (g ++ rest) saw rest ∧ ((∃ t ∈ g, t.kind = .eol) → saw = true) := by
  induction g with
  | nil => exact ⟨false, .none heol hcomment, nofun⟩
  | cons t g ih =>
      obtain ⟨hkind, hg⟩ := List.forall_mem_cons.mp hg
      obtain ⟨saw, hlines, hsaw⟩ := ih hg
      have hus : Legible (g ++ rest) := Gap.legible hg hrest
      rcases hkind with hkind | hkind
      · exact ⟨true, .line hkind hus hlines, fun _ => rfl⟩
      · refine ⟨saw, .comment hkind hus hlines, ?_⟩
        rintro ⟨u, hu, heol⟩
        rcases List.mem_cons.mp hu with rfl | hu
        · rw [hkind] at heol
          cases heol
        · exact hsaw ⟨u, hu, heol⟩

/-- A gap is skipped in front of a token of another kind. -/
theorem Gap.exists_lines_of_kind {kind : Kind} (hg : Gap g) (us : List Token) (ht : t.kind = kind)
    (hkind : kind ≠ .invalid ∧ kind ≠ .eol ∧ kind ≠ .comment) :
    ∃ saw, Lines (g ++ t :: us) saw (t :: us) := by
  have hlegible : Legible (t :: us) := legible_of_kind ht hkind.1
  obtain ⟨saw, hlines, -⟩ := hg.exists_lines hlegible (by rw [front, ht]; exact hkind.2.1)
    (by rw [front, ht]; exact hkind.2.2)
  exact ⟨saw, hlines⟩

/-- A gap is skipped in front of an expression. -/
theorem Gap.exists_lines_of_reads {f : Form} {v : f.Result} (hg : Gap g) (h : Reads f us v rest)
    (hf : f.hasOperand = true) : ∃ saw, Lines (g ++ us) saw us := by
  obtain ⟨saw, hlines, -⟩ := hg.exists_lines (h.front_ne hf rfl) (h.front_ne hf rfl)
    (h.front_ne hf rfl)
  exact ⟨saw, hlines⟩

theorem closes_colon (ht : t.kind = .mark .colon) : Closes (t :: us) := by
  have hfront : front (t :: us) = .mark .colon := ht
  exact ⟨legible_of_kind ht nofun, by rw [hfront]; rfl, by rw [hfront]; decide,
    by rw [hfront]; decide⟩

theorem Spells.of_reads {input mid : List Token} {target e : Expr} {row : List Symbol}
    (hprimary : Reads .primary input target mid) (hindexes : Reads (.indexes target) mid e after)
    (h : Spells .start after row rest) : Spells .start input (.atom e :: row) rest := by
  obtain ⟨_, hprimary⟩ := hprimary.parse .start
  obtain ⟨_, hindexes⟩ := hindexes.parse .start
  exact .atom hprimary hindexes h

end

/-! ## One rule for three lists -/

namespace Listing

/-- What is read as an item. -/
@[reducible] def Item : Listing → Type
  | array => Expr
  | call => Argument Expr
  | directive => Argument Payload

/-- Whether an item has a keyword. -/
def isNamed : (l : Listing) → l.Item → Bool
  | array, _ => false
  | call, arg => arg.name.isSome
  | directive, arg => arg.name.isSome

/-- An item is read. -/
def Takes : (l : Listing) → List Token → l.Item → List Token → Prop
  | array => Reads .expression
  | call => Reads .argument
  | directive => Builds .directiveArg

/-- A list is read up to its end, where `done` are the items before, read backwards. -/
def Fills : (l : Listing) → List l.Item → List Token → List l.Item → List Token → Prop
  | array, done => Reads (.elements done)
  | call, done => Reads (.arguments done)
  | directive, done => Builds (.directiveArgs done)

/-- An item may stand behind others: behind arguments of a call with keywords only one that has a
keyword too. -/
def Admits : (l : Listing) → List l.Item → l.Item → Prop
  | call, done, arg => arg.name.isNone → done.any (·.name.isSome) = false
  | array, _, _ | directive, _, _ => True

variable {l : Listing} {done items : List l.Item} {item : l.Item} {t u : Token}
  {input mid us in₁ rest : List Token} {saw saw₁ saw₂ : Bool}

theorem fills_close (hclose : u.kind = l.closer) (hrest : Legible rest) :
    l.Fills done (u :: rest) done.reverse rest := by
  cases l with
  | array => exact .noElement hclose hrest
  | call => exact .noArgument hclose hrest
  | directive => exact .noArg hclose hrest

theorem fills_last (hitem : l.Takes input item mid) (hadmits : l.Admits done item)
    (hlines : Lines mid saw (u :: rest)) (hclose : u.kind = l.closer) (hrest : Legible rest) :
    l.Fills done input (item :: done).reverse rest := by
  cases l with
  | array => exact .lastElement hitem hlines hclose hrest
  | call => exact .lastArgument hitem hadmits hlines hclose hrest
  | directive => exact .lastArg hitem hlines hclose hrest

theorem fills_more (hitem : l.Takes input item mid) (hadmits : l.Admits done item)
    (hlines₁ : Lines mid saw₁ (t :: us)) (hcomma : t.kind = .mark .comma) (hus : Legible us)
    (hlines₂ : Lines us saw₂ in₁) (hlast : l = array → front in₁ = l.closer → saw₂ = true)
    (hitems : l.Fills (item :: done) in₁ items rest) : l.Fills done input items rest := by
  cases l with
  | array => exact .element hitem hlines₁ hcomma hus hlines₂ (hlast rfl) hitems
  | call => exact .arguments hitem hadmits hlines₁ hcomma hus hlines₂ hitems
  | directive => exact .args hitem hlines₁ hcomma hus hlines₂ hitems

/-- An item starts with a token that neither ends a list nor is part of a gap. -/
theorem Takes.front_ne {kind : Kind} (h : l.Takes input item rest)
    (hkind : kind ∈ [.invalid, .eol, .comment, l.closer]) : front input ≠ kind := by
  cases l with
  | array =>
      refine Reads.front_ne h rfl ?_
      fin_cases hkind <;> rfl
  | call =>
      refine Reads.front_ne h rfl ?_
      fin_cases hkind <;> rfl
  | directive =>
      have hstart : startsOperand (front input) = true ∨ front input = .mark .lbrace := by
        cases h with
        | keyword ht => exact .inl (by rw [front, ht]; rfl)
        | arg _ hvalue =>
            cases hvalue with
            | fragment hkind => exact .inr hkind
            | name hkind | calledValue hkind => exact .inl (by rw [front, hkind]; rfl)
            | value _ he => exact .inl (he.startsOperand rfl)
      intro heq
      rw [heq] at hstart
      fin_cases hkind <;> exact absurd hstart (by decide)

end Listing

/-! ## Phrases are read -/

/-- What may stand behind an item. -/
def Halts (after : List Token) : Prop :=
  front after ∈ [.eol, .comment, .mark .comma, .mark .rparen, .mark .rbracket]

/-- A piece is read in front of all tokens that may stand behind it. -/
def Shape.Readable : Shape → List Token → Prop
  | expression, xs => ∃ e, ∀ after, Closes after → Reads .expression (xs ++ after) e after
  | row, xs => ∃ first links, ∀ after more rest, Legible after → front after ≠ .mark .lbracket →
      Spells .start after more rest →
      Spells .start (xs ++ after) (symbols first links ++ more) rest
  | indexed, xs => ∃ e, ∀ after e' rest, Legible after → Reads (.indexes e) after e' rest →
      ∃ target mid, Reads .primary (xs ++ after) target mid ∧
        Reads (.indexes target) mid e' rest
  | primary, xs => ∃ e, ∀ after, Legible after → Reads .primary (xs ++ after) e after
  | listing l, xs => ∃ t us items, xs = t :: us ∧ t.kind = l.opener ∧ ∀ after, Legible after →
      ∃ saw in₁, Legible (us ++ after) ∧ Lines (us ++ after) saw in₁ ∧
        l.Fills [] in₁ items after
  | items l named, xs => ∀ done : List l.Item,
      (l = .call → done.any l.isNamed = true → named = true) →
      ∃ items, ∀ after, Legible after → l.Fills done (xs ++ after) items after ∧
        ∃ item mid, l.Takes (xs ++ after) item mid
  | item l named, xs => ∃ item, l.isNamed item = named ∧ ∀ after, Halts after →
      l.Takes (xs ++ after) item after
  | tail l named, xs => ∀ (done : List l.Item) (item : l.Item),
      (l = .call → (item :: done).any l.isNamed = true → named = true) → l.Admits done item →
      ∃ items, ∀ after, Legible after → Halts (xs ++ after) ∧
        ∀ input, l.Takes input item (xs ++ after) → l.Fills done input items after
  | value .directive, xs => ∃ payload, ∀ after, Halts after →
      Builds .payload (xs ++ after) payload after ∧
        Builds .directiveArg (xs ++ after) ⟨none, payload⟩ after
  | value _, xs => ∃ e, ∀ after, Closes after → Reads .expression (xs ++ after) e after
  | body, xs => ∀ inBraces o pending, ∃ v, ∀ after,
      (if inBraces then front after = .mark .rbrace else after = []) →
      Builds (.body inBraces o pending) (xs ++ after) v after
  | field, xs => ∀ inBraces o pending, ∃ o', ∀ after next v rest, EndsItem after next →
      Builds (.body inBraces o' []) next v rest →
      Builds (.body inBraces o pending) (xs ++ after) v rest

/-- A piece starts with a token that is not malformed, if there is any in it. -/
theorem Phrase.legible {lax : Bool} {s : Shape} {xs : List Token} (h : Phrase lax s xs) :
    ∀ after, Legible after → Legible (xs ++ after) := by
  induction h with
  | row _ ih | operand _ ih | primary _ ih | array _ ih | bare _ ih | value _ ih | lastField _ ih =>
      exact ih
  | choice _ hkind _ _ _ _ _ _ ih =>
      intro after _
      rw [List.append_assoc]
      exact ih _ (legible_of_kind hkind (by decide))
  | sign hop =>
      exact fun _ _ hinvalid => by
        rw [List.cons_append, front] at hinvalid
        rw [hinvalid] at hop
        cases hop
  | link _ hop _ _ ih =>
      intro after _
      rw [List.append_assoc]
      exact ih _ (legible_of_ofKind? hop)
  | index _ hopen _ _ _ _ ih =>
      intro after _
      rw [List.append_assoc]
      exact ih _ (legible_of_kind hopen (by decide))
  | literal hkind =>
      exact fun _ _ hinvalid => by
        rw [List.cons_append, front] at hinvalid
        rw [hinvalid] at hkind
        cases hkind
  | var hkind =>
      rcases hkind with hkind | hkind
      · exact fun _ _ => legible_of_kind hkind (by decide)
      · exact fun _ _ => legible_of_kind hkind (by decide)
  | @empty l _ _ _ hopen | @listing l _ _ _ hopen =>
      exact fun _ _ => legible_of_kind hopen (by cases l <;> decide)
  | items _ _ _ ih₁ ih₂ =>
      intro after hafter
      rw [List.append_assoc]
      exact ih₁ _ (ih₂ after hafter)
  | @close l _ _ _ hg hclose =>
      intro after _
      rw [List.append_assoc]
      exact hg.legible (legible_of_kind hclose (by cases l <;> decide))
  | comma hg hcomma | trailing hg hcomma =>
      intro after _
      rw [List.append_assoc]
      exact hg.legible (legible_of_kind hcomma (by decide))
  | nothing => exact fun _ hafter => hafter
  | blank hkind =>
      rcases hkind with hkind | hkind
      · exact fun _ _ => legible_of_kind hkind (by decide)
      · exact fun _ _ => legible_of_kind hkind (by decide)
  | field _ hkind _ ih =>
      intro after _
      rw [List.append_assoc]
      exact ih _ (legible_of_kind hkind (by decide))
  | group hkind | call hkind | keyword _ hkind | name hkind | fragment hkind | option hkind
  | object hkind | directive hkind =>
      exact fun _ _ => legible_of_kind hkind (by decide)

section

variable {lax : Bool} {xs after rest : List Token}

theorem Halts.closes (h : Halts after) : Closes after := by
  refine closes_of_kind _ rfl ?_
  revert h
  rw [Halts]
  generalize front after = kind
  simp only [List.mem_cons, List.not_mem_nil, or_false]
  tauto

theorem halts_of_kind {t : Token} {kind : Kind} (ht : t.kind = kind)
    (hkind : kind ∈ [.eol, .comment, .mark .comma, .mark .rparen, .mark .rbracket]) :
    Halts (t :: after) := by
  rw [Halts, front, ht]
  exact hkind

theorem Gap.halts {g : List Token} (hg : Gap g) (h : Halts after) : Halts (g ++ after) := by
  cases g with
  | nil => exact h
  | cons t g =>
      rcases hg t List.mem_cons_self with hkind | hkind
      · exact halts_of_kind hkind (by decide)
      · exact halts_of_kind hkind (by decide)

theorem halts_of_closer {l : Listing} {t : Token} (ht : t.kind = l.closer) : Halts (t :: after) := by
  cases l with
  | array => exact halts_of_kind ht (by decide)
  | call | directive => exact halts_of_kind ht (by decide)

/-! ### Rows -/

/-- A row starts with an operand. -/
theorem Spells.startsOperand {first : Operand} {links : List (BinaryOp × Operand)}
    {more : List Symbol} {input : List Token}
    (h : Spells .start input (symbols first links ++ more) rest) :
    Parse.startsOperand (front input) = true := by
  obtain ⟨s, row, hrow, hs⟩ : ∃ s row, symbols first links ++ more = s :: row ∧
      ∀ op, s ≠ .link op := by
    obtain ⟨signs, e⟩ := first
    cases signs with
    | nil => cases links <;> exact ⟨_, _, rfl, nofun⟩
    | cons op signs => cases links <;> exact ⟨_, _, rfl, nofun⟩
  rw [hrow] at h
  cases h with
  | atom hprimary => exact (reads_primary hprimary).startsOperand rfl
  | sign hop => exact startsOperand_of_ofKind? hop
  | link => exact absurd rfl (hs _)

/-- A row is read as the tree over it. -/
theorem Shape.Readable.operation (h : Shape.row.Readable xs) : ∃ e, ∀ after, Legible after →
    front after ≠ .mark .lbracket → BinaryOp.ofKind? (front after) = none →
    Reads (.operation 1) (xs ++ after) e after := by
  obtain ⟨first, links, h⟩ := h
  refine ⟨(OperatorTree.ofChain first links).toExpr, fun after hafter hlbracket hop => ?_⟩
  have hspells := h after [] after hafter hlbracket (.nil after)
  rw [List.append_nil, ← OperatorTree.reading_ofChain] at hspells
  have hno (op : BinaryOp) : BinaryOp.ofKind? (front after) ≠ some op := by
    rw [hop]
    exact nofun
  exact (OperatorTree.shaped_ofChain first links).reads hspells (OperatorTree.one_le_floor _)
    (fun op hop => absurd hop (hno op)) (.noOperation fun op hop => absurd hop (hno op))

namespace Shape.Readable

variable {ys zs g g₁ g₂ g₃ : List Token} {t u : Token}

theorem link {op : BinaryOp} (hxs : row.Readable xs) (hop : BinaryOp.ofKind? t.kind = some op)
    (hg : Gap g) (hys : row.Readable ys) : row.Readable (xs ++ t :: (g ++ ys)) := by
  obtain ⟨first, links, hxs⟩ := hxs
  obtain ⟨second, more, hys⟩ := hys
  refine ⟨first, links ++ (op, second) :: more, fun after row rest hafter hlbracket hrow => ?_⟩
  have hbehind := hys after row rest hafter hlbracket hrow
  have hstart {kind : Kind} (hkind : startsOperand kind = false) : front (ys ++ after) ≠ kind := by
    intro heq
    rw [← heq, hbehind.startsOperand] at hkind
    cases hkind
  have hlegible : Legible (ys ++ after) := hstart rfl
  obtain ⟨saw, hlines, -⟩ := hg.exists_lines hlegible (hstart rfl) (hstart rfl)
  obtain ⟨hs, hlines⟩ := hlines.skipLines
  have hlbracket : front (t :: (g ++ (ys ++ after))) ≠ .mark .lbracket := by
    intro hkind
    rw [front] at hkind
    rw [hkind] at hop
    cases hop
  have hlink := hxs (t :: (g ++ (ys ++ after))) _ rest (legible_of_ofKind? hop) hlbracket
    (.link hop hlines hbehind)
  simpa [OperatorTree.symbols_append] using hlink

theorem sign {op : UnaryOp} (hop : UnaryOp.ofKind? t.kind = some op) (hxs : row.Readable xs) :
    row.Readable (t :: xs) := by
  obtain ⟨⟨signs, e⟩, links, hxs⟩ := hxs
  refine ⟨⟨op :: signs, e⟩, links, fun after row rest hafter hlbracket hrow => ?_⟩
  have hsign := Spells.sign hop (hxs after row rest hafter hlbracket hrow)
  cases links <;> exact hsign

theorem operand (hxs : indexed.Readable xs) : row.Readable xs := by
  obtain ⟨e, hxs⟩ := hxs
  refine ⟨⟨[], e⟩, [], fun after row rest hafter hlbracket hrow => ?_⟩
  obtain ⟨target, mid, hprimary, hindexes⟩ := hxs after e after hafter (.noIndex hlbracket)
  exact .of_reads hprimary hindexes hrow

theorem row (hxs : row.Readable xs) : expression.Readable xs := by
  obtain ⟨e, hxs⟩ := hxs.operation
  exact ⟨e, fun after hafter => .expression (hxs after hafter.legible hafter.lbracket
    hafter.operation) (.noChoice hafter.question)⟩

theorem choice (hxs : Shape.row.Readable xs) (hkind : t.kind = .mark .question) (hg₁ : Gap g₁)
    (hys : expression.Readable ys) (hg₂ : Gap g₂) (hcolon : u.kind = .mark .colon) (hg₃ : Gap g₃)
    (hzs : expression.Readable zs) :
    expression.Readable (xs ++ t :: (g₁ ++ (ys ++ (g₂ ++ u :: (g₃ ++ zs))))) := by
  obtain ⟨c, hxs⟩ := hxs.operation
  obtain ⟨yes, hys⟩ := hys
  obtain ⟨no, hzs⟩ := hzs
  refine ⟨.ternary c yes no, fun after hafter => ?_⟩
  have hzs := hzs after hafter
  have hys := hys (g₂ ++ u :: (g₃ ++ (zs ++ after))) (hg₂.closes (closes_colon hcolon))
  have hfront : front (t :: (g₁ ++ (ys ++ (g₂ ++ u :: (g₃ ++ (zs ++ after)))))) =
      .mark .question := hkind
  have hcondition := hxs (t :: (g₁ ++ (ys ++ (g₂ ++ u :: (g₃ ++ (zs ++ after))))))
    (legible_of_kind hkind nofun) (by rw [hfront]; decide) (by rw [hfront]; rfl)
  obtain ⟨_, hlines₁⟩ := hg₁.exists_lines_of_reads hys rfl
  obtain ⟨_, hlines₂⟩ := hg₂.exists_lines_of_kind (g₃ ++ (zs ++ after)) hcolon (by decide)
  obtain ⟨_, hlines₃⟩ := hg₃.exists_lines_of_reads hzs rfl
  have hread := Reads.expression hcondition (.choice hkind (hg₁.legible (hys.front_ne rfl rfl))
    hlines₁ hys hlines₂ hcolon (hg₃.legible (hzs.front_ne rfl rfl)) hlines₃ hzs)
  simpa using hread

theorem primary (hxs : primary.Readable xs) : indexed.Readable xs := by
  obtain ⟨e, hxs⟩ := hxs
  exact ⟨e, fun after _ _ hafter hindexes => ⟨e, after, hxs after hafter, hindexes⟩⟩

theorem index (hxs : indexed.Readable xs) (hopen : t.kind = .mark .lbracket) (hg₁ : Gap g₁)
    (hys : expression.Readable ys) (hg₂ : Gap g₂) (hclose : u.kind = .mark .rbracket) :
    indexed.Readable (xs ++ t :: (g₁ ++ (ys ++ (g₂ ++ [u])))) := by
  obtain ⟨target, hxs⟩ := hxs
  obtain ⟨i, hys⟩ := hys
  refine ⟨.index target i, fun after e rest hafter hindexes => ?_⟩
  have hys := hys (g₂ ++ u :: after) (hg₂.closes (closes_of_kind _ hclose (by decide)))
  obtain ⟨_, hlines₁⟩ := hg₁.exists_lines_of_reads hys rfl
  obtain ⟨_, hlines₂⟩ := hg₂.exists_lines_of_kind after hclose (by decide)
  have hindex := hxs (t :: (g₁ ++ (ys ++ (g₂ ++ u :: after)))) e rest
    (legible_of_kind hopen nofun)
    (.index hopen (hg₁.legible (hys.front_ne rfl rfl)) hlines₁ hys hlines₂ hclose hafter hindexes)
  simpa using hindex

theorem group (hopen : t.kind = .mark .lparen) (hg₁ : Gap g₁) (hxs : expression.Readable xs)
    (hg₂ : Gap g₂) (hclose : u.kind = .mark .rparen) :
    Shape.primary.Readable (t :: (g₁ ++ (xs ++ (g₂ ++ [u])))) := by
  obtain ⟨e, hxs⟩ := hxs
  refine ⟨e, fun after hafter => ?_⟩
  have hxs := hxs (g₂ ++ u :: after) (hg₂.closes (closes_of_kind _ hclose (by decide)))
  obtain ⟨_, hlines₁⟩ := hg₁.exists_lines_of_reads hxs rfl
  obtain ⟨_, hlines₂⟩ := hg₂.exists_lines_of_kind after hclose (by decide)
  have hgroup := Reads.group hopen (hg₁.legible (hxs.front_ne rfl rfl)) hlines₁ hxs hlines₂ hclose
    hafter
  simpa using hgroup

theorem array (hxs : (listing .array).Readable xs) : Shape.primary.Readable xs := by
  obtain ⟨t, us, items, rfl, hopen, hus⟩ := hxs
  refine ⟨.array items, fun after hafter => ?_⟩
  obtain ⟨_, _, hlegible, hlines, hitems⟩ := hus after hafter
  exact .array hopen hlegible hlines hitems

theorem call (hkind : t.kind = .identifier) (hxs : (listing .call).Readable xs) :
    Shape.primary.Readable (t :: xs) := by
  obtain ⟨u, us, args, rfl, hopen, hus⟩ := hxs
  refine ⟨.call t.text args t.position, fun after hafter => ?_⟩
  obtain ⟨_, _, hlegible, hlines, hargs⟩ := hus after hafter
  exact .called hkind (.call hopen hlegible hlines hargs)

/-! ### Lists -/

variable {l : Listing} {named key : Bool}

theorem empty (hopen : t.kind = l.opener) (hg : Gap g) (hclose : u.kind = l.closer) :
    (listing l).Readable (t :: (g ++ [u])) := by
  refine ⟨t, g ++ [u], [], rfl, hopen, fun after hafter => ?_⟩
  have hcloser : l.closer ≠ .invalid ∧ l.closer ≠ .eol ∧ l.closer ≠ .comment := by
    cases l <;> decide
  obtain ⟨saw, hlines⟩ := hg.exists_lines_of_kind after hclose hcloser
  rw [List.append_assoc]
  exact ⟨saw, u :: after, hg.legible (legible_of_kind hclose hcloser.1), hlines,
    Listing.fills_close hclose hafter⟩

theorem listing (hopen : t.kind = l.opener) (hg : Gap g) (hxs : (items l false).Readable xs) :
    (Shape.listing l).Readable (t :: (g ++ xs)) := by
  obtain ⟨items, hxs⟩ := hxs [] nofun
  refine ⟨t, g ++ xs, items, rfl, hopen, fun after hafter => ?_⟩
  obtain ⟨hitems, _, _, hitem⟩ := hxs after hafter
  have hlegible : Legible (xs ++ after) := hitem.front_ne (by simp)
  obtain ⟨saw, hlines, -⟩ := hg.exists_lines hlegible (hitem.front_ne (by simp))
    (hitem.front_ne (by simp))
  rw [List.append_assoc]
  exact ⟨saw, xs ++ after, hg.legible hlegible, hlines, hitems⟩

theorem items (hxs : (item l key).Readable xs)
    (hnamed : l = .call → named = true → key = true)
    (hys : (tail l key).Readable ys) : (Shape.items l named).Readable (xs ++ ys) := by
  obtain ⟨item, hkey, hxs⟩ := hxs
  intro done hdone
  have hadmits : l.Admits done item := by
    cases l with
    | call =>
        intro hnone
        by_contra hsome
        have hkey' := hnamed rfl (hdone rfl (Bool.eq_true_of_not_eq_false hsome))
        rw [← hkey, Listing.isNamed] at hkey'
        rw [Option.isNone_iff_eq_none.mp hnone] at hkey'
        cases hkey'
    | array | directive => trivial
  obtain ⟨items, hys⟩ := hys done item (fun hl hany => by
    rw [List.any_cons, hkey, Bool.or_eq_true] at hany
    exact hany.elim id fun hany => hnamed hl (hdone hl hany)) hadmits
  refine ⟨items, fun after hafter => ?_⟩
  obtain ⟨hhalts, hfill⟩ := hys after hafter
  have hitem := hxs (ys ++ after) hhalts
  rw [List.append_assoc]
  exact ⟨hfill _ hitem, item, ys ++ after, hitem⟩

theorem close (hg : Gap g) (hclose : u.kind = l.closer) :
    (tail l named).Readable (g ++ [u]) := by
  intro done item _ hadmits
  refine ⟨(item :: done).reverse, fun after hafter => ?_⟩
  rw [List.append_assoc]
  refine ⟨hg.halts (halts_of_closer hclose), fun input hitem => ?_⟩
  obtain ⟨saw, hlines⟩ := hg.exists_lines_of_kind after hclose (by cases l <;> decide)
  exact Listing.fills_last hitem hadmits hlines hclose hafter

theorem comma (hg₁ : Gap g₁) (hcomma : t.kind = .mark .comma) (hg₂ : Gap g₂)
    (hxs : (Shape.items l named).Readable xs) :
    (tail l named).Readable (g₁ ++ t :: (g₂ ++ xs)) := by
  intro done item hnamed hadmits
  obtain ⟨items, hxs⟩ := hxs (item :: done) hnamed
  refine ⟨items, fun after hafter => ?_⟩
  obtain ⟨hitems, _, _, hfirst⟩ := hxs after hafter
  have hlegible : Legible (xs ++ after) := hfirst.front_ne (by simp)
  obtain ⟨_, hlines₁⟩ := hg₁.exists_lines_of_kind (g₂ ++ (xs ++ after)) hcomma (by decide)
  obtain ⟨_, hlines₂, -⟩ := hg₂.exists_lines hlegible (hfirst.front_ne (by simp))
    (hfirst.front_ne (by simp))
  have hinput : g₁ ++ t :: (g₂ ++ xs) ++ after = g₁ ++ t :: (g₂ ++ (xs ++ after)) := by simp
  rw [hinput]
  exact ⟨hg₁.halts (halts_of_kind hcomma (by decide)), fun input hitem =>
    Listing.fills_more hitem hadmits hlines₁ hcomma (hg₂.legible hlegible) hlines₂
      (fun _ hfront => absurd hfront (hfirst.front_ne (by simp))) hitems⟩

theorem trailing (hg₁ : Gap g₁) (hcomma : t.kind = .mark .comma) (hg₂ : Gap g₂)
    (hclose : u.kind = l.closer) (htrail : l.MayTrail lax g₂) :
    (tail l named).Readable (g₁ ++ t :: (g₂ ++ [u])) := by
  intro done item _ hadmits
  refine ⟨(item :: done).reverse, fun after hafter => ?_⟩
  have hcloser : l.closer ≠ .invalid ∧ l.closer ≠ .eol ∧ l.closer ≠ .comment := by
    cases l <;> decide
  have hlegible : Legible (u :: after) := legible_of_kind hclose hcloser.1
  obtain ⟨_, hlines₁⟩ := hg₁.exists_lines_of_kind (g₂ ++ u :: after) hcomma (by decide)
  obtain ⟨_, hlines₂, hsaw⟩ := hg₂.exists_lines hlegible (by rw [front, hclose]; exact hcloser.2.1)
    (by rw [front, hclose]; exact hcloser.2.2)
  have hinput : g₁ ++ t :: (g₂ ++ [u]) ++ after = g₁ ++ t :: (g₂ ++ u :: after) := by simp
  rw [hinput]
  refine ⟨hg₁.halts (halts_of_kind hcomma (by decide)), fun input hitem =>
    Listing.fills_more hitem hadmits hlines₁ hcomma (hg₂.legible hlegible) hlines₂ ?_
      (Listing.fills_close hclose hafter)⟩
  rintro rfl -
  exact hsaw htrail

theorem bare (hxs : (value l).Readable xs) : (item l false).Readable xs := by
  cases l with
  | array =>
      obtain ⟨e, hxs⟩ := hxs
      exact ⟨e, rfl, fun after hafter => hxs after hafter.closes⟩
  | call =>
      obtain ⟨e, hxs⟩ := hxs
      exact ⟨⟨none, e⟩, rfl, fun after hafter => (hxs after hafter.closes).toArgument⟩
  | directive =>
      obtain ⟨payload, hxs⟩ := hxs
      exact ⟨⟨none, payload⟩, rfl, fun after hafter => (hxs after hafter).2⟩

theorem keyword (hl : l ≠ .array) (ht : t.kind = .identifier) (hu : u.kind = .mark .assign)
    (hg : Gap g) (hxs : (value l).Readable xs) :
    (item l true).Readable (t :: u :: (g ++ xs)) := by
  cases l with
  | array => exact absurd rfl hl
  | call =>
      obtain ⟨e, hxs⟩ := hxs
      refine ⟨⟨some t.text, e⟩, rfl, fun after hafter => ?_⟩
      have hxs := hxs after hafter.closes
      obtain ⟨saw, hlines⟩ := hg.exists_lines_of_reads hxs rfl
      have harg := Reads.keyword ht hu (hg.legible (hxs.front_ne rfl rfl)) hlines hxs
      simpa [Listing.Takes] using harg
  | directive =>
      obtain ⟨payload, hxs⟩ := hxs
      refine ⟨⟨some t.text, payload⟩, rfl, fun after hafter => ?_⟩
      obtain ⟨hpayload, hxs⟩ := hxs after hafter
      have hxs : Listing.directive.Takes (xs ++ after) ⟨none, payload⟩ after := hxs
      have hlegible : Legible (xs ++ after) := hxs.front_ne (by simp)
      obtain ⟨saw, hlines, -⟩ := hg.exists_lines hlegible (hxs.front_ne (by simp))
        (hxs.front_ne (by simp))
      have harg := Builds.keyword ht hu (hg.legible hlegible) hlines hpayload
      simpa [Listing.Takes] using harg

theorem value (hxs : expression.Readable xs) : (Shape.value l).Readable xs := by
  cases l with
  | array | call => exact hxs
  | directive =>
      obtain ⟨e, hxs⟩ := hxs
      refine ⟨.expr e, fun after hafter => ?_⟩
      have hxs := hxs after hafter.closes
      obtain ⟨_, hpayload⟩ := (payload_of_reads .start hxs).exists_eq
      have harg : Returns (directiveArg .start (xs ++ after)) _ after := directiveArg_of_reads hxs
      obtain ⟨_, harg⟩ := harg.exists_eq
      exact ⟨builds_payload hpayload, builds_directiveArg harg⟩

theorem name (hkind : t.kind = .identifier) : (Shape.value .directive).Readable [t] := by
  refine ⟨.ident t.text, fun after hafter => ?_⟩
  have hparen : front after ≠ .mark .lparen := by
    intro hfront
    rw [Halts, hfront] at hafter
    exact absurd hafter (by decide)
  have hname := Builds.name hkind hafter.closes.legible hparen
  refine ⟨hname, .arg ?_ hname⟩
  rintro v u us hinput - hu
  obtain ⟨-, rfl⟩ := List.cons.inj hinput
  rw [Halts, front, hu] at hafter
  exact absurd hafter (by decide)

theorem fragment (hopen : t.kind = .mark .lbrace)
    (hlegible : ∀ after, Legible after → Legible (xs ++ after)) (hxs : body.Readable xs)
    (hclose : u.kind = .mark .rbrace) : (Shape.value .directive).Readable (t :: (xs ++ [u])) := by
  obtain ⟨o, hxs⟩ := hxs true (Object.empty "" t.position) []
  refine ⟨.block o, fun after hafter => ?_⟩
  have hfragment := Builds.fragment hopen (hlegible _ (legible_of_kind hclose nofun))
    (hxs (u :: after) hclose) hclose hafter.closes.legible
  have hinput : t :: (xs ++ [u]) ++ after = t :: (xs ++ u :: after) := by simp
  rw [hinput]
  refine ⟨hfragment, .arg ?_ hfragment⟩
  rintro v _ _ heq hv -
  obtain ⟨rfl, -⟩ := List.cons.inj heq
  rw [hopen] at hv
  cases hv

/-! ### Bodies -/

theorem nothing : body.Readable [] := by
  intro inBraces o pending
  refine ⟨{ o with footer := o.footer ++ pending }, fun after hafter => ?_⟩
  cases inBraces with
  | false =>
      obtain rfl : after = [] := hafter
      exact .finish
  | true =>
      cases after with
      | nil => cases hafter
      | cons t us => exact .close hafter

theorem legible_of_ends {inBraces : Bool}
    (hafter : if inBraces then front after = .mark .rbrace else after = []) : Legible after := by
  cases inBraces with
  | false =>
      obtain rfl : after = [] := hafter
      rw [Legible, front]
      decide
  | true =>
      have hfront : front after = .mark .rbrace := hafter
      rw [Legible, hfront]
      decide

theorem blank (hkind : t.kind = .eol ∨ t.kind = .comment)
    (hlegible : ∀ after, Legible after → Legible (xs ++ after)) (hxs : body.Readable xs) :
    body.Readable (t :: xs) := by
  intro inBraces o pending
  rcases hkind with hkind | hkind
  · obtain ⟨v, hxs⟩ := hxs inBraces o pending
    exact ⟨v, fun after hafter => .line hkind (hlegible _ (legible_of_ends hafter))
      (hxs after hafter)⟩
  · obtain ⟨v, hxs⟩ := hxs inBraces o (pending ++ [t.text])
    exact ⟨v, fun after hafter => .comment hkind (hlegible _ (legible_of_ends hafter))
      (hxs after hafter)⟩

theorem lastField (hxs : field.Readable xs) : body.Readable xs := by
  intro inBraces o pending
  obtain ⟨o', hxs⟩ := hxs inBraces o pending
  obtain ⟨v, hend⟩ := nothing inBraces o' []
  refine ⟨v, fun after hafter => hxs after after v after ?_ (hend after hafter)⟩
  cases inBraces with
  | false =>
      obtain rfl : after = [] := hafter
      exact .finish
  | true =>
      cases after with
      | nil => cases hafter
      | cons t us => exact .brace hafter

theorem field (hxs : field.Readable xs) (hkind : t.kind = .eol)
    (hlegible : ∀ after, Legible after → Legible (ys ++ after)) (hys : body.Readable ys) :
    body.Readable (xs ++ t :: ys) := by
  intro inBraces o pending
  obtain ⟨o', hxs⟩ := hxs inBraces o pending
  obtain ⟨v, hys⟩ := hys inBraces o' []
  refine ⟨v, fun after hafter => ?_⟩
  rw [List.append_assoc]
  exact hxs _ _ v after (.line hkind (hlegible _ (legible_of_ends hafter))) (hys after hafter)

end Shape.Readable

theorem EndsItem.front_mem (h : EndsItem after rest) :
    front after ∈ [.eol, .mark .rbrace, .eof] := by
  cases h with
  | line hkind => simp [front, hkind]
  | brace hkind => simp [front, hkind]
  | finish => simp [front]

theorem EndsItem.closes (h : EndsItem after rest) : Closes after := by
  have hfront := h.front_mem
  refine closes_of_kind _ rfl ?_
  generalize front after = kind at hfront
  simp only [List.mem_cons, List.not_mem_nil, or_false] at hfront ⊢
  tauto

theorem Aside.closes {aside : List Token} (h : Aside aside) (hafter : Closes after) :
    Closes (aside ++ after) := by
  cases h with
  | none => exact hafter
  | some hkind => exact closes_of_kind .comment hkind (by decide)

/-- A comment behind a field is read off, up to the end of the item. -/
theorem Aside.exists_trailing {aside : List Token} (h : Aside aside) :
    ∃ trailing, ∀ after next, EndsItem after next → Trailing (aside ++ after) trailing after := by
  cases h with
  | none =>
      refine ⟨.none, fun after next hend => .none fun hcomment => ?_⟩
      have hfront := hend.front_mem
      rw [show front after = .comment from hcomment] at hfront
      exact absurd hfront (by decide)
  | @some t hkind =>
      exact ⟨.some t.text, fun after next hend => .some hkind hend.closes.legible⟩

namespace Shape.Readable

variable {ys g label aside : List Token} {t u name : Token}

theorem option (hname : name.kind = .identifier) (hkind : t.kind = .mark .assign)
    (hxs : expression.Readable xs) (haside : Aside aside) :
    Shape.field.Readable (name :: t :: (xs ++ aside)) := by
  intro inBraces o pending
  obtain ⟨e, hxs⟩ := hxs
  obtain ⟨trailing, htrailing⟩ := haside.exists_trailing
  refine ⟨o.insert (.option ⟨name.text, e, ⟨pending, trailing⟩, name.position⟩),
    fun after next v rest hend hbody => ?_⟩
  have hxs := hxs (aside ++ after) (haside.closes hend.closes)
  have hoption : Builds (.field name pending) (t :: (xs ++ (aside ++ after))) _ next :=
    .option hkind (hxs.front_ne rfl rfl) hxs (htrailing after next hend) hend
  simpa using Builds.fieldItem hname hoption hbody

theorem object (hname : name.kind = .identifier) (hlabel : Labels label)
    (hopen : t.kind = .mark .lbrace) (hlegible : ∀ after, Legible after → Legible (xs ++ after))
    (hxs : body.Readable xs) (hclose : u.kind = .mark .rbrace) (haside : Aside aside) :
    Shape.field.Readable (name :: (label ++ t :: (xs ++ u :: aside))) := by
  intro inBraces o pending
  obtain ⟨trailing, htrailing⟩ := haside.exists_trailing
  -- the block is the same with a label and without
  have hblock (l : Option String) : ∃ node, ∀ after next, EndsItem after next →
      Builds (.block name.text l name.position pending) (t :: (xs ++ u :: (aside ++ after))) node
        next := by
    obtain ⟨o, hxs⟩ := hxs true { Object.empty name.text name.position with label := l } []
    exact ⟨_, fun after next hend => .block hopen (hlegible _ (legible_of_kind hclose nofun))
      (hxs (u :: (aside ++ after)) hclose) hclose (haside.closes hend.closes).legible
      (htrailing after next hend) hend⟩
  cases hlabel with
  | none =>
      obtain ⟨node, hnode⟩ := hblock none
      refine ⟨o.insert node, fun after next v rest hend hbody => ?_⟩
      have hfield := Builds.fieldItem hname (.object (hnode after next hend)) hbody
      simpa using hfield
  | @some s hkind =>
      obtain ⟨node, hnode⟩ := hblock (some s.text)
      refine ⟨o.insert node, fun after next v rest hend hbody => ?_⟩
      have hfield := Builds.fieldItem hname
        (.labelled hkind (legible_of_kind hopen nofun) (hnode after next hend)) hbody
      simpa using hfield

theorem directive {kind : DirectiveKind} (hkind : t.kind = .directive)
    (hname : DirectiveKind.ofName? t.text = some kind)
    (hxs : (Shape.listing .directive).Readable xs) : Shape.field.Readable (t :: xs) := by
  intro inBraces o pending
  obtain ⟨u, us, args, rfl, hopen, hus⟩ := hxs
  refine ⟨addDirective o ⟨kind, args, t.position, o.fields.length⟩ pending,
    fun after next v rest hend hbody => ?_⟩
  obtain ⟨_, _, hlegible, hlines, hargs⟩ := hus after hend.closes.legible
  exact .directiveItem hkind (.directive hname hopen hlegible hlines hargs) hend hbody

end Shape.Readable

/-- **Every phrase is read**, in front of all tokens that may stand behind it. -/
theorem Phrase.readable {s : Shape} (h : Phrase lax s xs) : s.Readable xs := by
  induction h with
  | row _ ih => exact ih.row
  | choice _ hkind hg₁ _ hg₂ hcolon hg₃ _ ih₁ ih₂ ih₃ =>
      exact ih₁.choice hkind hg₁ ih₂ hg₂ hcolon hg₃ ih₃
  | operand _ ih => exact ih.operand
  | sign hop _ ih => exact ih.sign hop
  | link _ hop hg _ ih₁ ih₂ => exact ih₁.link hop hg ih₂
  | primary _ ih => exact ih.primary
  | index _ hopen hg₁ _ hg₂ hclose ih₁ ih₂ => exact ih₁.index hopen hg₁ ih₂ hg₂ hclose
  | literal hkind hvalue => exact ⟨_, fun after hafter => .literal hkind hafter hvalue⟩
  | var hkind =>
      rcases hkind with hkind | hkind
      · exact ⟨_, fun after hafter => .localVar hkind hafter⟩
      · exact ⟨_, fun after hafter => .baseVar hkind hafter⟩
  | group hopen hg₁ _ hg₂ hclose ih => exact .group hopen hg₁ ih hg₂ hclose
  | array _ ih => exact ih.array
  | call hkind _ ih => exact ih.call hkind
  | empty hopen hg hclose => exact .empty hopen hg hclose
  | listing hopen hg _ ih => exact ih.listing hopen hg
  | items _ hnamed _ ih₁ ih₂ => exact ih₁.items hnamed ih₂
  | close hg hclose => exact .close hg hclose
  | comma hg₁ hcomma hg₂ _ ih => exact ih.comma hg₁ hcomma hg₂
  | trailing hg₁ hcomma hg₂ hclose htrail => exact .trailing hg₁ hcomma hg₂ hclose htrail
  | bare _ ih => exact ih.bare
  | keyword hl ht hu hg _ ih => exact ih.keyword hl ht hu hg
  | value _ ih => exact ih.value
  | name hkind => exact .name hkind
  | fragment hopen hxs hclose ih => exact ih.fragment hopen hxs.legible hclose
  | nothing => exact .nothing
  | blank hkind hxs ih => exact ih.blank hkind hxs.legible
  | lastField _ ih => exact ih.lastField
  | field _ hkind hys ih₁ ih₂ => exact ih₁.field hkind hys.legible ih₂
  | option hname hkind _ haside ih => exact ih.option hname hkind haside
  | object hname hlabel hopen hxs hclose haside ih =>
      exact ih.object hname hlabel hopen hxs.legible hclose haside
  | directive hkind hname _ ih => exact ih.directive hkind hname

end

end ConfigLang.Parse
