import Mathlib
import ConfigLang.Proofs.Parse.Readable

/-!
# Lists follow the grammar

The parsers accept exactly the texts that are written with a comma behind the last item of a call or
of a directive, or without one (`Whole.accepts_iff`).  The grammar of the manual has no such comma,
and its texts are those among them in which no comma stands before a closing parenthesis.

## Strategy

That the parsers accept just the phrases is known from `Phrase.readable` and the theorems on what is
read of a phrase; what is left is to tell the two grammars apart by the tokens alone.

* **Commas that trail.**  `findsTrailing` looks for a comma before a closing parenthesis with a gap
  between them, and finds one just if there is one (`findsTrailing_iff`).  It goes through tokens
  from the first to the last, so pieces are joined by what is pending behind the first of them
  (`findsTrailing_append`).
* **Phrases of the manual** have none: no comma is pending behind a piece, and one may be in front
  of it only if the piece starts with a token of its own (`Shape.Clean`, `Phrase.clean`).
* **Other phrases** have one, because the rule that the manual lacks puts it there
  (`Phrase.documented`).
-/

namespace ConfigLang.Parse

/-! ## Commas before a closing parenthesis -/

/-- A comma stands before a closing parenthesis, with line ends and comments between them at
most. -/
def Trails (tokens : List Token) : Prop :=
  ∃ comma g paren, comma :: (g ++ [paren]) <:+: tokens ∧ comma.kind = .mark .comma ∧ Gap g ∧
    paren.kind = .mark .rparen

/-- Looks for a comma before a closing parenthesis; `pending` says whether one is right before the
tokens. -/
def findsTrailing (pending : Bool) : List Token → Bool
  | [] => false
  | t :: ts =>
    if t.kind = .mark .comma then findsTrailing true ts
    else if t.kind = .eol ∨ t.kind = .comment then findsTrailing pending ts
    else if t.kind = .mark .rparen ∧ pending = true then true
    else findsTrailing false ts

section

variable {xs ys g : List Token} {t : Token} {pending : Bool}

theorem Trails.mono (h : Trails xs) (hpiece : xs <:+: ys) : Trails ys := by
  obtain ⟨comma, g, paren, hmem, hkinds⟩ := h
  exact ⟨comma, g, paren, hmem.trans hpiece, hkinds⟩

theorem not_trails_of_append (h : ¬ Trails (xs ++ ys)) : ¬ Trails xs ∧ ¬ Trails ys :=
  ⟨fun hxs => h (hxs.mono (List.prefix_append xs ys).isInfix),
    fun hys => h (hys.mono (List.suffix_append xs ys).isInfix)⟩

theorem not_trails_of_cons (h : ¬ Trails (t :: xs)) : ¬ Trails xs :=
  fun hxs => h (hxs.mono (List.suffix_cons t xs).isInfix)

theorem findsTrailing_comma (ht : t.kind = .mark .comma) :
    findsTrailing pending (t :: xs) = findsTrailing true xs := by
  rw [findsTrailing, if_pos ht]

@[simp]
theorem findsTrailing_gap (hg : Gap g) :
    findsTrailing pending (g ++ xs) = findsTrailing pending xs := by
  induction g with
  | nil => rfl
  | cons t g ih =>
      obtain ⟨ht, hg⟩ := List.forall_mem_cons.mp hg
      have hcomma : t.kind ≠ .mark .comma := by
        intro hcomma
        simp [hcomma] at ht
      rw [List.cons_append, findsTrailing, if_neg hcomma, if_pos ht, ih hg]

/-- Behind any other token no comma is pending. -/
theorem findsTrailing_of_property {P : Kind → Bool} (ht : P t.kind = true)
    (hP : ∀ kind ∈ [.mark .comma, .eol, .comment, .mark .rparen], P kind = false) :
    findsTrailing pending (t :: xs) = findsTrailing false xs := by
  have hne {kind : Kind} (hkind : kind ∈ [.mark .comma, .eol, .comment, .mark .rparen]) :
      t.kind ≠ kind := by
    rintro rfl
    rw [hP _ hkind] at ht
    cases ht
  simp [findsTrailing, hne]

theorem findsTrailing_append (h : ∀ pending, findsTrailing pending ys = true) :
    findsTrailing pending (xs ++ ys) = true := by
  induction xs generalizing pending with
  | nil => exact h pending
  | cons t xs ih =>
      rw [List.cons_append, findsTrailing]
      split_ifs
      · exact ih
      · exact ih
      · rfl
      · exact ih

/-- What is found is a comma that trails among the tokens, or the one in front of them. -/
theorem trails_of_findsTrailing (h : findsTrailing pending xs = true) :
    Trails xs ∨ pending = true ∧ ∃ g paren after, xs = g ++ paren :: after ∧ Gap g ∧
      paren.kind = .mark .rparen := by
  induction xs generalizing pending with
  | nil => cases h
  | cons t xs ih =>
      have hpiece : xs <:+: t :: xs := (List.suffix_cons t xs).isInfix
      rw [findsTrailing] at h
      split_ifs at h with hcomma hgap hparen
      · obtain htrails | ⟨-, g, paren, after, rfl, hg, hparen⟩ := ih h
        · exact .inl (htrails.mono hpiece)
        · exact .inl ⟨t, g, paren, ⟨[], after, by simp⟩, hcomma, hg, hparen⟩
      · obtain htrails | ⟨hpending, g, paren, after, rfl, hg, hparen⟩ := ih h
        · exact .inl (htrails.mono hpiece)
        · exact .inr ⟨hpending, t :: g, paren, after, rfl, List.forall_mem_cons.mpr ⟨hgap, hg⟩,
            hparen⟩
      · exact .inr ⟨hparen.2, [], t, xs, rfl, nofun, hparen.1⟩
      · obtain htrails | ⟨hpending, -⟩ := ih h
        · exact .inl (htrails.mono hpiece)
        · cases hpending

theorem findsTrailing_iff : findsTrailing false xs = true ↔ Trails xs := by
  constructor
  · intro h
    obtain htrails | ⟨hpending, -⟩ := trails_of_findsTrailing h
    · exact htrails
    · cases hpending
  · rintro ⟨comma, g, paren, ⟨before, after, rfl⟩, hcomma, hg, hparen⟩
    have hbehind (pending : Bool) :
        findsTrailing pending (comma :: (g ++ paren :: after)) = true := by
      rw [findsTrailing_comma hcomma, findsTrailing_gap hg]
      simp [findsTrailing, hparen]
    have hfinds : findsTrailing false (before ++ comma :: (g ++ paren :: after)) = true :=
      findsTrailing_append hbehind
    simpa using hfinds

instance (tokens : List Token) : Decidable (Trails tokens) :=
  decidable_of_iff _ findsTrailing_iff

end

/-! ## The grammar of the manual -/

/-- Whether a piece starts with a token that ends no list and is part of no gap. -/
def Shape.isSolid : Shape → Bool
  | body | tail .. => false
  | _ => true

/-- Behind a piece no comma is pending; one may be in front of it if it is solid. -/
def Shape.Clean (s : Shape) (xs : List Token) : Prop :=
  ∀ pending rest, (s.isSolid = false → pending = false) →
    findsTrailing pending (xs ++ rest) = findsTrailing false rest

section

variable {s : Shape} {xs rest : List Token} {pending : Bool}

theorem Shape.Clean.solid (h : s.Clean xs) (hs : s.isSolid = true) :
    findsTrailing pending (xs ++ rest) = findsTrailing false rest :=
  h pending rest fun hs' => by simp [hs] at hs'

theorem Shape.Clean.append (h : s.Clean xs) :
    findsTrailing false (xs ++ rest) = findsTrailing false rest :=
  h false rest fun _ => rfl

theorem Phrase.clean (h : Phrase false s xs) : s.Clean xs := by
  induction h with
  | row _ ih | operand _ ih | primary _ ih | array _ ih | bare _ ih | value _ ih => exact ih
  | choice _ hkind hg₁ _ hg₂ hcolon hg₃ _ ih₁ ih₂ ih₃ =>
      intro pending rest _
      simp [findsTrailing, ih₁.solid rfl, ih₂.append, ih₃.append, *]
  | @sign _ t op hop _ ih =>
      intro pending rest _
      have ht : (UnaryOp.ofKind? t.kind).isSome = true := by rw [hop]; rfl
      rw [List.cons_append,
        findsTrailing_of_property (P := fun kind => (UnaryOp.ofKind? kind).isSome) ht (by decide),
        ih.append]
  | @link _ _ g t op _ hop hg _ ih₁ ih₂ =>
      intro pending rest _
      have ht : (BinaryOp.ofKind? t.kind).isSome = true := by rw [hop]; rfl
      rw [List.append_assoc, ih₁.solid rfl, List.cons_append,
        findsTrailing_of_property (P := fun kind => (BinaryOp.ofKind? kind).isSome) ht (by decide),
        List.append_assoc, findsTrailing_gap hg, ih₂.append]
  | index _ hopen hg₁ _ hg₂ hclose ih₁ ih₂ =>
      intro pending rest _
      simp [findsTrailing, ih₁.solid rfl, ih₂.append, *]
  | literal hkind hvalue =>
      exact fun pending rest _ => findsTrailing_of_property hkind (by decide)
  | var hkind => 
      intro pending rest _
      rcases hkind with hkind | hkind <;> simp [findsTrailing, hkind]
  | group hopen hg₁ _ hg₂ hclose ih =>
      intro pending rest _
      simp [findsTrailing, ih.append, *]
  | call hkind _ ih =>
      intro pending rest _
      simp [findsTrailing, ih.append, *]
  | @empty l _ _ _ hopen hg hclose => 
      intro pending rest _
      cases l <;> simp [findsTrailing, Listing.opener, Listing.closer, *]
  | @listing l _ _ _ hopen hg _ ih => 
      intro pending rest _
      cases l <;> simp [findsTrailing, ih.append, Listing.opener, *]
  | items _ hnamed _ ih₁ ih₂ =>
      intro pending rest _
      simp [ih₁.solid rfl, ih₂.append]
  | @close l _ _ _ hg hclose => 
      intro pending rest hpending
      obtain rfl := hpending rfl
      cases l <;> simp [findsTrailing, Listing.closer, *]
  | comma hg₁ hcomma hg₂ _ ih =>
      intro pending rest _
      simp [findsTrailing, ih.solid rfl, *]
  | @trailing l _ _ _ _ _ hg₁ hcomma hg₂ hclose htrail => 
      intro pending rest _
      cases l with
      | array => simp [findsTrailing, Listing.closer, *]
      | call | directive => cases htrail
  | keyword hl ht hu hg _ ih =>
      intro pending rest _
      simp [findsTrailing, ih.append, *]
  | name hkind =>
      intro pending rest _
      simp [findsTrailing, hkind]
  | fragment hopen hxs hclose ih =>
      intro pending rest _
      simp [findsTrailing, ih.append, *]
  | nothing => 
      intro pending rest hpending
      rw [hpending rfl]
      rfl
  | blank hkind hxs ih => 
      intro pending rest hpending
      obtain rfl := hpending rfl
      rcases hkind with hkind | hkind <;> simp [findsTrailing, ih.append, hkind]
  | lastField _ ih => exact fun pending rest _ => ih pending rest nofun
  | field _ hkind hys ih₁ ih₂ => 
      intro pending rest _
      simp [findsTrailing, ih₁.solid rfl, ih₂.append, *]
  | option hname hkind _ haside ih => 
      intro pending rest _
      cases haside <;>
      simp [findsTrailing, ih.append, *]
  | object hname hlabel hopen hxs hclose haside ih =>
      intro pending rest _
      cases haside <;> cases hlabel <;> simp [findsTrailing, ih.append, *]
  | directive hkind hname _ ih =>
      intro pending rest _
      simp [findsTrailing, ih.append, *]

/-- A piece is written as the manual has it, or a comma trails in it. -/
theorem Phrase.documented (h : Phrase true s xs) (htrail : ¬ Trails xs) : Phrase false s xs := by
  induction h with
  | row _ ih => exact .row (ih htrail)
  | choice _ hkind hg₁ _ hg₂ hcolon hg₃ _ ih₁ ih₂ ih₃ =>
      obtain ⟨h₁, htrail⟩ := not_trails_of_append htrail
      obtain ⟨-, htrail⟩ := not_trails_of_append (not_trails_of_cons htrail)
      obtain ⟨h₂, htrail⟩ := not_trails_of_append htrail
      obtain ⟨-, htrail⟩ := not_trails_of_append htrail
      obtain ⟨-, h₃⟩ := not_trails_of_append (not_trails_of_cons htrail)
      exact .choice (ih₁ h₁) hkind hg₁ (ih₂ h₂) hg₂ hcolon hg₃ (ih₃ h₃)
  | operand _ ih => exact .operand (ih htrail)
  | sign hop _ ih => exact .sign hop (ih (not_trails_of_cons htrail))
  | link _ hop hg _ ih₁ ih₂ =>
      obtain ⟨h₁, htrail⟩ := not_trails_of_append htrail
      obtain ⟨-, h₂⟩ := not_trails_of_append (not_trails_of_cons htrail)
      exact .link (ih₁ h₁) hop hg (ih₂ h₂)
  | primary _ ih => exact .primary (ih htrail)
  | index _ hopen hg₁ _ hg₂ hclose ih₁ ih₂ =>
      obtain ⟨h₁, htrail⟩ := not_trails_of_append htrail
      obtain ⟨-, htrail⟩ := not_trails_of_append (not_trails_of_cons htrail)
      exact .index (ih₁ h₁) hopen hg₁ (ih₂ (not_trails_of_append htrail).1) hg₂ hclose
  | literal hkind hvalue => exact .literal hkind hvalue
  | var hkind => exact .var hkind
  | group hopen hg₁ _ hg₂ hclose ih =>
      obtain ⟨-, htrail⟩ := not_trails_of_append (not_trails_of_cons htrail)
      exact .group hopen hg₁ (ih (not_trails_of_append htrail).1) hg₂ hclose
  | array _ ih => exact .array (ih htrail)
  | call hkind _ ih => exact .call hkind (ih (not_trails_of_cons htrail))
  | empty hopen hg hclose => exact .empty hopen hg hclose
  | listing hopen hg _ ih =>
      exact .listing hopen hg (ih (not_trails_of_append (not_trails_of_cons htrail)).2)
  | items _ hnamed _ ih₁ ih₂ =>
      obtain ⟨h₁, h₂⟩ := not_trails_of_append htrail
      exact .items (ih₁ h₁) hnamed (ih₂ h₂)
  | close hg hclose => exact .close hg hclose
  | comma hg₁ hcomma hg₂ _ ih =>
      obtain ⟨-, htrail⟩ := not_trails_of_append htrail
      exact .comma hg₁ hcomma hg₂ (ih (not_trails_of_append (not_trails_of_cons htrail)).2)
  | @trailing l _ g t u _ hg₁ hcomma hg₂ hclose hmay =>
      refine .trailing hg₁ hcomma hg₂ hclose ?_
      cases l with
      | array => exact hmay
      | call | directive =>
          have htrails : Trails (t :: (g ++ [u])) :=
            ⟨t, g, u, List.infix_rfl, hcomma, hg₂, hclose⟩
          exact absurd htrails (not_trails_of_append htrail).2
  | bare _ ih => exact .bare (ih htrail)
  | keyword hl ht hu hg _ ih =>
      have htrail := not_trails_of_cons (not_trails_of_cons htrail)
      exact .keyword hl ht hu hg (ih (not_trails_of_append htrail).2)
  | value _ ih => exact .value (ih htrail)
  | name hkind => exact .name hkind
  | fragment hopen _ hclose ih =>
      exact .fragment hopen (ih (not_trails_of_append (not_trails_of_cons htrail)).1) hclose
  | nothing => exact .nothing
  | blank hkind _ ih => exact .blank hkind (ih (not_trails_of_cons htrail))
  | lastField _ ih => exact .lastField (ih htrail)
  | field _ hkind _ ih₁ ih₂ =>
      obtain ⟨h₁, h₂⟩ := not_trails_of_append htrail
      exact .field (ih₁ h₁) hkind (ih₂ (not_trails_of_cons h₂))
  | option hname hkind _ haside ih =>
      have htrail := not_trails_of_cons (not_trails_of_cons htrail)
      exact .option hname hkind (ih (not_trails_of_append htrail).1) haside
  | object hname hlabel hopen _ hclose haside ih =>
      obtain ⟨-, htrail⟩ := not_trails_of_append (not_trails_of_cons htrail)
      have hxs := (not_trails_of_append (not_trails_of_cons htrail)).1
      exact .object hname hlabel hopen (ih hxs) hclose haside
  | directive hkind hname _ ih => exact .directive hkind hname (ih (not_trails_of_cons htrail))

end

/-! ## Whole texts -/

/-- What a text is read as. -/
inductive Whole where
  | expression
  | document

namespace Whole

variable {lax : Bool} {stop : Position} {tokens : List Token} {whole : Whole}

/-- The tokens of a text are accepted. -/
def Accepts (stop : Position) (tokens : List Token) : Whole → Prop
  | expression => ∃ e, wholeExpression stop tokens = .ok e
  | document => ∃ root, wholeDocument stop tokens = .ok root

instance (stop : Position) (tokens : List Token) : (whole : Whole) →
    Decidable (whole.Accepts stop tokens)
  | expression => decidable_of_iff ((wholeExpression stop tokens).toOption.isSome = true) (by
      rw [Accepts]
      cases wholeExpression stop tokens <;> simp [Except.toOption])
  | document => decidable_of_iff ((wholeDocument stop tokens).toOption.isSome = true) (by
      rw [Accepts]
      cases wholeDocument stop tokens <;> simp [Except.toOption])

/-- The tokens of a text follow the grammar. -/
def Written (lax : Bool) (tokens : List Token) : Whole → Prop
  | expression => ∃ g xs g', tokens = g ++ (xs ++ g') ∧ Gap g ∧ Phrase lax .expression xs ∧ Gap g'
  | document => Phrase lax .body tokens

theorem Accepts.written (h : whole.Accepts stop tokens) : whole.Written true tokens := by
  cases whole with
  | expression =>
      obtain ⟨e, h⟩ := h
      obtain ⟨-, _, _, in₁, mid, hlines, he, hlines'⟩ := wholeExpression_iff.mp h
      obtain ⟨g, rfl, hg, -⟩ := hlines.exists_gap
      obtain ⟨xs, rfl, hxs⟩ := he.exists_phrase
      obtain ⟨g', rfl, hg', -⟩ := hlines'.exists_gap
      exact ⟨g, xs, g', by simp, hg, hxs, hg'⟩
  | document =>
      obtain ⟨root, h⟩ := h
      obtain ⟨-, hbuilds⟩ := wholeDocument_iff.mp h
      obtain ⟨xs, rfl, hxs⟩ := hbuilds.exists_phrase
      rw [List.append_nil]
      exact hxs

theorem Written.accepts (h : whole.Written lax tokens) (stop : Position) :
    whole.Accepts stop tokens := by
  cases whole with
  | expression =>
      obtain ⟨g, xs, g', rfl, hg, hxs, hg'⟩ := h
      obtain ⟨e, he⟩ := hxs.readable
      have hafter : Closes (g' ++ []) := hg'.closes (closes_of_kind .eof rfl (by decide))
      have he := he (g' ++ []) hafter
      obtain ⟨saw, hlines⟩ := hg.exists_lines_of_reads he rfl
      have hnil : Legible [] := nofun
      obtain ⟨saw', hlines', -⟩ := hg'.exists_lines hnil nofun nofun
      rw [List.append_nil] at he hlines hlines'
      exact ⟨e, wholeExpression_iff.mpr ⟨hg.legible (he.front_ne rfl rfl), saw, saw', _, g', hlines,
        he, hlines'⟩⟩
  | document =>
      obtain ⟨root, hroot⟩ := h.readable false (Object.empty "" (place stop tokens)) []
      have hlegible := h.legible [] nofun
      have hbuilds := hroot [] rfl
      rw [List.append_nil] at hlegible hbuilds
      exact ⟨root, wholeDocument_iff.mpr ⟨hlegible, hbuilds⟩⟩

theorem Written.documented (h : whole.Written true tokens) (htrail : ¬ Trails tokens) :
    whole.Written false tokens := by
  cases whole with
  | expression =>
      obtain ⟨g, xs, g', rfl, hg, hxs, hg'⟩ := h
      obtain ⟨-, htrail⟩ := not_trails_of_append htrail
      exact ⟨g, xs, g', rfl, hg, hxs.documented (not_trails_of_append htrail).1, hg'⟩
  | document => exact Phrase.documented h htrail

theorem Written.not_trails (h : whole.Written false tokens) : ¬ Trails tokens := by
  rw [← findsTrailing_iff, Bool.not_eq_true]
  cases whole with
  | expression =>
      obtain ⟨g, xs, g', rfl, hg, hxs, hg'⟩ := h
      rw [findsTrailing_gap hg, hxs.clean.append, ← List.append_nil g', findsTrailing_gap hg']
      rfl
  | document =>
      rw [← List.append_nil tokens, (Phrase.clean h).append]
      rfl

/-- **Lists follow the grammar.** A text is accepted exactly if it is written with one comma between
two items of a list, and possibly one behind the last item of a call or a directive. It is written
as the manual has it exactly if, besides, no comma stands before a closing parenthesis. -/
theorem accepts_iff (whole : Whole) (stop : Position) (tokens : List Token) :
    (whole.Accepts stop tokens ↔ whole.Written true tokens) ∧
      (whole.Written false tokens ↔ whole.Accepts stop tokens ∧ ¬ Trails tokens) :=
  ⟨⟨Accepts.written, fun h => h.accepts stop⟩, fun h => ⟨h.accepts stop, h.not_trails⟩,
    fun ⟨haccepts, htrail⟩ => haccepts.written.documented htrail⟩

/-- A call and a directive are accepted with a comma behind the last item, which the grammar of the
manual does not have; an array is not, unless the line ends there. -/
theorem accepts_trailing :
    let call := TokenList.ofText "len(\"a\",)"
    let directive := TokenList.ofText ".define(a, \x7b k = 1 \x7d,)"
    let array := TokenList.ofText "[1,]"
    (expression.Accepts call.stop call.tokens ∧ Trails call.tokens ∧
        ¬ expression.Written false call.tokens) ∧
      (document.Accepts directive.stop directive.tokens ∧ Trails directive.tokens ∧
        ¬ document.Written false directive.tokens) ∧
      ¬ expression.Accepts array.stop array.tokens := by
  intro call directive array
  have hcall : Trails call.tokens := by decide +kernel
  have hdirective : Trails directive.tokens := by decide +kernel
  exact ⟨⟨by decide +kernel, hcall, fun h => h.not_trails hcall⟩,
    ⟨by decide +kernel, hdirective, fun h => h.not_trails hdirective⟩, by decide +kernel⟩

end Whole

end ConfigLang.Parse
