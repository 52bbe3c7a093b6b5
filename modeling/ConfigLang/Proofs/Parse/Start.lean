import Mathlib
import ConfigLang.Proofs.Token.Order
import ConfigLang.Proofs.Parse.Context
import ConfigLang.Proofs.Parse.Wording

/-!
# Where an expression starts

An expression does not keep its prefix operators, parentheses and opening brackets, so `position?`
gives the place of the first token behind all of these (`Wording.exists_lead`).  That is the first
token of the expression unless it starts with one of them, and a later one if it does
(`Wording.placed`).  What stands in an array without items is a closing bracket, whose place is not
known either.

`located_of_parseExpression` says this for a text that is read as an expression, and for every
expression inside.
-/

namespace ConfigLang

/-- The tokens of a text stand one behind the other. -/
theorem TokenList.pairwise_before (text : String) :
    (TokenList.ofText text).tokens.Pairwise fun t u => t.position.Before u.position :=
  (Lexer.pairwise_before _).sublist (List.dropLast_sublist _)

namespace Parse

/-! ## What is not kept in front of an expression -/

/-- Neither the end of a line nor a comment. -/
def significant (kind : Kind) : Bool :=
  kind != .eol && kind != .comment

/-- Prefix operators and what opens a group or an array, and the line ends and comments behind. -/
def opens (kind : Kind) : Bool :=
  !significant kind || kind == .mark .lparen || kind == .mark .lbracket ||
    (UnaryOp.ofKind? kind).isSome

/-- The first token that does not only open something. -/
def lead? (tokens : List Token) : Option Token :=
  tokens.find? fun t => !opens t.kind

/-- The place that an expression keeps of a token: any but that of the end of an array. -/
def kept? (t : Token) : Option Position :=
  if t.kind = .mark .rbracket then none else some t.position

section

variable {t : Token} {xs ys g : List Token}

theorem lead?_append (h : lead? xs = some t) (ys : List Token) : lead? (xs ++ ys) = some t := by
  rw [lead?, List.find?_append, ← lead?, h, Option.some_or]

theorem lead?_cons_of_opens (h : opens t.kind = true) (xs : List Token) :
    lead? (t :: xs) = lead? xs := by
  rw [lead?, List.find?_cons_of_neg (by simp [h]), lead?]

theorem lead?_cons_of_not_opens (h : opens t.kind = false) (xs : List Token) :
    lead? (t :: xs) = some t :=
  List.find?_cons_of_pos (by simp [h])

/-- What is looked for behind line ends and comments. -/
theorem find?_gap {p : Token → Bool} (hp : ∀ t, significant t.kind = false → p t = false)
    (hg : Gap g) (xs : List Token) : (g ++ xs).find? p = xs.find? p := by
  have hnone : g.find? p = none := by
    refine List.find?_eq_none.mpr fun t ht => ?_
    have hinsignificant : significant t.kind = false := by
      obtain h | h := hg t ht <;> rw [h] <;> rfl
    rw [hp t hinsignificant]
    exact Bool.false_ne_true
  rw [List.find?_append, hnone, Option.none_or]

theorem lead?_gap (hg : Gap g) (xs : List Token) : lead? (g ++ xs) = lead? xs :=
  find?_gap (fun t ht => by simp [opens, ht]) hg xs

theorem opens_of_isLiteral {kind : Kind} (h : isLiteral kind = true) : opens kind = false := by
  cases kind with
  | mark => cases h
  | eol | comment => cases h
  | _ => rfl

theorem opens_of_ofKind? {kind : Kind} {op : UnaryOp} (h : UnaryOp.ofKind? kind = some op) :
    opens kind = true := by
  simp [opens, h]

theorem kept?_of_kind {kind : Kind} (h : t.kind = kind) (hkind : kind ≠ .mark .rbracket) :
    kept? t = some t.position :=
  if_neg (h.symm ▸ hkind)

theorem ne_rbracket_of_startsOperand {kind : Kind} (h : startsOperand kind = true) :
    kind ≠ .mark .rbracket := by
  rintro rfl
  cases h

theorem significant_of_startsOperand {kind : Kind} (h : startsOperand kind = true) :
    significant kind = true := by
  cases kind with
  | eol | comment => cases h
  | _ => rfl

end

/-! ## The place of an expression -/

namespace Wording

variable {e : Expr} {xs : List Token} {inner : List Span}

/-- **The place of an expression** is that of its first token that does not only open something. -/
theorem exists_lead (h : Wording e xs inner) :
    ∃ t, lead? xs = some t ∧ e.position? = kept? t := by
  -- an expression that begins with another one has its place
  have onward {c e : Expr} {xs : List Token} (he : e.position? = c.position?) (ys : List Token)
      (ih : ∃ t, lead? xs = some t ∧ c.position? = kept? t) :
      ∃ t, lead? (xs ++ ys) = some t ∧ e.position? = kept? t := by
    obtain ⟨t, ht, hposition⟩ := ih
    exact ⟨t, lead?_append ht ys, he.trans hposition⟩
  induction h with
  | @literal t _ _ hkind =>
      refine ⟨t, lead?_cons_of_not_opens (opens_of_isLiteral hkind) _, ?_⟩
      exact (kept?_of_kind rfl fun h => by rw [h] at hkind; cases hkind).symm
  | @localVar t hkind | @baseVar t hkind =>
      exact ⟨t, lead?_cons_of_not_opens (by rw [hkind]; rfl) _, (kept?_of_kind hkind (by decide)).symm⟩
  | group hopen hg₁ _ _ _ ih =>
      rw [lead?_cons_of_opens (by rw [hopen]; rfl), lead?_gap hg₁]
      exact onward rfl _ ih
  | unary hop _ ih =>
      rw [lead?_cons_of_opens (opens_of_ofKind? hop)]
      exact ih
  | binary _ _ _ _ ih | ternary _ _ _ _ _ _ _ _ ih | index _ _ _ _ _ _ ih =>
      exact onward rfl _ ih
  | @array _ u g items hopen hg hbefore _ _ hclose ih =>
      rw [lead?_cons_of_opens (by rw [hopen]; rfl), lead?_gap hg]
      cases items with
      | nil =>
          exact ⟨u, lead?_cons_of_not_opens (by rw [hclose]; rfl) _, (if_pos hclose).symm⟩
      | cons m items =>
          rw [List.flatMap_cons, Member.tokens, hbefore m List.mem_cons_self, List.nil_append]
          simp only [List.append_assoc]
          exact onward rfl _ (ih m List.mem_cons_self)
  | @call name _ _ _ _ hname =>
      exact ⟨name, lead?_cons_of_not_opens (by rw [hname]; rfl) _, (kept?_of_kind hname (by decide)).symm⟩

end Wording

/-- Which of its tokens the place of an expression is that of. -/
structure Span.Placed (s : Span) : Prop where
  /-- The place is that of the first token that does not only open something. -/
  lead : ∃ t, lead? s.tokens = some t ∧ s.expr.position? = kept? t
  /-- An expression starts with something to read. -/
  first : ∃ t ∈ s.tokens.head?, significant t.kind = true
  /-- It has the place of its first token if this opens nothing. -/
  here : ∀ t ∈ s.tokens.head?, opens t.kind = false → s.expr.position? = some t.position
  /-- Otherwise its place is not known, or that of a later token. -/
  later : ∀ t ∈ s.tokens.head?, opens t.kind = true →
    ∀ p, s.expr.position? = some p → t.position.Before p
  /-- So a place that is known is that of the first token exactly if this opens nothing. -/
  first_iff : ∀ t ∈ s.tokens.head?, ∀ p, s.expr.position? = some p →
    (p = t.position ↔ opens t.kind = false)

theorem Wording.placed {e : Expr} {xs : List Token} {inner : List Span} (h : Wording e xs inner)
    (hordered : xs.Pairwise fun t u => t.position.Before u.position) :
    (⟨e, xs⟩ : Span).Placed := by
  obtain ⟨lead, hlead, hposition⟩ := h.exists_lead
  have hstart := h.startsOperand
  cases xs with
  | nil => cases hlead
  | cons t ts =>
      have hhere (hopens : opens t.kind = false) : e.position? = some t.position := by
        rw [lead?_cons_of_not_opens hopens] at hlead
        cases hlead
        exact hposition.trans (kept?_of_kind rfl (ne_rbracket_of_startsOperand hstart))
      have hlater (hopens : opens t.kind = true) (p : Position) (hp : e.position? = some p) :
          t.position.Before p := by
        rw [lead?_cons_of_opens hopens] at hlead
        have hmem : lead ∈ ts := List.mem_of_find?_eq_some hlead
        have hkept : p = lead.position := by
          rw [hposition, kept?] at hp
          split at hp
          · cases hp
          · exact (Option.some.inj hp).symm
        rw [hkept]
        exact (List.pairwise_cons.mp hordered).1 lead hmem
      refine ⟨⟨lead, hlead, hposition⟩, ⟨t, rfl, significant_of_startsOperand hstart⟩, ?_, ?_, ?_⟩
      · rintro _ ⟨⟩
        exact hhere
      · rintro _ ⟨⟩
        exact hlater
      · rintro _ ⟨⟩ p hp
        cases hopens : opens t.kind with
        | true => exact iff_of_false (hlater hopens p hp).ne.symm Bool.false_ne_true.symm
        | false => exact iff_of_true (Option.some.inj (hp.symm.trans (hhere hopens))) rfl

/-! ## The expression of a text -/

/-- The tokens of a text are those of an expression, with line ends and comments around, and all
expressions in it are placed. -/
structure Located (text : String) (e : Expr) (xs : List Token) (inner : List Span) : Prop where
  around : ∃ g g', (TokenList.ofText text).tokens = g ++ (xs ++ g') ∧ Gap g ∧ Gap g'
  first : ((TokenList.ofText text).tokens.find? fun t => significant t.kind) = xs.head?
  wording : Wording e xs inner
  /-- Every expression inside is among those that tokens are said of, and these are written with
  pieces of the tokens. -/
  parts : ∀ part, part ∈ e.parts ↔ part ∈ e :: inner.map Span.expr
  own : ∀ s ∈ inner, s.tokens <:+: xs ∧ ∃ ps, Wording s.expr s.tokens ps
  placed : ∀ s ∈ (⟨e, xs⟩ : Span) :: inner, s.Placed

/-- **Where an expression starts.** The place of the expression that a text is read as, and that of
every expression inside it, is the place of its first token exactly if this is no prefix operator,
no parenthesis and no bracket. -/
theorem located_of_parseExpression {text : String} {e : Expr} (h : parseExpression text = .ok e) :
    ∃ xs inner, Located text e xs inner := by
  rw [parseExpression_eq] at h
  obtain ⟨-, _, _, in₁, mid, hlines, hreads, hlines'⟩ := wholeExpression_iff.mp h
  obtain ⟨g, htokens, hg, -⟩ := hlines.exists_gap
  obtain ⟨xs, rfl, inner, hword⟩ := hreads.exists_wording
  obtain ⟨g', rfl, hg', -⟩ := hlines'.exists_gap
  rw [List.append_nil] at htokens
  have hordered : xs.Pairwise fun t u => t.position.Before u.position := by
    have hpiece : xs <:+: (TokenList.ofText text).tokens := ⟨g, g', by rw [htokens]; simp⟩
    exact (TokenList.pairwise_before text).sublist hpiece.sublist
  have hplaced : (⟨e, xs⟩ : Span).Placed := hword.placed hordered
  refine ⟨xs, inner, ⟨g, g', htokens, hg, hg'⟩, ?_, hword, fun _ => hword.mem_parts_iff,
    fun s hs => ⟨hword.isInfix s hs, hword.exists_inner s hs⟩,
    List.forall_mem_cons.mpr ⟨hplaced, ?_⟩⟩
  · obtain ⟨t, ht, hsignificant⟩ := hplaced.first
    rw [htokens, find?_gap (fun _ h => h) hg]
    cases xs with
    | nil => cases ht
    | cons t xs =>
        cases ht
        exact List.find?_cons_of_pos hsignificant
  · intro s hs
    obtain ⟨ps, hs'⟩ := hword.exists_inner s hs
    exact hs'.placed (hordered.sublist (hword.isInfix s hs).sublist)

/-- An index into a call has the place of its first token, the name of the call. -/
theorem located_of_parseExpression_call : ∃ e xs inner, parseExpression "f(-$x)[0]" = .ok e ∧
    Located "f(-$x)[0]" e xs inner ∧ e.position? = some ⟨1, 1⟩ := by
  have hread : (parseExpression "f(-$x)[0]").toOption.any
      (fun e => e.position? = some ⟨1, 1⟩) = true := by
    decide +kernel
  obtain ⟨e, he, hposition⟩ := Running.exists_of_any hread
  obtain ⟨xs, inner, hlocated⟩ := located_of_parseExpression he
  exact ⟨e, xs, inner, he, hlocated, of_decide_eq_true hposition⟩

/-- The place of an expression need not be that of the first token of its text: these have the place
of the variable, and start one column before it. -/
theorem position_ne_first :
    ["-$x", "($x)", "[$x]"].map (fun text => (parseExpression text).toOption.bind Expr.position?) =
        List.replicate 3 (some ⟨1, 2⟩) ∧
      ["-$x", "($x)", "[$x]"].map (fun text =>
        ((TokenList.ofText text).tokens.find? fun t => significant t.kind).map Token.position) =
          List.replicate 3 (some ⟨1, 1⟩) := by
  decide +kernel

end Parse

end ConfigLang
