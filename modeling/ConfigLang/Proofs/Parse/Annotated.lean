import Mathlib
import ConfigLang.Proofs.Parse.Layout
import ConfigLang.Proofs.Tree.Bare

/-!
# A comment at the end of a line

A remark is a comment that is put in front of the end of a line.  What is read off some
tokens is read off them with the remark too: an expression stays as it is
(`Reads.annotated`), and a document does but for its comments (`Builds.annotated`).

There is no room for the remark behind another comment, and none behind a directive,
where the rules have no place for a comment (`Remark.Fits`).

## Strategy

The induction is on the rules.  With each step the remark is still ahead, or it has been
read and the tokens are the same again (`Remark.Annotated`).  It is read wherever the
end of the line is.

* **Steps.**  A token that is no line end is the same with the remark
  (`Annotated.of_ne_eol`, `Annotated.of_kind`), and so is the front of what is left but
  where the remark comes next (`Annotated.front_eq_or`).
* **Lines.**  Among the lines that an expression may be spread over the remark is one more
  comment (`Lines.annotated`).
* **Fields.**  Behind a field the remark is the comment that belongs to it
  (`Trailing.annotated`), and between the items of a body it is an item that says nothing.
* **Bodies.**  A body is read into an object that has other comments now than it had
  without the remark.  `Part.Again` says what is read for every such object, so that the
  induction can hand it on from item to item.
-/

namespace ConfigLang.Parse

/-- A comment that is put in front of the end of a line, and what is behind that. -/
structure Remark where
  /-- The end of the line without the comment. -/
  eol : Token
  comment : Token
  /-- The end of the line with the comment in front of it. -/
  eol' : Token
  behind : List Token
  kind_eol : eol.kind = .eol
  kind_comment : comment.kind = .comment
  kind_eol' : eol'.kind = .eol

/-- Some tokens, and the same with the remark at its place, or without it if that place is not
among them. -/
inductive Remark.Annotated (r : Remark) : List Token → List Token → Prop
  | refl (input : List Token) : Annotated r input input
  | here : Annotated r (r.eol :: r.behind) (r.comment :: r.eol' :: r.behind)
  | cons (t : Token) {us us' : List Token} (h : Annotated r us us') :
      Annotated r (t :: us) (t :: us')

variable {r : Remark} {t : Token} {input input' us us' rest tokens : List Token}

namespace Remark

theorem legible_eol' (r : Remark) : Legible (r.eol' :: r.behind) :=
  legible_of_kind r.kind_eol' (by decide)

namespace Annotated

/-- A remark stands in front of the end of a line only. -/
theorem of_ne_eol (h : r.Annotated (t :: us) input') (ht : t.kind ≠ .eol) :
    ∃ us', input' = t :: us' ∧ r.Annotated us us' := by
  cases h with
  | refl => exact ⟨us, rfl, .refl us⟩
  | here => exact absurd r.kind_eol ht
  | cons _ h => exact ⟨_, rfl, h⟩

theorem of_kind {kind : Kind} (h : r.Annotated (t :: us) input') (hkind : t.kind = kind)
    (hne : kind ≠ .eol) : ∃ us', input' = t :: us' ∧ r.Annotated us us' :=
  h.of_ne_eol (hkind ▸ hne)

theorem front_eq_or (h : r.Annotated input input') :
    front input' = front input ∨ front input = .eol ∧ front input' = .comment := by
  cases h with
  | refl => exact .inl rfl
  | here => exact .inr ⟨r.kind_eol, r.kind_comment⟩
  | cons => exact .inl rfl

theorem front_ne {kind : Kind} (h : r.Annotated input input') (hkind : kind ≠ .comment)
    (hfront : front input ≠ kind) : front input' ≠ kind := by
  rcases h.front_eq_or with heq | ⟨-, hcomment⟩
  · rwa [heq]
  · rw [hcomment]
    exact hkind.symm

theorem legible (h : r.Annotated us us') (hus : Legible us) : Legible us' :=
  h.front_ne (by decide) hus

/-- The remark at its place behind some tokens. -/
theorem behind (r : Remark) (ts : List Token) :
    r.Annotated (ts ++ r.eol :: r.behind) (ts ++ r.comment :: r.eol' :: r.behind) := by
  induction ts with
  | nil => exact .here
  | cons t ts ih => exact .cons t ih

end Annotated

end Remark

/-! ## Lines -/

theorem Lines.annotated {saw : Bool} (h : Lines input saw rest) :
    ∀ {input'}, r.Annotated input input' →
      ∃ rest', Lines input' saw rest' ∧ r.Annotated rest rest' := by
  induction h with
  | none heol hcomment =>
      intro input' hin
      have hfront : front input' ≠ .comment := by
        rcases hin.front_eq_or with heq | ⟨hend, -⟩
        · rwa [heq]
        · exact absurd hend heol
      exact ⟨input', .none (hin.front_ne (by decide) heol) hfront, hin⟩
  | line hkind hus hlines ih =>
      intro input' hin
      cases hin with
      | refl => exact ⟨_, .line hkind hus hlines, .refl _⟩
      | here =>
          exact ⟨_, .comment r.kind_comment r.legible_eol' (.line r.kind_eol' hus hlines), .refl _⟩
      | cons _ hin =>
          obtain ⟨rest', hlines', hrest⟩ := ih hin
          exact ⟨rest', .line hkind (hin.legible hus) hlines', hrest⟩
  | comment hkind hus _ ih =>
      intro input' hin
      obtain ⟨us', rfl, hus'⟩ := hin.of_kind hkind (by decide)
      obtain ⟨rest', hlines', hrest⟩ := ih hus'
      exact ⟨rest', .comment hkind (hus'.legible hus) hlines', hrest⟩

/-- Line ends and comments in front of a token of a kind. -/
theorem Lines.annotated_of_kind {saw : Bool} {kind : Kind} (h : Lines input saw (t :: us))
    (hin : r.Annotated input input') (hkind : t.kind = kind) (hne : kind ≠ .eol) :
    ∃ us', Lines input' saw (t :: us') ∧ r.Annotated us us' := by
  obtain ⟨rest', hlines, hrest⟩ := h.annotated hin
  obtain ⟨us', rfl, hus'⟩ := hrest.of_kind hkind hne
  exact ⟨us', hlines, hus'⟩

/-! ## Expressions -/

/-- **A comment at the end of a line** is skipped wherever an expression goes on behind it. -/
theorem Reads.annotated {f : Form} {v : f.Result} (h : Reads f input v rest) :
    ∀ {input'}, r.Annotated input input' →
      ∃ rest', Reads f input' v rest' ∧ r.Annotated rest rest' := by
  induction h with
  | expression _ _ ih₁ ih₂ =>
      intro input' hin
      obtain ⟨mid', hcondition, hmid⟩ := ih₁ hin
      obtain ⟨rest', hchoice, hrest⟩ := ih₂ hmid
      exact ⟨rest', .expression hcondition hchoice, hrest⟩
  | noChoice hquestion =>
      intro input' hin
      exact ⟨input', .noChoice (hin.front_ne (by decide) hquestion), hin⟩
  | choice hkind hus hlines₁ _ hlines₂ hcolon hvs hlines₃ _ ih₁ ih₂ =>
      intro input' hin
      obtain ⟨us', rfl, hus'⟩ := hin.of_kind hkind (by decide)
      obtain ⟨in₁', hlines₁', hin₁⟩ := hlines₁.annotated hus'
      obtain ⟨mid', hyes, hmid⟩ := ih₁ hin₁
      obtain ⟨vs', hlines₂', hvs'⟩ := hlines₂.annotated_of_kind hmid hcolon (by decide)
      obtain ⟨in₂', hlines₃', hin₂⟩ := hlines₃.annotated hvs'
      obtain ⟨rest', hno, hrest⟩ := ih₂ hin₂
      exact ⟨rest', .choice hkind (hus'.legible hus) hlines₁' hyes hlines₂' hcolon
        (hvs'.legible hvs) hlines₃' hno, hrest⟩
  | operation _ _ ih₁ ih₂ =>
      intro input' hin
      obtain ⟨mid', hleft, hmid⟩ := ih₁ hin
      obtain ⟨rest', hoperations, hrest⟩ := ih₂ hmid
      exact ⟨rest', .operation hleft hoperations, hrest⟩
  | @noOperation least _ _ hpower =>
      intro input' hin
      have hpower' : ∀ op, BinaryOp.ofKind? (front input') = some op → op.power < least := by
        rcases hin.front_eq_or with heq | ⟨-, hcomment⟩
        · rwa [heq]
        · rw [hcomment]
          intro op hop
          cases hop
      exact ⟨input', .noOperation hpower', hin⟩
  | operations hop hpower hus hlines _ _ ih₁ ih₂ =>
      intro input' hin
      obtain ⟨us', rfl, hus'⟩ := hin.of_ne_eol fun hkind => by rw [hkind] at hop; cases hop
      obtain ⟨in₁', hlines', hin₁⟩ := hlines.annotated hus'
      obtain ⟨mid', hright, hmid⟩ := ih₁ hin₁
      obtain ⟨rest', hoperations, hrest⟩ := ih₂ hmid
      exact ⟨rest', .operations hop hpower (hus'.legible hus) hlines' hright hoperations, hrest⟩
  | prefixed hop hus _ ih =>
      intro input' hin
      obtain ⟨us', rfl, hus'⟩ := hin.of_ne_eol fun hkind => by rw [hkind] at hop; cases hop
      obtain ⟨rest', hoperand, hrest⟩ := ih hus'
      exact ⟨rest', .prefixed hop (hus'.legible hus) hoperand, hrest⟩
  | operand _ _ ih₁ ih₂ =>
      intro input' hin
      obtain ⟨mid', hprimary, hmid⟩ := ih₁ hin
      obtain ⟨rest', hindexes, hrest⟩ := ih₂ hmid
      exact ⟨rest', .operand hprimary hindexes, hrest⟩
  | noIndex hbracket =>
      intro input' hin
      exact ⟨input', .noIndex (hin.front_ne (by decide) hbracket), hin⟩
  | index hkind hus hlines₁ _ hlines₂ hbracket hvs _ ih₁ ih₂ =>
      intro input' hin
      obtain ⟨us', rfl, hus'⟩ := hin.of_kind hkind (by decide)
      obtain ⟨in₁', hlines₁', hin₁⟩ := hlines₁.annotated hus'
      obtain ⟨mid', hindex, hmid⟩ := ih₁ hin₁
      obtain ⟨vs', hlines₂', hvs'⟩ := hlines₂.annotated_of_kind hmid hbracket (by decide)
      obtain ⟨rest', hindexes, hrest⟩ := ih₂ hvs'
      exact ⟨rest', .index hkind (hus'.legible hus) hlines₁' hindex hlines₂' hbracket
        (hvs'.legible hvs) hindexes, hrest⟩
  | literal hkind hus hvalue =>
      intro input' hin
      obtain ⟨us', rfl, hus'⟩ := hin.of_ne_eol fun heol => by rw [heol] at hkind; cases hkind
      exact ⟨us', .literal hkind (hus'.legible hus) hvalue, hus'⟩
  | localVar hkind hus =>
      intro input' hin
      obtain ⟨us', rfl, hus'⟩ := hin.of_kind hkind (by decide)
      exact ⟨us', .localVar hkind (hus'.legible hus), hus'⟩
  | baseVar hkind hus =>
      intro input' hin
      obtain ⟨us', rfl, hus'⟩ := hin.of_kind hkind (by decide)
      exact ⟨us', .baseVar hkind (hus'.legible hus), hus'⟩
  | group hkind hus hlines₁ _ hlines₂ hparen hrest ih =>
      intro input' hin
      obtain ⟨us', rfl, hus'⟩ := hin.of_kind hkind (by decide)
      obtain ⟨in₁', hlines₁', hin₁⟩ := hlines₁.annotated hus'
      obtain ⟨mid', he, hmid⟩ := ih hin₁
      obtain ⟨rest', hlines₂', hrest'⟩ := hlines₂.annotated_of_kind hmid hparen (by decide)
      exact ⟨rest', .group hkind (hus'.legible hus) hlines₁' he hlines₂' hparen
        (hrest'.legible hrest), hrest'⟩
  | array hkind hus hlines _ ih =>
      intro input' hin
      obtain ⟨us', rfl, hus'⟩ := hin.of_kind hkind (by decide)
      obtain ⟨in₁', hlines', hin₁⟩ := hlines.annotated hus'
      obtain ⟨rest', hitems, hrest⟩ := ih hin₁
      exact ⟨rest', .array hkind (hus'.legible hus) hlines' hitems, hrest⟩
  | called hkind _ ih =>
      intro input' hin
      obtain ⟨us', rfl, hus'⟩ := hin.of_kind hkind (by decide)
      obtain ⟨rest', hcall, hrest⟩ := ih hus'
      exact ⟨rest', .called hkind hcall, hrest⟩
  | noElement hkind hus =>
      intro input' hin
      obtain ⟨us', rfl, hus'⟩ := hin.of_kind hkind (by decide)
      exact ⟨us', .noElement hkind (hus'.legible hus), hus'⟩
  | lastElement _ hlines hbracket hrest ih =>
      intro input' hin
      obtain ⟨mid', he, hmid⟩ := ih hin
      obtain ⟨rest', hlines', hrest'⟩ := hlines.annotated_of_kind hmid hbracket (by decide)
      exact ⟨rest', .lastElement he hlines' hbracket (hrest'.legible hrest), hrest'⟩
  | element _ hlines₁ hcomma hus hlines₂ hlast _ ih₁ ih₂ =>
      intro input' hin
      obtain ⟨mid', he, hmid⟩ := ih₁ hin
      obtain ⟨us', hlines₁', hus'⟩ := hlines₁.annotated_of_kind hmid hcomma (by decide)
      obtain ⟨in₁', hlines₂', hin₁⟩ := hlines₂.annotated hus'
      obtain ⟨rest', hitems, hrest⟩ := ih₂ hin₁
      refine ⟨rest', .element he hlines₁' hcomma (hus'.legible hus) hlines₂' ?_ hitems, hrest⟩
      intro hfront
      -- a comma behind the last element needs the end of a line, which is still there
      by_contra hsaw
      exact hin₁.front_ne (by decide) (fun hfront => hsaw (hlast hfront)) hfront
  | call hkind hus hlines _ ih =>
      intro input' hin
      obtain ⟨us', rfl, hus'⟩ := hin.of_kind hkind (by decide)
      obtain ⟨in₁', hlines', hin₁⟩ := hlines.annotated hus'
      obtain ⟨rest', hargs, hrest⟩ := ih hin₁
      exact ⟨rest', .call hkind (hus'.legible hus) hlines' hargs, hrest⟩
  | noArgument hkind hus =>
      intro input' hin
      obtain ⟨us', rfl, hus'⟩ := hin.of_kind hkind (by decide)
      exact ⟨us', .noArgument hkind (hus'.legible hus), hus'⟩
  | lastArgument _ hnamed hlines hparen hrest ih =>
      intro input' hin
      obtain ⟨mid', harg, hmid⟩ := ih hin
      obtain ⟨rest', hlines', hrest'⟩ := hlines.annotated_of_kind hmid hparen (by decide)
      exact ⟨rest', .lastArgument harg hnamed hlines' hparen (hrest'.legible hrest), hrest'⟩
  | arguments _ hnamed hlines₁ hcomma hus hlines₂ _ ih₁ ih₂ =>
      intro input' hin
      obtain ⟨mid', harg, hmid⟩ := ih₁ hin
      obtain ⟨us', hlines₁', hus'⟩ := hlines₁.annotated_of_kind hmid hcomma (by decide)
      obtain ⟨in₁', hlines₂', hin₁⟩ := hlines₂.annotated hus'
      obtain ⟨rest', hargs, hrest⟩ := ih₂ hin₁
      exact ⟨rest', .arguments harg hnamed hlines₁' hcomma (hus'.legible hus) hlines₂' hargs, hrest⟩
  | argument hkind _ ih =>
      intro input' hin
      obtain ⟨rest', he, hrest⟩ := ih hin
      exact ⟨rest', .argument (hin.front_ne (by decide) hkind) he, hrest⟩
  | keyword ht hu hvs hlines _ ih =>
      intro input' hin
      obtain ⟨us', rfl, hus'⟩ := hin.of_kind ht (by decide)
      obtain ⟨vs', rfl, hvs'⟩ := hus'.of_kind hu (by decide)
      obtain ⟨in₁', hlines', hin₁⟩ := hlines.annotated hvs'
      obtain ⟨rest', he, hrest⟩ := ih hin₁
      exact ⟨rest', .keyword ht hu (hvs'.legible hvs) hlines' he, hrest⟩
  | calledArgument ht _ _ ih₁ ih₂ =>
      intro input' hin
      obtain ⟨us', rfl, hus'⟩ := hin.of_kind ht (by decide)
      obtain ⟨mid', hcall, hmid⟩ := ih₁ hus'
      obtain ⟨rest', he, hrest⟩ := ih₂ hmid
      exact ⟨rest', .calledArgument ht hcall he, hrest⟩
  | continued _ _ _ ih₁ ih₂ ih₃ =>
      intro input' hin
      obtain ⟨mid₁', hindexes, hmid₁⟩ := ih₁ hin
      obtain ⟨mid₂', hoperations, hmid₂⟩ := ih₂ hmid₁
      obtain ⟨rest', hchoice, hrest⟩ := ih₃ hmid₂
      exact ⟨rest', .continued hindexes hoperations hchoice, hrest⟩

/-! ## The ends of items -/

/-- There is room for the remark in a document: its line ends neither behind a comment nor behind a
directive. -/
structure Remark.Fits (r : Remark) (tokens : List Token) : Prop where
  comment : ∀ t, t :: r.eol :: r.behind <:+ tokens → t.kind ≠ .comment
  directive : ∀ t us offset d, t :: us <:+ tokens → t.kind = .directive →
    ¬Builds (.directive t offset) us d (r.eol :: r.behind)

theorem EndsItem.front_ne (h : EndsItem input rest) : front input ≠ .comment := by
  cases h with
  | line hkind | brace hkind => exact fun hcomment => by cases hkind.symm.trans hcomment
  | finish => decide

theorem EndsItem.annotated (h : EndsItem input rest) (hin : r.Annotated input input')
    (hfront : front input' ≠ .comment) :
    ∃ rest', EndsItem input' rest' ∧ r.Annotated rest rest' := by
  cases h with
  | line hkind hus =>
      cases hin with
      | refl => exact ⟨_, .line hkind hus, .refl _⟩
      | here => exact absurd r.kind_comment hfront
      | cons _ hus' => exact ⟨_, .line hkind (hus'.legible hus), hus'⟩
  | brace hkind =>
      obtain ⟨us', rfl, hus'⟩ := hin.of_kind hkind (by decide)
      exact ⟨_, .brace hkind, .cons _ hus'⟩
  | finish =>
      cases hin
      exact ⟨[], .finish, .refl []⟩

/-- Behind a field the remark is the comment that belongs to it. -/
theorem Trailing.annotated {trailing : Option String} {next : List Token}
    (h : Trailing input trailing next) (hend : EndsItem next rest) (hfits : r.Fits tokens)
    (hinput : input <:+ tokens) (hin : r.Annotated input input') :
    ∃ trailing' next' rest', Trailing input' trailing' next' ∧ EndsItem next' rest' ∧
      r.Annotated rest rest' := by
  cases hin with
  | refl => exact ⟨trailing, next, rest, h, hend, .refl rest⟩
  | here =>
      cases h with
      | some hkind => cases hkind.symm.trans r.kind_eol
      | none =>
          cases hend with
          | brace hkind => cases hkind.symm.trans r.kind_eol
          | line _ hus =>
              exact ⟨_, _, _, .some r.kind_comment r.legible_eol', .line r.kind_eol' hus, .refl _⟩
  | @cons t us us' hus =>
      cases h with
      | none hfront =>
          obtain ⟨rest', hend', hrest⟩ := hend.annotated (.cons t hus) hfront
          exact ⟨.none, _, rest', .none hfront, hend', hrest⟩
      | some hkind hlegible =>
          have hfront : front us' ≠ .comment := by
            cases hus with
            | refl => exact hend.front_ne
            -- the field has its comment already
            | here => exact absurd hkind (hfits.comment t hinput)
            | cons => exact hend.front_ne
          obtain ⟨rest', hend', hrest⟩ := hend.annotated hus hfront
          exact ⟨_, us', rest', .some hkind (hus.legible hlegible), hend', hrest⟩

/-! ## Documents -/

/-- A part for which `P` holds is read off some tokens, and what is left is the same but for the
remark. -/
def Remark.Rebuilds (r : Remark) (p : Part) (input' : List Token) (P : p.Result → Prop)
    (rest : List Token) : Prop :=
  ∃ v' rest', Builds p input' v' rest' ∧ P v' ∧ r.Annotated rest rest'

/-- What is read off `input'`, if `v` is read off the front of the tokens without the remark. Other
comments may have been read before. -/
def Part.Again (r : Remark) (input' : List Token) :
    (p : Part) → p.Result → (rest : List Token) → Prop
  | body inBraces o _, v, rest => ∀ o' pending', o'.bare = o.bare →
    r.Rebuilds (.body inBraces o' pending') input' (·.bare = v.bare) rest
  | field name _, node, rest =>
    ∀ leading', r.Rebuilds (.field name leading') input' (·.bare = node.bare) rest
  | block name label position _, node, rest =>
    ∀ leading', r.Rebuilds (.block name label position leading') input' (·.bare = node.bare) rest
  | directive name offset, d, rest =>
    r.Rebuilds (.directive name offset) input' (·.bare = d.bare) rest
  | directiveArgs done, args, rest => ∀ done', bareArgs done' = bareArgs done →
    r.Rebuilds (.directiveArgs done') input' (bareArgs · = bareArgs args) rest
  | directiveArg, arg, rest => r.Rebuilds .directiveArg input' (bareArg · = bareArg arg) rest
  | payload, value, rest => r.Rebuilds .payload input' (·.bare = value.bare) rest

theorem bareArgs_reverse {args args' : List (Argument Payload)}
    (h : bareArgs args' = bareArgs args) : bareArgs args'.reverse = bareArgs args.reverse := by
  rw [bareArgs_eq_map, bareArgs_eq_map] at h ⊢
  rw [List.map_reverse, List.map_reverse, h]

theorem bareArgs_cons {arg arg' : Argument Payload} {args args' : List (Argument Payload)}
    (harg : bareArg arg' = bareArg arg) (h : bareArgs args' = bareArgs args) :
    bareArgs (arg' :: args') = bareArgs (arg :: args) := by
  rw [bareArgs, bareArgs, harg, h]

/-- Where no keyword stood there is none with the remark. -/
theorem not_keyword_annotated
    (h : ∀ t u vs, input = t :: u :: vs → t.kind = .identifier → u.kind ≠ .mark .assign)
    (hin : r.Annotated input input') :
    ∀ t u vs, input' = t :: u :: vs → t.kind = .identifier → u.kind ≠ .mark .assign := by
  rintro t u vs rfl ht
  obtain ⟨us, rfl, hus⟩ : ∃ us, input = t :: us ∧ r.Annotated us (u :: vs) := by
    cases hin with
    | refl => exact ⟨_, rfl, .refl _⟩
    | here => cases ht.symm.trans r.kind_comment
    | cons _ hus => exact ⟨_, rfl, hus⟩
  cases hus with
  | refl => exact h t u vs rfl ht
  | here => exact fun hu => by cases hu.symm.trans r.kind_comment
  | cons => exact h t u _ rfl ht

/-- **A comment at the end of a line** changes a document in its comments only. -/
theorem Builds.annotated {p : Part} {v : p.Result} (h : Builds p input v rest)
    (hfits : r.Fits tokens) : input <:+ tokens → ∀ {input'}, r.Annotated input input' →
      p.Again r input' v rest := by
  induction h with
  | finish =>
      intro _ input' hin o' pending' ho
      cases hin
      exact ⟨_, [], .finish, by simp only [Object.bare_footer, ho], .refl []⟩
  | close hkind =>
      intro _ input' hin o' pending' ho
      obtain ⟨us', rfl, hus'⟩ := hin.of_kind hkind (by decide)
      exact ⟨_, _, .close hkind, by simp only [Object.bare_footer, ho], .cons _ hus'⟩
  | line hkind hus _ ih =>
      intro hinput input' hin o' pending' ho
      have hus' := suffix_behind hinput
      cases hin with
      | refl =>
          obtain ⟨v', rest', hbody, hv, hrest⟩ := ih hus' (.refl _) o' pending' ho
          exact ⟨v', rest', .line hkind hus hbody, hv, hrest⟩
      | here =>
          -- the remark waits for the next field, or goes to the footer
          obtain ⟨v', rest', hbody, hv, hrest⟩ :=
            ih hus' (.refl _) o' (pending' ++ [r.comment.text]) ho
          exact ⟨v', rest', .comment r.kind_comment r.legible_eol' (.line r.kind_eol' hus hbody),
            hv, hrest⟩
      | cons _ hin =>
          obtain ⟨v', rest', hbody, hv, hrest⟩ := ih hus' hin o' pending' ho
          exact ⟨v', rest', .line hkind (hin.legible hus) hbody, hv, hrest⟩
  | @comment _ _ _ _ t _ _ hkind hus _ ih =>
      intro hinput input' hin o' pending' ho
      obtain ⟨us', rfl, hus'⟩ := hin.of_kind hkind (by decide)
      obtain ⟨v', rest', hbody, hv, hrest⟩ :=
        ih (suffix_behind hinput) hus' o' (pending' ++ [t.text]) ho
      exact ⟨v', rest', .comment hkind (hus'.legible hus) hbody, hv, hrest⟩
  | @directiveItem _ o _ pending t us mid _ _ d hkind hd hend _ ih₁ ih₂ =>
      intro hinput input' hin o' pending' ho
      obtain ⟨us', rfl, hus'⟩ := hin.of_kind hkind (by decide)
      obtain ⟨d', mid', hd', hdirective, hmid⟩ := ih₁ (suffix_behind hinput) hus'
      have hfront : front mid' ≠ .comment := by
        cases hmid with
        | refl => exact hend.front_ne
        -- no comment may stand right behind a directive
        | here => exact absurd hd (hfits.directive t us _ _ hinput hkind)
        | cons => exact hend.front_ne
      obtain ⟨next', hend', hnext⟩ := hend.annotated hmid hfront
      have hadded : (addDirective o' d' pending').bare = (addDirective o d pending).bare := by
        rw [bare_addDirective, bare_addDirective, ho, hdirective]
      have hmid : mid <:+ tokens := hd.isSuffix.trans (suffix_behind hinput)
      obtain ⟨v', rest', hbody, hv, hrest⟩ :=
        ih₂ (hend.isSuffix.trans hmid) hnext _ [] hadded
      rw [← Object.length_fields_of_bare ho] at hd'
      exact ⟨v', rest', .directiveItem hkind hd' hend' hbody, hv, hrest⟩
  | @fieldItem _ o _ _ _ _ _ _ node hkind hnode _ ih₁ ih₂ =>
      intro hinput input' hin o' pending' ho
      obtain ⟨us', rfl, hus'⟩ := hin.of_kind hkind (by decide)
      obtain ⟨node', mid', hnode', hsame, hmid⟩ := ih₁ (suffix_behind hinput) hus' pending'
      have hinserted : (o'.insert node').bare = (o.insert node).bare := by
        rw [Object.bare_insert, Object.bare_insert, ho, hsame]
      obtain ⟨v', rest', hbody, hv, hrest⟩ :=
        ih₂ (hnode.isSuffix.trans (suffix_behind hinput)) hmid _ [] hinserted
      exact ⟨v', rest', .fieldItem hkind hnode' hbody, hv, hrest⟩
  | option hkind hus he htrailing hend =>
      intro hinput input' hin leading'
      obtain ⟨us', rfl, hus'⟩ := hin.of_kind hkind (by decide)
      obtain ⟨mid', he', hmid⟩ := he.annotated hus'
      obtain ⟨trailing', next', rest', htrailing', hend', hrest⟩ :=
        htrailing.annotated hend hfits (he.isSuffix.trans (suffix_behind hinput)) hmid
      exact ⟨_, rest', .option hkind (hus'.legible hus) he' htrailing' hend',
        by simp only [Node.bare], hrest⟩
  | object _ ih =>
      intro hinput input' hin leading'
      obtain ⟨node', rest', hblock, hnode, hrest⟩ := ih hinput hin leading'
      exact ⟨node', rest', .object hblock, hnode, hrest⟩
  | labelled hkind hus _ ih =>
      intro hinput input' hin leading'
      obtain ⟨us', rfl, hus'⟩ := hin.of_kind hkind (by decide)
      obtain ⟨node', rest', hblock, hnode, hrest⟩ := ih (suffix_behind hinput) hus' leading'
      exact ⟨node', rest', .labelled hkind (hus'.legible hus) hblock, hnode, hrest⟩
  | block hkind hus hbody hbrace hvs htrailing hend ih =>
      intro hinput input' hin leading'
      have hus₀ := suffix_behind hinput
      obtain ⟨us', rfl, hus'⟩ := hin.of_kind hkind (by decide)
      obtain ⟨o', in₁', hbody', ho, hin₁⟩ := ih hus₀ hus' _ [] rfl
      obtain ⟨vs', rfl, hvs'⟩ := hin₁.of_kind hbrace (by decide)
      obtain ⟨trailing', next', rest', htrailing', hend', hrest⟩ :=
        htrailing.annotated hend hfits (suffix_behind (hbody.isSuffix.trans hus₀)) hvs'
      refine ⟨_, rest', .block hkind (hus'.legible hus) hbody' hbrace (hvs'.legible hvs) htrailing'
        hend', ?_, hrest⟩
      simp only [Node.bare, Object.bare_comments, ho]
  | directive hname hkind hus hlines _ ih =>
      intro hinput input' hin
      obtain ⟨us', rfl, hus'⟩ := hin.of_kind hkind (by decide)
      obtain ⟨in₁', hlines', hin₁⟩ := hlines.annotated hus'
      obtain ⟨args', rest', hargs', hargs, hrest⟩ :=
        ih (hlines.isSuffix.trans (suffix_behind hinput)) hin₁ [] rfl
      exact ⟨_, rest', .directive hname hkind (hus'.legible hus) hlines' hargs',
        by simp only [Directive.bare, hargs], hrest⟩
  | noArg hkind hus =>
      intro _ input' hin done' hdone
      obtain ⟨us', rfl, hus'⟩ := hin.of_kind hkind (by decide)
      exact ⟨_, us', .noArg hkind (hus'.legible hus), bareArgs_reverse hdone, hus'⟩
  | lastArg _ hlines hparen hrest ih =>
      intro hinput input' hin done' hdone
      obtain ⟨arg', mid', harg', harg, hmid⟩ := ih hinput hin
      obtain ⟨rest', hlines', hrest'⟩ := hlines.annotated_of_kind hmid hparen (by decide)
      exact ⟨_, rest', .lastArg harg' hlines' hparen (hrest'.legible hrest),
        bareArgs_reverse (bareArgs_cons harg hdone), hrest'⟩
  | args harg₀ hlines₁ hcomma hus hlines₂ _ ih₁ ih₂ =>
      intro hinput input' hin done' hdone
      obtain ⟨arg', mid', harg', harg, hmid⟩ := ih₁ hinput hin
      obtain ⟨us', hlines₁', hus'⟩ := hlines₁.annotated_of_kind hmid hcomma (by decide)
      obtain ⟨in₁', hlines₂', hin₁⟩ := hlines₂.annotated hus'
      have hcomma₀ := hlines₁.isSuffix.trans (harg₀.isSuffix.trans hinput)
      obtain ⟨args', rest', hargs', hargs, hrest⟩ :=
        ih₂ (hlines₂.isSuffix.trans (suffix_behind hcomma₀)) hin₁ _ (bareArgs_cons harg hdone)
      exact ⟨args', rest', .args harg' hlines₁' hcomma (hus'.legible hus) hlines₂' hargs', hargs,
        hrest⟩
  | arg hkeyword _ ih =>
      intro hinput input' hin
      obtain ⟨value', rest', hvalue', hvalue, hrest⟩ := ih hinput hin
      exact ⟨_, rest', .arg (not_keyword_annotated hkeyword hin) hvalue',
        by simp only [bareArg, hvalue], hrest⟩
  | keyword ht hu hvs hlines _ ih =>
      intro hinput input' hin
      obtain ⟨us', rfl, hus'⟩ := hin.of_kind ht (by decide)
      obtain ⟨vs', rfl, hvs'⟩ := hus'.of_kind hu (by decide)
      obtain ⟨in₁', hlines', hin₁⟩ := hlines.annotated hvs'
      obtain ⟨value', rest', hvalue', hvalue, hrest⟩ :=
        ih (hlines.isSuffix.trans (suffix_behind (suffix_behind hinput))) hin₁
      exact ⟨_, rest', .keyword ht hu (hvs'.legible hvs) hlines' hvalue',
        by simp only [bareArg, hvalue], hrest⟩
  | fragment hkind hus _ hbrace hrest ih =>
      intro hinput input' hin
      obtain ⟨us', rfl, hus'⟩ := hin.of_kind hkind (by decide)
      obtain ⟨o', in₁', hbody', ho, hin₁⟩ := ih (suffix_behind hinput) hus' _ [] rfl
      obtain ⟨rest', rfl, hrest'⟩ := hin₁.of_kind hbrace (by decide)
      exact ⟨_, rest', .fragment hkind (hus'.legible hus) hbody' hbrace (hrest'.legible hrest),
        by simp only [Payload.bare, ho], hrest'⟩
  | name hkind hus hfront =>
      intro _ input' hin
      obtain ⟨us', rfl, hus'⟩ := hin.of_kind hkind (by decide)
      exact ⟨_, us', .name hkind (hus'.legible hus) (hus'.front_ne (by decide) hfront), rfl, hus'⟩
  | calledValue hkind hcall he =>
      intro _ input' hin
      obtain ⟨us', rfl, hus'⟩ := hin.of_kind hkind (by decide)
      obtain ⟨mid', hcall', hmid⟩ := hcall.annotated hus'
      obtain ⟨rest', he', hrest⟩ := he.annotated hmid
      exact ⟨_, rest', .calledValue hkind hcall' he', rfl, hrest⟩
  | value hfront he =>
      intro _ input' hin
      obtain ⟨rest', he', hrest⟩ := he.annotated hin
      exact ⟨_, rest', .value (hin.front_ne (by decide) hfront) he', rfl, hrest⟩

/-- A document with a comment at the end of one of its lines. The first token of all says where its
root stands. -/
theorem Builds.annotated_document {start root : Object}
    (h : Builds (.body false start []) tokens root []) (hfits : r.Fits tokens)
    (hin : r.Annotated tokens input') (position : Position) :
    ∃ root', Builds (.body false start []) input' root' [] ∧ root'.bare = root.bare ∧
      Builds (.body false { start with position } []) input' { root' with position } [] := by
  obtain ⟨root', rest', hbuilds, hroot, hrest⟩ :=
    h.annotated hfits (List.suffix_refl _) hin start [] rfl
  cases hrest
  exact ⟨root', hbuilds, hroot, hbuilds.elsewhere position⟩

end ConfigLang.Parse
