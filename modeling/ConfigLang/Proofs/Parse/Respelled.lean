import Mathlib
import ConfigLang.Proofs.Eval.Same
import ConfigLang.Proofs.Parse.Context
import ConfigLang.Proofs.Parse.Precedence

/-!
# A number and its hyphen may be two tokens

`Respelled` relates the tokens of two texts that differ in where tokens stand, and in
that a number that holds its hyphen may be a minus and a number instead.  What is an
expression in one spelling is one in the other, and means the same
(`wholeExpression_respelled`).

## Strategy

The proof is by induction on what is read (`Reads.respelled`).  `Form.Again` says for
each form what is read off the other spelling.  Two things are not read alike.

* **Where a minus may stand.**  Behind an operand a minus subtracts, so there the two
  tokens must not come.  `Respelled` knows whether an operand has just ended, as the
  lexer does.
* **What a minus takes.**  A minus takes a number with its indexes and the powers behind
  it, where a number with its hyphen is an operand by itself.  A power right behind the
  number is ruled out.  An index of a number has no value, and neither has what is made
  of it; so it does not matter how much of that the minus takes.
-/

namespace ConfigLang

/-- Whether an operand ends with a token of a kind, where one has ended or not before it. A comment
changes nothing. -/
def Kind.endsOperandBehind (before : Bool) (kind : Kind) : Bool :=
  if kind = .comment then before else kind.endsOperand

namespace Parse

open ConfigLang.Expr (Same SameArgument OfNumbers)
open Lexeme (IsNumber)
open Literal (Opposite)

/-- A number that holds its hyphen, and the number without. -/
structure Negates (t n : Token) : Prop where
  isNumber : IsNumber t.kind
  kind : n.kind = t.kind
  decode : ∀ {value unit}, Literal.decode t.kind t.text = .ok (value, unit) →
    ∃ value', Literal.decode n.kind n.text = .ok (value', unit) ∧ Opposite value value' unit

/-- The same tokens at other places, where a number that holds its hyphen may be a minus and a
number instead, if no power follows. `ended` tells whether an operand has just ended. -/
inductive Respelled : (ended : Bool) → List Token → List Token → Prop
  | nil (ended : Bool) : Respelled ended [] []
  | cons {ended : Bool} {t t' : Token} {us us' : List Token} (hkind : t'.kind = t.kind)
      (htext : t'.text = t.text) (h : Respelled (t.kind.endsOperandBehind ended) us us') :
      Respelled ended (t :: us) (t' :: us')
  | minus {t minus n : Token} {us us' : List Token} (hminus : minus.kind = .mark .minus)
      (hnumber : Negates t n) (hpow : front us ≠ .mark .pow) (h : Respelled true us us') :
      Respelled false (t :: us) (minus :: n :: us')

variable {ended : Bool} {t : Token} {input input' us us' rest rest' : List Token}

/-! ## Kinds of tokens -/

theorem not_isNumber_of_unary {kind : Kind} {op : UnaryOp} (h : UnaryOp.ofKind? kind = some op) :
    ¬IsNumber kind := by
  rintro (rfl | rfl) <;> cases h

theorem not_isNumber_of_binary {kind : Kind} {op : BinaryOp}
    (h : BinaryOp.ofKind? kind = some op) : ¬IsNumber kind := by
  rintro (rfl | rfl) <;> cases h

theorem endsOperandBehind_of_isLiteral {kind : Kind} (h : isLiteral kind = true) (before : Bool) :
    kind.endsOperandBehind before = true := by
  cases kind <;> first | rfl | cases h

theorem eq_mark_pow {kind : Kind} (h : BinaryOp.ofKind? kind = some .pow) : kind = .mark .pow := by
  cases kind with
  | mark m => cases m <;> first | rfl | cases h
  | _ => cases h

/-! ## One token -/

/-- A token that is no number is one token in the other spelling. -/
theorem Respelled.of_not_isNumber (h : Respelled ended (t :: us) input')
    (ht : ¬IsNumber t.kind) :
    ∃ t' us', input' = t' :: us' ∧ t'.kind = t.kind ∧ t'.text = t.text ∧
      Respelled (t.kind.endsOperandBehind ended) us us' := by
  cases h with
  | cons hkind htext h => exact ⟨_, _, rfl, hkind, htext, h⟩
  | minus _ hnumber => exact absurd hnumber.isNumber ht

theorem Respelled.of_kind {kind : Kind} (h : Respelled ended (t :: us) input')
    (hkind : t.kind = kind) (hnumber : kind ≠ .integer ∧ kind ≠ .float) :
    ∃ t' us', input' = t' :: us' ∧ t'.kind = kind ∧ t'.text = t.text ∧
      Respelled (kind.endsOperandBehind ended) us us' := by
  subst hkind
  exact h.of_not_isNumber (not_or.mpr hnumber)

theorem Respelled.front_eq (h : Respelled true input input') : front input' = front input := by
  cases h with
  | nil => rfl
  | cons hkind => exact hkind

/-- The front is of the same kind, or it is a minus. -/
theorem Respelled.front_ne {kind : Kind} (h : Respelled ended input input')
    (hkind : kind ≠ .mark .minus) (hfront : front input ≠ kind) : front input' ≠ kind := by
  cases h with
  | nil => exact hfront
  | cons hsame =>
      intro heq
      exact hfront (hsame.symm.trans heq)
  | minus hminus =>
      intro heq
      exact hkind (heq.symm.trans hminus)

theorem Respelled.legible (h : Respelled ended us us') (hus : Legible us) : Legible us' :=
  h.front_ne (by decide) hus

theorem Lines.respelled {saw : Bool} (h : Lines input saw rest)
    (hin : Respelled ended input input') :
    ∃ ended' rest', Lines input' saw rest' ∧ Respelled ended' rest rest' := by
  induction h generalizing ended input' with
  | none heol hcomment =>
      exact ⟨ended, input', .none (hin.front_ne (by decide) heol)
        (hin.front_ne (by decide) hcomment), hin⟩
  | line hkind hus _ ih =>
      obtain ⟨t', us', rfl, hkind', -, hus'⟩ := hin.of_kind hkind (by decide)
      obtain ⟨ended', rest', hlines, hrest⟩ := ih hus'
      exact ⟨ended', rest', .line hkind' (hus'.legible hus) hlines, hrest⟩
  | comment hkind hus _ ih =>
      obtain ⟨t', us', rfl, hkind', -, hus'⟩ := hin.of_kind hkind (by decide)
      obtain ⟨ended', rest', hlines, hrest⟩ := ih hus'
      exact ⟨ended', rest', .comment hkind' (hus'.legible hus) hlines, hrest⟩

/-- Line ends and comments in front of a token of a kind. -/
theorem Lines.respelled_of_kind {saw : Bool} {kind : Kind} (h : Lines input saw (t :: us))
    (hin : Respelled ended input input') (hkind : t.kind = kind)
    (hnumber : kind ≠ .integer ∧ kind ≠ .float ∧ kind ≠ .comment) :
    ∃ t' us', Lines input' saw (t' :: us') ∧ t'.kind = kind ∧
      Respelled kind.endsOperand us us' := by
  obtain ⟨ended', rest', hlines, hrest⟩ := h.respelled hin
  obtain ⟨t', us', rfl, hkind', -, hus'⟩ := hrest.of_kind hkind ⟨hnumber.1, hnumber.2.1⟩
  rw [Kind.endsOperandBehind, if_neg hnumber.2.2] at hus'
  exact ⟨t', us', hlines, hkind', hus'⟩

/-! ## What is read off the other spelling -/

/-- In a form something is read for which `P` holds, and what is left is the same but for the
spelling. -/
def Rereads (f : Form) (input' : List Token) (P : f.Result → Prop) (rest : List Token) : Prop :=
  ∃ v' rest', Reads f input' v' rest' ∧ P v' ∧ Respelled true rest rest'

/-- A literal is a minus and a number in the other spelling. -/
inductive Parted : (input' : List Token) → Expr → (rest : List Token) → Prop
  | intro {t minus n : Token} {rest rest' : List Token} {value value' : Value}
      {unit : Option UnitSuffix} (hminus : minus.kind = .mark .minus)
      (hkind : isLiteral n.kind = true)
      (hvalue : Literal.decode n.kind n.text = .ok (value', unit))
      (hopposite : Opposite value value' unit) (hlegible : Legible rest)
      (hpow : front rest ≠ .mark .pow) (h : Respelled true rest rest') :
      Parted (minus :: n :: rest') (.literal t value unit) rest

/-- What is read off `input'`, if `v` is read off the front of `input` in the form. -/
def Form.Again (ended : Bool) (input' : List Token) :
    (f : Form) → (input : List Token) → f.Result → (rest : List Token) → Prop
  | expression, _, e, rest => Rereads .expression input' (Same e) rest
  | choice c, _, e, rest =>
    ended = true → ∀ c', Same c c' → Rereads (.choice c') input' (Same e) rest
  | operation least, _, e, rest =>
    least ≤ 10 → Rereads (.operation least) input' (Same e) rest
  | operations least left, _, e, rest =>
    ended = true → least ≤ 10 → ∀ left', Same left left' →
      Rereads (.operations least left') input' (Same e) rest ∧
      -- a minus in front takes the powers
      (Expr.Fails left → ∃ power mid, Reads (.operations 10 left') input' power mid ∧
        Rereads (.operations least (.unary .neg power)) mid (Same e) rest)
  | operand, _, e, rest =>
    Rereads .operand input' (Same e) rest ∨
      ∃ minus us', input' = minus :: us' ∧ minus.kind = .mark .minus ∧ Legible us' ∧ Expr.Fails e ∧
        Rereads .operand us' (Same e) rest
  | indexes target, input, e, rest =>
    ended = true →
      (∀ target', Same target target' → Rereads (.indexes target') input' (Same e) rest) ∧
      (front input = .mark .lbracket → ∀ target', OfNumbers target target' →
        Expr.Fails e ∧ Rereads (.indexes target') input' (Same e) rest)
  | primary, _, e, rest => Rereads .primary input' (Same e) rest ∨ Parted input' e rest
  | elements done, _, items, rest =>
    ∀ done', List.Forall₂ Same done done' →
      Rereads (.elements done') input' (List.Forall₂ Same items) rest
  | call name, _, e, rest =>
    ∀ name' : Token, name'.text = name.text → Rereads (.call name') input' (Same e) rest
  | arguments done, _, args, rest =>
    ∀ done', List.Forall₂ SameArgument done done' →
      Rereads (.arguments done') input' (List.Forall₂ SameArgument args) rest
  | argument, _, arg, rest => Rereads .argument input' (SameArgument arg) rest
  | continued p, _, e, rest =>
    ended = true → ∀ p', Same p p' → Rereads (.continued p') input' (Same e) rest

/-- What has no value has none with indexes either. -/
def Form.Strict : (f : Form) → f.Result → Prop
  | indexes target, e => Expr.Fails target → Expr.Fails e
  | _, _ => True

theorem Reads.strict {f : Form} {v : f.Result} (h : Reads f input v rest) : f.Strict v := by
  induction h with
  | noIndex => exact id
  | index _ _ _ _ _ _ _ _ _ ih =>
      intro htarget
      exact ih (htarget.congr (htarget.index _))
  | _ => trivial

/-! ## The induction -/

theorem Reads.again_operations {t : Token} {in₁ mid : List Token} {saw : Bool} {op : BinaryOp}
    {least : Nat} {left right e : Expr} (hop : BinaryOp.ofKind? t.kind = some op)
    (hpower : least ≤ op.power) (hus : Legible us) (hlines : Lines us saw in₁)
    (hright : ∀ {ended input'}, Respelled ended in₁ input' →
      (Form.operation op.rightPower).Again ended input' in₁ right mid)
    (hbehind : ∀ {ended input'}, Respelled ended mid input' →
      (Form.operations least (.binary op left right)).Again ended input' mid e rest)
    (hin : Respelled true (t :: us) input') :
    (Form.operations least left).Again true input' (t :: us) e rest := by
  intro _ hleast left' hleft
  obtain ⟨t', us', rfl, hkind, -, hus'⟩ := hin.of_not_isNumber (not_isNumber_of_binary hop)
  obtain ⟨ended, in₁', hlines', hin₁⟩ := hlines.respelled hus'
  obtain ⟨right', mid', hreads, hsame, hmid⟩ := hright hin₁ op.rightPower_le
  have hop' : BinaryOp.ofKind? t'.kind = some op := hkind ▸ hop
  have hlegible := hus'.legible hus
  have step {x : Expr} (hx : Same (.binary op left right) (.binary op x right')) :
      Rereads (.operations least x) (t' :: us') (Same e) rest := by
    obtain ⟨e', rest', he, hsame', hrest⟩ := (hbehind hmid rfl hleast _ hx).1
    exact ⟨e', rest', .operations hop' hpower hlegible hlines' hreads he, hsame', hrest⟩
  refine ⟨step (hleft.binary op hsame), ?_⟩
  intro hfails
  have hfails' := hfails.congr hleft
  by_cases hpow : op = .pow
  · subst hpow
    have hbinary := hleft.binary .pow hsame
    obtain ⟨power, mid'', hpowers, he⟩ := (hbehind hmid rfl hleast _ hbinary).2
      (hfails.congr (hfails.binary .pow right))
    exact ⟨power, mid'', .operations hop' le_rfl hlegible hlines' hreads hpowers, he⟩
  · refine ⟨left', t' :: us', .noOperation ?_, step ?_⟩
    · intro op' hop''
      cases hop'.symm.trans hop''
      exact BinaryOp.power_lt hpow
    · -- the error of `left` comes first on both sides
      have hneg := hfails'.congr (hfails'.unary .neg)
      calc
        Same (.binary op left right) left := (hfails.binary op right).symm
        Same left left' := hleft
        Same left' (.unary .neg left') := hfails'.unary .neg
        Same (.unary .neg left') (.binary op (.unary .neg left') right') := hneg.binary op right'

/-- A minus takes the number behind it with its indexes. -/
theorem Parted.again_operand {target e : Expr} {mid : List Token} (h : Parted input' target mid)
    (hindexes : Reads (.indexes target) mid e rest)
    (hagain : ∀ {mid'}, Respelled true mid mid' →
      (∀ target', Same target target' → Rereads (.indexes target') mid' (Same e) rest) ∧
      (front mid = .mark .lbracket → ∀ target', OfNumbers target target' →
        Expr.Fails e ∧ Rereads (.indexes target') mid' (Same e) rest)) :
    Form.operand.Again ended input' input e rest := by
  cases h with
  | @intro t minus n _ mid' value value' unit hminus hkind hvalue hopposite hlegible hpow hmid =>
      have hnumber : Reads .primary (n :: mid') (.literal n value' unit) mid' :=
        .literal hkind (hmid.legible hlegible) hvalue
      have hn : Legible (n :: mid') := hnumber.front_ne rfl rfl
      by_cases hbracket : front mid = .mark .lbracket
      · obtain ⟨hfails, e', rest', he', hsame, hrest⟩ :=
          (hagain hmid).2 hbracket _ (Expr.ofNumbers_of_opposite hopposite t n)
        exact .inr ⟨minus, n :: mid', rfl, hminus, hn, hfails, e', rest', .operand hnumber he',
          hsame, hrest⟩
      · have hfront := hmid.front_eq
        have hoperation : Reads (.operation 10) (n :: mid') (.literal n value' unit) mid' := by
          refine .operation (.operand hnumber (.noIndex (hfront ▸ hbracket))) (.noOperation ?_)
          intro op hop
          apply BinaryOp.power_lt
          rintro rfl
          exact hpow (hfront ▸ eq_mark_pow hop)
        cases hindexes with
        | index hkind => exact absurd hkind hbracket
        | noIndex =>
            exact .inl ⟨.unary .neg (.literal n value' unit), mid',
              .prefixed (by rw [hminus]; rfl) hn hoperation, Same.negated hopposite t n, hmid⟩

theorem named_of_same {done done' : List (Argument Expr)} {arg arg' : Argument Expr}
    (harg : SameArgument arg arg') (hdone : List.Forall₂ SameArgument done done')
    (h : arg.name.isNone → done.any (·.name.isSome) = false) :
    arg'.name.isNone → done'.any (·.name.isSome) = false := by
  have hany : done'.any (·.name.isSome) = done.any (·.name.isSome) := by
    clear h
    induction hdone with
    | nil => rfl
    | cons hfirst _ ih => rw [List.any_cons, List.any_cons, ih, hfirst.1]
  rw [← harg.1, hany]
  exact h

/-- **What is read in one spelling is read in the other**, and means the same. -/
theorem Reads.again {f : Form} {v : f.Result} (h : Reads f input v rest) :
    ∀ {ended input'}, Respelled ended input input' → f.Again ended input' input v rest := by
  induction h with
  | expression _ _ ih₁ ih₂ =>
      intro ended input' hin
      obtain ⟨c', mid', hcondition, hc, hmid⟩ := ih₁ hin (by decide)
      obtain ⟨e', rest', he', hsame, hrest⟩ := ih₂ hmid rfl c' hc
      exact ⟨e', rest', .expression hcondition he', hsame, hrest⟩
  | noChoice hquestion =>
      intro ended input' hin hended c' hc
      subst hended
      exact ⟨c', input', .noChoice (hin.front_eq ▸ hquestion), hc, hin⟩
  | choice hkind hus hlines₁ _ hlines₂ hcolon hvs hlines₃ _ ih₁ ih₂ =>
      intro ended input' hin _ c' hc
      obtain ⟨t', us', rfl, hkind', -, hus'⟩ := hin.of_kind hkind (by decide)
      obtain ⟨_, in₁', hlines₁', hin₁⟩ := hlines₁.respelled hus'
      obtain ⟨yes', mid', hyes', hyes, hmid⟩ := ih₁ hin₁
      obtain ⟨colon', vs', hlines₂', hcolon', hvs'⟩ :=
        hlines₂.respelled_of_kind hmid hcolon (by decide)
      obtain ⟨_, in₂', hlines₃', hin₂⟩ := hlines₃.respelled hvs'
      obtain ⟨no', rest', hno', hno, hrest⟩ := ih₂ hin₂
      exact ⟨_, rest', .choice hkind' (hus'.legible hus) hlines₁' hyes' hlines₂' hcolon'
        (hvs'.legible hvs) hlines₃' hno', hc.ternary hyes hno, hrest⟩
  | operation _ _ ih₁ ih₂ =>
      intro ended input' hin hleast
      rcases ih₁ hin with ⟨left', mid', hleft', hsame, hmid⟩ |
        ⟨minus, us', rfl, hminus, hus', hfails, left', mid', hleft', hsame, hmid⟩
      · obtain ⟨e', rest', he', hsame', hrest⟩ := (ih₂ hmid rfl hleast left' hsame).1
        exact ⟨e', rest', .operation hleft' he', hsame', hrest⟩
      · -- the minus takes the operand and the powers behind it
        obtain ⟨power, mid'', hpower, e', rest', he', hsame', hrest⟩ :=
          (ih₂ hmid rfl hleast left' hsame).2 hfails
        have hprefixed : Reads .operand (minus :: us') (.unary .neg power) mid'' :=
          .prefixed (by rw [hminus]; rfl) hus' (.operation hleft' hpower)
        exact ⟨e', rest', .operation hprefixed he', hsame', hrest⟩
  | @noOperation least input left hpower =>
      intro ended input' hin hended hleast left' hleft
      subst hended
      have hpower' : ∀ op, BinaryOp.ofKind? (front input') = some op → op.power < least :=
        hin.front_eq ▸ hpower
      refine ⟨⟨left', input', .noOperation hpower', hleft, hin⟩, ?_⟩
      intro hfails
      have hten : ∀ op, BinaryOp.ofKind? (front input') = some op → op.power < 10 :=
        fun op hop => (hpower' op hop).trans_le hleast
      exact ⟨left', input', .noOperation hten, .unary .neg left', input', .noOperation hpower',
        hleft.trans ((hfails.congr hleft).unary .neg), hin⟩
  | operations hop hpower hus hlines _ _ ih₁ ih₂ =>
      intro ended input' hin hended
      subst hended
      exact Reads.again_operations hop hpower hus hlines ih₁ ih₂ hin rfl
  | prefixed hop hus _ ih =>
      intro ended input' hin
      obtain ⟨t', us', rfl, hkind, -, hus'⟩ := hin.of_not_isNumber (not_isNumber_of_unary hop)
      obtain ⟨e', rest', he', hsame, hrest⟩ := ih hus' le_rfl
      exact .inl ⟨_, rest', .prefixed (hkind ▸ hop) (hus'.legible hus) he', hsame.unary _, hrest⟩
  | operand _ hindexes ih₁ ih₂ =>
      intro ended input' hin
      rcases ih₁ hin with ⟨target', mid', htarget', htarget, hmid⟩ | hparted
      · obtain ⟨e', rest', he', hsame, hrest⟩ := (ih₂ hmid rfl).1 target' htarget
        exact .inl ⟨e', rest', .operand htarget' he', hsame, hrest⟩
      · exact hparted.again_operand hindexes (ih₂ · rfl)
  | noIndex hbracket =>
      intro ended input' hin hended
      subst hended
      refine ⟨?_, fun hfront => absurd hfront hbracket⟩
      intro target' htarget
      exact ⟨target', input', .noIndex (hin.front_eq ▸ hbracket), htarget, hin⟩
  | index hkind hus hlines₁ _ hlines₂ hbracket hvs hbehind ih₁ ih₂ =>
      intro ended input' hin _
      obtain ⟨t', us', rfl, hkind', -, hus'⟩ := hin.of_kind hkind (by decide)
      obtain ⟨_, in₁', hlines₁', hin₁⟩ := hlines₁.respelled hus'
      obtain ⟨i', mid', hi', hi, hmid⟩ := ih₁ hin₁
      obtain ⟨bracket', vs', hlines₂', hbracket', hvs'⟩ :=
        hlines₂.respelled_of_kind hmid hbracket (by decide)
      have step {x : Expr} (hx : Same (.index _ _) (.index x i')) :=
        (ih₂ hvs' rfl).1 (.index x i') hx
      refine ⟨?_, ?_⟩
      · intro target' htarget
        obtain ⟨e', rest', he', hsame, hrest⟩ := step (htarget.index hi)
        exact ⟨e', rest', .index hkind' (hus'.legible hus) hlines₁' hi' hlines₂' hbracket'
          (hvs'.legible hvs) he', hsame, hrest⟩
      · intro _ target' htarget
        obtain ⟨e', rest', he', hsame, hrest⟩ := step (htarget.same hi)
        exact ⟨hbehind.strict (htarget.fails _), e', rest', .index hkind' (hus'.legible hus)
          hlines₁' hi' hlines₂' hbracket' (hvs'.legible hvs) he', hsame, hrest⟩
  | literal hkind hus hvalue =>
      intro ended input' hin
      cases hin with
      | cons hkind' htext h =>
          rw [endsOperandBehind_of_isLiteral hkind] at h
          exact .inl ⟨_, _,
            .literal (hkind' ▸ hkind) (h.legible hus) (by rw [hkind', htext, hvalue]),
            Same.literal _ _ _ _, h⟩
      | minus hminus hnumber hpow h =>
          obtain ⟨value', hvalue', hopposite⟩ := hnumber.decode hvalue
          exact .inr (.intro hminus (hnumber.kind ▸ hkind) hvalue' hopposite hus hpow h)
  | localVar hkind hus =>
      intro ended input' hin
      obtain ⟨t', us', rfl, hkind', htext, hus'⟩ := hin.of_kind hkind (by decide)
      refine .inl ⟨_, us', .localVar hkind' (hus'.legible hus), ?_, hus'⟩
      rw [htext]
      exact Same.var _ _ _ _
  | baseVar hkind hus =>
      intro ended input' hin
      obtain ⟨t', us', rfl, hkind', htext, hus'⟩ := hin.of_kind hkind (by decide)
      refine .inl ⟨_, us', .baseVar hkind' (hus'.legible hus), ?_, hus'⟩
      rw [htext]
      exact Same.var _ _ _ _
  | group hkind hus hlines₁ _ hlines₂ hparen hrest ih =>
      intro ended input' hin
      obtain ⟨t', us', rfl, hkind', -, hus'⟩ := hin.of_kind hkind (by decide)
      obtain ⟨_, in₁', hlines₁', hin₁⟩ := hlines₁.respelled hus'
      obtain ⟨e', mid', he', hsame, hmid⟩ := ih hin₁
      obtain ⟨paren', rest', hlines₂', hparen', hrest'⟩ :=
        hlines₂.respelled_of_kind hmid hparen (by decide)
      exact .inl ⟨e', rest', .group hkind' (hus'.legible hus) hlines₁' he' hlines₂' hparen'
        (hrest'.legible hrest), hsame, hrest'⟩
  | array hkind hus hlines _ ih =>
      intro ended input' hin
      obtain ⟨t', us', rfl, hkind', -, hus'⟩ := hin.of_kind hkind (by decide)
      obtain ⟨_, in₁', hlines', hin₁⟩ := hlines.respelled hus'
      obtain ⟨items', rest', hitems', hsame, hrest⟩ := ih hin₁ [] .nil
      exact .inl ⟨_, rest', .array hkind' (hus'.legible hus) hlines' hitems', .array hsame, hrest⟩
  | called hkind _ ih =>
      intro ended input' hin
      obtain ⟨t', us', rfl, hkind', htext, hus'⟩ := hin.of_kind hkind (by decide)
      obtain ⟨e', rest', he', hsame, hrest⟩ := ih hus' t' htext
      exact .inl ⟨e', rest', .called hkind' he', hsame, hrest⟩
  | noElement hkind hus =>
      intro ended input' hin done' hdone
      obtain ⟨t', us', rfl, hkind', -, hus'⟩ := hin.of_kind hkind (by decide)
      exact ⟨_, us', .noElement hkind' (hus'.legible hus), List.rel_reverse hdone, hus'⟩
  | lastElement _ hlines hbracket hrest ih =>
      intro ended input' hin done' hdone
      obtain ⟨e', mid', he', hsame, hmid⟩ := ih hin
      obtain ⟨bracket', rest', hlines', hbracket', hrest'⟩ :=
        hlines.respelled_of_kind hmid hbracket (by decide)
      exact ⟨_, rest', .lastElement he' hlines' hbracket' (hrest'.legible hrest),
        List.rel_reverse (.cons hsame hdone), hrest'⟩
  | element _ hlines₁ hcomma hus hlines₂ hlast _ ih₁ ih₂ =>
      intro ended input' hin done' hdone
      obtain ⟨e', mid', he', hsame, hmid⟩ := ih₁ hin
      obtain ⟨comma', us', hlines₁', hcomma', hus'⟩ :=
        hlines₁.respelled_of_kind hmid hcomma (by decide)
      obtain ⟨_, in₁', hlines₂', hin₁⟩ := hlines₂.respelled hus'
      obtain ⟨items', rest', hitems', hsame', hrest⟩ := ih₂ hin₁ (e' :: done') (.cons hsame hdone)
      refine ⟨items', rest', .element he' hlines₁' hcomma' (hus'.legible hus) hlines₂' ?_ hitems',
        hsame', hrest⟩
      intro hfront
      by_contra hsaw
      exact hin₁.front_ne (by decide) (fun hfront => hsaw (hlast hfront)) hfront
  | call hkind hus hlines _ ih =>
      intro ended input' hin name' hname
      obtain ⟨t', us', rfl, hkind', -, hus'⟩ := hin.of_kind hkind (by decide)
      obtain ⟨_, in₁', hlines', hin₁⟩ := hlines.respelled hus'
      obtain ⟨args', rest', hargs', hsame, hrest⟩ := ih hin₁ [] .nil
      refine ⟨_, rest', .call hkind' (hus'.legible hus) hlines' hargs', ?_, hrest⟩
      rw [hname]
      exact Same.call _ hsame _ _
  | noArgument hkind hus =>
      intro ended input' hin done' hdone
      obtain ⟨t', us', rfl, hkind', -, hus'⟩ := hin.of_kind hkind (by decide)
      exact ⟨_, us', .noArgument hkind' (hus'.legible hus), List.rel_reverse hdone, hus'⟩
  | lastArgument _ hnamed hlines hparen hrest ih =>
      intro ended input' hin done' hdone
      obtain ⟨arg', mid', harg', hsame, hmid⟩ := ih hin
      obtain ⟨paren', rest', hlines', hparen', hrest'⟩ :=
        hlines.respelled_of_kind hmid hparen (by decide)
      exact ⟨_, rest', .lastArgument harg' (named_of_same hsame hdone hnamed) hlines' hparen'
        (hrest'.legible hrest), List.rel_reverse (.cons hsame hdone), hrest'⟩
  | arguments _ hnamed hlines₁ hcomma hus hlines₂ _ ih₁ ih₂ =>
      intro ended input' hin done' hdone
      obtain ⟨arg', mid', harg', hsame, hmid⟩ := ih₁ hin
      obtain ⟨comma', us', hlines₁', hcomma', hus'⟩ :=
        hlines₁.respelled_of_kind hmid hcomma (by decide)
      obtain ⟨_, in₁', hlines₂', hin₁⟩ := hlines₂.respelled hus'
      obtain ⟨args', rest', hargs', hsame', hrest⟩ :=
        ih₂ hin₁ (arg' :: done') (.cons hsame hdone)
      exact ⟨args', rest', .arguments harg' (named_of_same hsame hdone hnamed) hlines₁' hcomma'
        (hus'.legible hus) hlines₂' hargs', hsame', hrest⟩
  | argument hkind _ ih =>
      intro ended input' hin
      obtain ⟨e', rest', he', hsame, hrest⟩ := ih hin
      exact ⟨⟨none, e'⟩, rest', .argument (hin.front_ne (by decide) hkind) he', ⟨rfl, hsame⟩, hrest⟩
  | keyword ht hu hvs hlines _ ih =>
      intro ended input' hin
      obtain ⟨t', us', rfl, ht', htext, hus'⟩ := hin.of_kind ht (by decide)
      obtain ⟨u', vs', rfl, hu', -, hvs'⟩ := hus'.of_kind hu (by decide)
      obtain ⟨_, in₁', hlines', hin₁⟩ := hlines.respelled hvs'
      obtain ⟨e', rest', he', hsame, hrest⟩ := ih hin₁
      exact ⟨⟨some t'.text, e'⟩, rest', .keyword ht' hu' (hvs'.legible hvs) hlines' he',
        ⟨congrArg some htext.symm, hsame⟩, hrest⟩
  | calledArgument ht _ _ ih₁ ih₂ =>
      intro ended input' hin
      obtain ⟨t', us', rfl, ht', htext, hus'⟩ := hin.of_kind ht (by decide)
      obtain ⟨c', mid', hc', hsame, hmid⟩ := ih₁ hus' t' htext
      obtain ⟨e', rest', he', hsame', hrest⟩ := ih₂ hmid rfl c' hsame
      exact ⟨⟨none, e'⟩, rest', .calledArgument ht' hc' he', ⟨rfl, hsame'⟩, hrest⟩
  | continued _ _ _ ih₁ ih₂ ih₃ =>
      intro ended input' hin hended p' hp
      obtain ⟨a', mid₁', ha', hsame₁, hmid₁⟩ := (ih₁ hin hended).1 p' hp
      obtain ⟨c', mid₂', hc', hsame₂, hmid₂⟩ := (ih₂ hmid₁ rfl (by decide) a' hsame₁).1
      obtain ⟨e', rest', he', hsame, hrest⟩ := ih₃ hmid₂ rfl c' hsame₂
      exact ⟨e', rest', .continued ha' hc' he', hsame, hrest⟩

/-- **An expression text in one spelling is one in the other**, and means the same. -/
theorem wholeExpression_respelled {stop stop' : Position} {E E' : List Token} {e : Expr}
    (h : wholeExpression stop E = .ok e) (hE : Respelled ended E E') :
    ∃ e', wholeExpression stop' E' = .ok e' ∧ Same e e' := by
  obtain ⟨hlegible, _, _, in₁, mid, hlines, he, hlines'⟩ := wholeExpression_iff.mp h
  obtain ⟨_, in₁', hlines, hin₁⟩ := hlines.respelled hE
  obtain ⟨e', mid', he', hsame, hmid⟩ := he.again hin₁
  obtain ⟨_, rest', hlines', hrest⟩ := hlines'.respelled hmid
  cases hrest
  exact ⟨e', wholeExpression_iff.mpr ⟨hE.legible hlegible, _, _, in₁', mid', hlines, he', hlines'⟩,
    hsame⟩

end Parse

end ConfigLang
