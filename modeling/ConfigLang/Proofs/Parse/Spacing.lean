import Mathlib
import ConfigLang.Proofs.Parse.Respelled
import ConfigLang.Proofs.Token.Splice

/-!
# Blanks around a hyphen

A hyphen in front of a digit is part of a number, unless an operand ends before it.  Blanks around
it change neither whether a text is an expression nor what that means (`hyphen_spaced`), as long as
what is behind the hyphen is read as a number without it.

## Strategy

* **Before the hyphen.**  The tokens there do not look past it (`Takes.splice`), so they are the
  same in both texts.
* **Behind the hyphen.**  The tokens depend on the characters that are left and on whether an
  operand has just ended (`respelled_words`).  So the two texts have the same tokens but for a
  number that holds its hyphen, which becomes a minus and a number (`respelled_number`), and
  `respelled_hyphen` puts both sides together.
* **Meaning.**  Such token lists mean the same (`wholeExpression_respelled`).  What the lexer takes
  for the end of an operand is one for the parser too: an operand ends with a token of the kinds
  that the lexer looks for (`Reads.endsOperand`).
* **The minus.**  Behind an operand it subtracts the literal behind it (`Reads.difference`), and
  elsewhere it takes the power behind it (`Reads.negated_power`).
* **Texts.**  Blanks break no line and part the hyphen from what is around it (`severs_spaces`);
  `parseExpression_spaces` goes from tokens back to texts.
-/

namespace ConfigLang

open Lexeme (Severs EndsLine)
open Parse (Respelled Reads Lines Legible front wholeExpression)
open ConfigLang.Expr (Same)

namespace Parse

variable {before : Bool} {t : Token} {input mid rest us : List Token}

theorem valid_of_wholeExpression {stop : Position} {E : List Token} {e : Expr}
    (h : wholeExpression stop E = .ok e) : ∀ t ∈ E, t.kind ≠ .invalid := by
  obtain ⟨-, _, _, in₁, mid, hlines, he, hlines'⟩ := wholeExpression_iff.mp h
  intro t ht hinvalid
  have hmid := he.mem_of_invalid (hlines.mem_of_invalid ht hinvalid) hinvalid
  cases hlines'.mem_of_invalid hmid hinvalid

/-! ## Where an operand ends -/

/-- The tokens before `rest` end an operand, where one has ended or not before them. -/
def EndsOperand (before : Bool) (input rest : List Token) : Prop :=
  ∃ used, input = used ++ rest ∧
    used.foldl (fun ended t => t.kind.endsOperandBehind ended) before = true

theorem EndsOperand.nil (input : List Token) : EndsOperand true input input :=
  ⟨[], rfl, rfl⟩

theorem EndsOperand.trans (h : EndsOperand before input mid) (h' : EndsOperand true mid rest) :
    EndsOperand before input rest := by
  obtain ⟨used, rfl, hused⟩ := h
  obtain ⟨used', rfl, hused'⟩ := h'
  refine ⟨used ++ used', (List.append_assoc ..).symm, ?_⟩
  rw [List.foldl_append, hused, hused']

theorem EndsOperand.behind (h : ∀ before, EndsOperand before mid rest) (hmid : mid <:+ input) :
    EndsOperand before input rest := by
  obtain ⟨used, rfl⟩ := hmid
  obtain ⟨used', rfl, hused'⟩ := h (used.foldl (fun ended t => t.kind.endsOperandBehind ended) _)
  refine ⟨used ++ used', (List.append_assoc ..).symm, ?_⟩
  rw [List.foldl_append, hused']

theorem EndsOperand.of_kind {kind : Kind} (ht : t.kind = kind)
    (hkind : ∀ before, kind.endsOperandBehind before = true) (hrest : t :: rest <:+ input) :
    EndsOperand before input rest := by
  refine .behind (fun before => ⟨[t], rfl, ?_⟩) hrest
  rw [List.foldl_cons, ht, hkind, List.foldl_nil]

/-- A form that goes on behind an operand. -/
def Form.GoesOn : Form → Prop
  | choice _ | operations _ _ | indexes _ | continued _ => True
  | _ => False

/-- **Every operand ends with a token that ends operands**, comments aside. -/
theorem Reads.endsOperand {f : Form} {v : f.Result} (h : Reads f input v rest) :
    ∀ before, (f.GoesOn → before = true) → EndsOperand before input rest := by
  have fall {t : Token} {us xs : List Token} (h : xs <:+ us) : xs <:+ t :: us :=
    h.trans (List.suffix_cons t us)
  induction h with
  | expression _ _ ih₁ ih₂ | operation _ _ ih₁ ih₂ | operand _ _ ih₁ ih₂ =>
      exact fun before _ => (ih₁ before nofun).trans (ih₂ true fun _ => rfl)
  | noChoice | noOperation | noIndex =>
      intro before hbefore
      rw [hbefore trivial]
      exact .nil _
  | choice _ _ hlines₁ hyes hlines₂ _ _ hlines₃ _ _ ih =>
      intro before _
      have hcolon := hlines₂.isSuffix.trans (hyes.isSuffix.trans hlines₁.isSuffix)
      exact .behind (ih · nofun) (fall ((fall hlines₃.isSuffix).trans hcolon))
  | operations _ _ _ hlines _ _ ih₁ ih₂ =>
      intro before _
      have hright (before : Bool) := (ih₁ before nofun).trans (ih₂ true fun _ => rfl)
      exact .behind hright (fall hlines.isSuffix)
  | index _ _ hlines₁ hindex hlines₂ hbracket _ _ _ ih =>
      intro before _
      have hclose := hlines₂.isSuffix.trans (hindex.isSuffix.trans hlines₁.isSuffix)
      exact (EndsOperand.of_kind hbracket (fun _ => rfl) (fall hclose)).trans (ih true fun _ => rfl)
  | literal hkind =>
      exact fun _ _ => .of_kind rfl (endsOperandBehind_of_isLiteral hkind) (List.suffix_refl _)
  | localVar hkind | baseVar hkind | noElement hkind | noArgument hkind =>
      exact fun _ _ => .of_kind hkind (fun _ => rfl) (List.suffix_refl _)
  | group _ _ hlines₁ he hlines₂ hparen =>
      intro before _
      exact .of_kind hparen (fun _ => rfl)
        (hlines₂.isSuffix.trans (he.isSuffix.trans (fall hlines₁.isSuffix)))
  | array _ _ hlines _ ih | call _ _ hlines _ ih =>
      exact fun _ _ => .behind (ih · nofun) (fall hlines.isSuffix)
  | prefixed _ _ _ ih | called _ _ ih =>
      exact fun _ _ => .behind (ih · nofun) (List.suffix_cons _ _)
  | lastElement hitem hlines hclose | lastArgument hitem _ hlines hclose =>
      exact fun _ _ => .of_kind hclose (fun _ => rfl) (hlines.isSuffix.trans hitem.isSuffix)
  | element hitem hlines₁ _ _ hlines₂ _ _ _ ih | arguments hitem _ hlines₁ _ _ hlines₂ _ _ ih =>
      have hcomma := hlines₁.isSuffix.trans hitem.isSuffix
      exact fun _ _ => .behind (ih · nofun) ((fall hlines₂.isSuffix).trans hcomma)
  | argument _ _ ih => exact fun before _ => ih before nofun
  | keyword _ _ _ hlines _ ih =>
      exact fun _ _ => .behind (ih · nofun) (fall (fall hlines.isSuffix))
  | calledArgument _ _ _ ih₁ ih₂ =>
      have hcall (before : Bool) := (ih₁ before nofun).trans (ih₂ true fun _ => rfl)
      exact fun _ _ => .behind hcall (List.suffix_cons _ _)
  | continued _ _ _ ih₁ ih₂ ih₃ =>
      intro before hbefore
      exact (ih₁ before hbefore).trans ((ih₂ true fun _ => rfl).trans (ih₃ true fun _ => rfl))

end Parse

/-! ## The tokens behind a hyphen -/

namespace Lexer

variable {l l' m : Lexer} {ts us us' : List Token} {d : Char} {cs : List Char}

/-- Whether an operand has just ended. -/
def ended (l : Lexer) : Bool :=
  l.last.any Kind.endsOperand

theorem ended_take (lexeme : Lexeme) (l : Lexer) :
    (l.take lexeme).2.ended = lexeme.kind.endsOperandBehind l.ended := by
  rw [ended, take, Kind.endsOperandBehind]
  dsimp only
  split <;> rfl

theorem ended_next (h : l.next.1.kind ≠ .eof) :
    l.next.2.ended = l.next.1.kind.endsOperandBehind l.ended := by
  cases hrest : l.skipBlanks.rest with
  | nil =>
      rw [next_of_nil hrest] at h
      exact absurd rfl h
  | cons c cs =>
      rw [next_of_cons hrest]
      exact ended_take _ _

theorem Takes.ended (h : Takes l ts m) :
    m.ended = ts.foldl (fun ended t => t.kind.endsOperandBehind ended) l.ended := by
  induction h with
  | nil => rfl
  | cons hkind _ ih => rw [List.foldl_cons, ← ended_next hkind, ih]

/-- The lexer asks no more of the last token than whether it ends an operand. -/
theorem atFront_congr {last last' : Option Kind}
    (h : last.any Kind.endsOperand = last'.any Kind.endsOperand) (c : Char) (cs : List Char) :
    Lexeme.atFront last c cs = Lexeme.atFront last' c cs := by
  unfold Lexeme.atFront
  rw [h]

/-- **What is left behind the blanks decides on the tokens.** -/
theorem respelled_words (hrest : l.skipBlanks.rest = l'.skipBlanks.rest)
    (hended : l.ended = l'.ended) : Respelled l.ended l.words l'.words := by
  induction hn : l.rest.length using Nat.strong_induction_on generalizing l l' with
  | _ n ih =>
      cases hcs : l.skipBlanks.rest with
      | nil =>
          rw [words_of_nil hcs, words_of_nil (hrest ▸ hcs)]
          exact .nil _
      | cons c cs =>
          have hcs' : l'.skipBlanks.rest = c :: cs := hrest ▸ hcs
          have hlexeme := atFront_congr hended c cs
          have hne := next_ne_eof hcs
          have hne' := next_ne_eof hcs'
          have hkind : l'.next.1.kind = l.next.1.kind := by
            rw [next_of_cons hcs, next_of_cons hcs', take, take, ← hlexeme]
          have htext : l'.next.1.text = l.next.1.text := by
            rw [next_of_cons hcs, next_of_cons hcs', take, take, ← hlexeme]
          have hleft : l.next.2.rest = l'.next.2.rest := by
            rw [rest_next hcs, rest_next hcs', hlexeme]
          have hended' : l.next.2.ended = l'.next.2.ended := by
            rw [ended_next hne, ended_next hne', hkind, hended]
          rw [words_of_ne_eof hne, words_of_ne_eof hne']
          refine .cons hkind htext ?_
          rw [← ended_next hne]
          refine ih _ (hn ▸ length_next_lt hne) ?_ hended' rfl
          rw [rest_skipBlanks, rest_skipBlanks, hleft]

/-- The same tokens stand in front. -/
theorem Takes.respelled (h : Takes l ts m) (hbehind : Respelled m.ended us us') :
    Respelled l.ended (ts ++ us) (ts ++ us') := by
  induction h with
  | nil => exact hbehind
  | cons hkind _ ih =>
      refine .cons rfl rfl ?_
      rw [← ended_next hkind]
      exact ih hbehind

/-! ### A hyphen and the digit behind it -/

theorem front_words (l : Lexer) : front l.words = l.next.1.kind := by
  by_cases h : l.next.1.kind = .eof
  · rw [words_of_nil (skipBlanks_rest_of_eof h), h]
    rfl
  · rw [words_of_ne_eof h]
    rfl

/-- A hyphen is a token of its own behind an operand, and where no digit follows. -/
theorem next_minus (hrest : l.skipBlanks.rest = '-' :: cs)
    (h : l.ended = true ∨ Lexeme.startsDigit cs = false) :
    l.next.1.kind = .mark .minus ∧ l.next.1.text = "-" ∧ l.next.2.rest = cs ∧
      l.next.2.ended = false := by
  have hlexeme : Lexeme.atFront l.last '-' cs = ⟨.mark .minus, "-", 1⟩ := by
    rw [atFront_hyphen, if_neg]
    rintro ⟨hdigit, hended⟩
    rcases h with h | h
    · exact hended h
    · rw [h] at hdigit
      cases hdigit
  have hne := next_ne_eof hrest
  have hnext := next_of_cons hrest
  rw [hlexeme] at hnext
  have hkind : l.next.1.kind = .mark .minus := by rw [hnext]; rfl
  refine ⟨hkind, by rw [hnext]; rfl, ?_, ?_⟩
  · rw [rest_next hrest, hlexeme]
    rfl
  · rw [ended_next hne, hkind]
    rfl

/-- A hyphen that belongs to the number behind it may as well be a minus in front of the number: no
calendar literal starts there, no power follows, and the number has a negative. -/
structure Detachable (l : Lexer) (d : Char) (cs : List Char) : Prop where
  calendar : Lexeme.moment? (d :: cs) = none
  power : l.next.2.next.1.kind ≠ .mark .pow
  magnitude : l.next.1.kind = .integer →
    Literal.magnitude (.ofList (l.next.1.text.toList.drop 1)) < 2 ^ 63
  /-- This holds of all doubles, the arithmetic of which is not part of the library. -/
  flips : l.next.1.kind = .float → ∀ x unit,
    Literal.double (.ofList (l.next.1.text.toList.drop 1)) = (.double x, some unit) →
      Literal.FlipsIn x unit

/-- The hyphen of a number becomes a token of its own. -/
theorem respelled_number (hd : d.isDigit = true) (hrest : l.skipBlanks.rest = '-' :: d :: cs)
    (hended : l.ended = false) (hvalid : l.next.1.kind ≠ .invalid) (h : l.Detachable d cs)
    (hminus : l'.next.1.kind = .mark .minus) (hrest' : l'.next.2.skipBlanks.rest = d :: cs) :
    Respelled false l.words l'.words := by
  have hlexeme : Lexeme.atFront l.last '-' (d :: cs) = Lexeme.signedNumber ['-'] (d :: cs) := by
    rw [atFront_hyphen, if_pos ⟨hd, by rw [← ended, hended]; decide⟩]
  have hnext := next_of_cons hrest
  rw [hlexeme] at hnext
  rw [hnext] at hvalid
  obtain ⟨kind, n, hkind, hsigned, hunsigned⟩ := Lexeme.signedNumber_sign hd hvalid
  have hnext' := next_of_cons hrest'
  rw [atFront_digit _ hd, Lexeme.unsigned, h.calendar, Option.getD_none, hunsigned] at hnext'
  rw [hsigned] at hnext
  -- the numbers end at the same place
  have hleft : l.next.2.rest = cs.drop n.length := by
    rw [rest_next hrest, hlexeme, hsigned]
    rfl
  have hleft' : l'.next.2.next.2.rest = cs.drop n.length := by
    rw [hnext', take, skip, hrest']
    rfl
  have hne := next_ne_eof hrest
  have hne' := next_ne_eof hrest'
  have hoperand (before : Bool) : kind.endsOperandBehind before = true := by
    rcases hkind with rfl | rfl <;> rfl
  have hkind₁ : l.next.1.kind = kind := by rw [hnext]; rfl
  have hkind₂ : l'.next.2.next.1.kind = kind := by rw [hnext']; rfl
  have hended₁ : l.next.2.ended = true := by rw [ended_next hne, hkind₁, hoperand]
  have hended₂ : l'.next.2.next.2.ended = true := by rw [ended_next hne', hkind₂, hoperand]
  have hbehind : Respelled true l.next.2.words l'.next.2.next.2.words := by
    rw [← hended₁]
    refine respelled_words ?_ (hended₁.trans hended₂.symm)
    rw [rest_skipBlanks, rest_skipBlanks, hleft, hleft']
  have htext₁ : l.next.1.text = .ofList ('-' :: d :: n) := by rw [hnext]; rfl
  have htext₂ : l'.next.2.next.1.text = .ofList (d :: n) := by rw [hnext']; rfl
  have htail : String.ofList (l.next.1.text.toList.drop 1) = .ofList (d :: n) := by
    rw [htext₁, String.toList_ofList]
    rfl
  have hnegates : Parse.Negates l.next.1 l'.next.2.next.1 := by
    refine ⟨hkind₁ ▸ hkind, hkind₂.trans hkind₁.symm, fun {value unit} hvalue => ?_⟩
    rw [hkind₁, htext₁] at hvalue
    rw [hkind₂, htext₂]
    refine Literal.opposite_of_decode hkind hd hvalue (fun hk => ?_) fun hk x u hx => ?_
    · rw [← htail]
      exact h.magnitude (hkind₁.trans hk)
    · refine h.flips (hkind₁.trans hk) x u ?_
      rw [htail]
      exact hx
  rw [words_of_ne_eof hne, words_of_ne_eof (l := l') (by rw [hminus]; decide), words_of_ne_eof hne']
  exact .minus hminus hnegates (front_words l.next.2 ▸ h.power) hbehind

/-- What is behind a hyphen may move away from it. -/
theorem respelled_hyphen {z : List Char} (hd : d.isDigit = true)
    (hrest : l.skipBlanks.rest = '-' :: d :: cs) (hvalid : l.next.1.kind ≠ .invalid)
    (hdetachable : l.ended = false → l.Detachable d cs) (hrest' : l'.skipBlanks.rest = '-' :: z)
    (hz : Lexeme.startsDigit z = false) (hbehind : z.dropWhile isGap = d :: cs) :
    Respelled l.ended l.words l'.words := by
  obtain ⟨hkind', htext', hleft', hended'⟩ := next_minus hrest' (.inr hz)
  have hskip' : l'.next.2.skipBlanks.rest = d :: cs := by rw [rest_skipBlanks, hleft', hbehind]
  cases hoperand : l.ended with
  | false => exact respelled_number hd hrest hoperand hvalid (hdetachable hoperand) hkind' hskip'
  | true =>
      obtain ⟨hkind, htext, hleft, hended⟩ := next_minus hrest (.inl hoperand)
      have hskip : l.next.2.skipBlanks.rest = d :: cs := by
        rw [rest_skipBlanks, hleft]
        exact List.dropWhile_cons_of_neg (by rw [isGap_of_isDigit hd]; decide)
      rw [words_of_ne_eof (next_ne_eof hrest), words_of_ne_eof (next_ne_eof hrest')]
      refine .cons (hkind'.trans hkind.symm) (htext'.trans htext.symm) ?_
      rw [hkind]
      have hwords := respelled_words (hskip.trans hskip'.symm) (hended.trans hended'.symm)
      rwa [hended] at hwords

end Lexer

/-! ## A hyphen in a text -/

namespace Parse

open Lexer

variable {x y z z' : List Char} {d : Char} {ts : List Token} {m : Lexer} {e : Expr}

/-- A blank that breaks no line. -/
def IsSpace (c : Char) : Prop :=
  isGap c = true ∧ c ≠ '\r'

instance : DecidablePred IsSpace :=
  fun c => inferInstanceAs (Decidable (isGap c = true ∧ c ≠ '\r'))

theorem valid_of_parseExpression {text : String} (h : parseExpression text = .ok e) :
    ∀ t ∈ (ofText text).words, t.kind ≠ .invalid :=
  valid_of_wholeExpression h

/-- An expression text with other characters behind a place. -/
theorem parseExpression_place (haccepted : parseExpression (.ofList (x ++ z)) = .ok e)
    (htakes : Takes (ofText (.ofList (x ++ z))) ts m) (hrest : m.skipBlanks.rest = normalize z)
    (hz : z.head? ≠ some '\n') (hz' : z'.head? ≠ some '\n') (hline : ¬EndsLine (normalize z))
    (hsevers : Severs (normalize z'))
    (hbehind : ∀ l' : Lexer, l'.ended = m.ended →
      l'.skipBlanks.rest = (normalize z').dropWhile isGap → Respelled m.ended m.words l'.words) :
    ∃ e', parseExpression (.ofList (x ++ z')) = .ok e' ∧ Same e e' := by
  have hvalid := valid_of_parseExpression haccepted
  rw [htakes.words] at hvalid
  obtain ⟨gap, hgap, -, htakes'⟩ := htakes.splice
    (fun t ht => hvalid t (List.mem_append_left _ ht)) hrest (fun _ => hz) (fun _ => hz') hsevers
    fun _ _ _ hends => absurd hends hline
  have hwords : Respelled m.ended m.words (m.withRest (gap ++ normalize z')).words := by
    refine hbehind _ rfl ?_
    rw [rest_skipBlanks]
    exact List.dropWhile_append_of_pos hgap
  have hall := htakes.respelled hwords
  rw [← htakes.words, ← htakes'.words] at hall
  exact wholeExpression_respelled haccepted hall

/-! ### What the minus takes -/

theorem Reads.alone {input : List Token} (h : Reads .operand input e []) :
    Reads .expression input e [] :=
  .expression (.operation h (.noOperation fun _ hop => by cases hop)) (.noChoice nofun)

/-- A minus takes the power behind it. -/
theorem Reads.negated_power {minus n pow : Token} {us in₁ : List Token} {saw : Bool} {a f : Expr}
    (hminus : minus.kind = .mark .minus) (ha : Reads .primary (n :: pow :: us) a (pow :: us))
    (hpow : pow.kind = .mark .pow) (hus : Legible us) (hlines : Lines us saw in₁)
    (hf : Reads (.operation 10) in₁ f []) :
    Reads .expression (minus :: n :: pow :: us) (.unary .neg (.binary .pow a f)) [] := by
  have hbracket : front (pow :: us) ≠ .mark .lbracket := by rw [front, hpow]; decide
  have hpower : Reads (.operation UnaryOp.operandPower) (n :: pow :: us) (.binary .pow a f) [] :=
    .operation (.operand ha (.noIndex hbracket))
      (.operations (by rw [hpow]; rfl) le_rfl hus hlines hf
        (.noOperation fun _ hop => by cases hop))
  exact (Reads.prefixed (by rw [hminus]; rfl) (ha.front_ne rfl rfl) hpower).alone

/-- An operand in front of a place is one for the lexer too. -/
theorem Reads.ended {l : Lexer} {a : Expr} (h : Reads .operand l.words a m.words)
    (htakes : Takes l ts m) : m.ended = true := by
  obtain ⟨used, hused, hends⟩ := h.endsOperand l.ended nofun
  rw [htakes.words] at hused
  cases List.append_cancel_right hused
  rw [htakes.ended, hends]

/-- Behind an operand a minus subtracts the literal behind it. -/
theorem Reads.difference {minus n : Token} {input : List Token} {a : Expr} {value : Value}
    {unit : Option UnitSuffix} (ha : Reads .operand input a [minus, n])
    (hminus : minus.kind = .mark .minus) (hn : isLiteral n.kind = true)
    (hvalue : Literal.decode n.kind n.text = .ok (value, unit)) :
    Reads .expression input (.binary .sub a (.literal n value unit)) [] := by
  have hliteral : Reads .primary [n] (.literal n value unit) [] := .literal hn nofun hvalue
  have hright : Reads (.operation BinaryOp.sub.rightPower) [n] (.literal n value unit) [] :=
    .operation (.operand hliteral (.noIndex nofun)) (.noOperation fun _ hop => by cases hop)
  have hlines : Lines [n] false [n] := .none (hliteral.front_ne rfl rfl) (hliteral.front_ne rfl rfl)
  exact .expression (.operation ha (.operations (by rw [hminus]; rfl) (by decide)
    (hliteral.front_ne rfl rfl) hlines hright (.noOperation fun _ hop => by cases hop)))
    (.noChoice nofun)

/-! ### Blanks around it -/

section

variable {before behind : List Char}

theorem normalize_spaces {g : List Char} (hg : ∀ c ∈ g, IsSpace c) (cs : List Char) :
    normalize (g ++ cs) = g ++ normalize cs :=
  normalize_append_of_ne_return (fun c hc => (hg c hc).2) cs

theorem startsDigit_spaces {g cs : List Char} (hg : ∀ c ∈ g, IsSpace c)
    (hcs : g = [] → Lexeme.startsDigit cs = false) : Lexeme.startsDigit (g ++ cs) = false := by
  cases g with
  | nil => exact hcs rfl
  | cons c g =>
      refine Bool.eq_false_iff.mpr fun hdigit => ?_
      have hc := (hg c List.mem_cons_self).1
      rw [isGap_of_isDigit hdigit] at hc
      cases hc

/-- Blanks before a hyphen or behind it part it from what is around it. -/
theorem severs_spaces (hbefore : ∀ c ∈ before, IsSpace c) (hbehind : ∀ c ∈ behind, IsSpace c)
    (hne : before ≠ [] ∨ behind ≠ []) (cs : List Char) :
    Severs (before ++ '-' :: (behind ++ cs)) := by
  cases before with
  | nil =>
      have hne : behind ≠ [] := hne.resolve_left fun h => h rfl
      exact .inr ⟨.inr rfl, startsDigit_spaces hbehind (absurd · hne)⟩
  | cons c g =>
      have hg : ∀ c ∈ g, IsSpace c := fun c' hc' => hbefore c' (List.mem_cons_of_mem _ hc')
      have hblank := (Bool.and_eq_true_iff.mp (hbefore c List.mem_cons_self).1).2
      exact .inr ⟨.inl hblank, startsDigit_spaces hg fun _ => rfl⟩

/-- **Blanks around a hyphen** in front of a digit change neither whether a text is an expression
nor what it means, if the hyphen may move away from the number. -/
theorem parseExpression_spaces (haccepted : parseExpression (.ofList (x ++ '-' :: d :: y)) = .ok e)
    (htakes : Takes (ofText (.ofList (x ++ '-' :: d :: y))) ts m) (hd : d.isDigit = true)
    (hrest : m.skipBlanks.rest = '-' :: d :: normalize y) (hbefore : ∀ c ∈ before, IsSpace c)
    (hbehind : ∀ c ∈ behind, IsSpace c)
    (hapart : m.ended = false → behind ≠ [] → m.Detachable d (normalize y)) :
    ∃ e', parseExpression (.ofList (x ++ (before ++ '-' :: (behind ++ d :: y)))) = .ok e' ∧
      Same e e' := by
  by_cases hne : before ≠ [] ∨ behind ≠ []
  case neg =>
    obtain ⟨rfl, rfl⟩ : before = [] ∧ behind = [] := by simpa using hne
    exact ⟨e, haccepted, Same.refl e⟩
  have hminus (cs : List Char) : normalize ('-' :: cs) = '-' :: normalize cs :=
    normalize_cons (by decide) cs
  have hdigit : normalize (d :: y) = d :: normalize y :=
    normalize_cons (fun h => by rw [h] at hd; cases hd) y
  have hz : normalize ('-' :: d :: y) = '-' :: d :: normalize y := by rw [hminus, hdigit]
  have hz' : normalize (before ++ '-' :: (behind ++ d :: y)) =
      before ++ '-' :: (behind ++ d :: normalize y) := by
    rw [normalize_spaces hbefore, hminus, normalize_spaces hbehind, hdigit]
  have hgap {g : List Char} (hg : ∀ c ∈ g, IsSpace c) : ∀ c ∈ g, isGap c = true :=
    fun c hc => (hg c hc).1
  have hhead : (before ++ '-' :: (behind ++ d :: y)).head? ≠ some '\n' := by
    cases before with
    | nil => nofun
    | cons c g =>
        intro h
        cases h
        exact absurd (hbefore _ List.mem_cons_self).1 (by decide)
  have hvalid : m.next.1.kind ≠ .invalid := by
    refine valid_of_parseExpression haccepted _ ?_
    rw [htakes.words, words_of_ne_eof (next_ne_eof hrest)]
    exact List.mem_append_right _ List.mem_cons_self
  refine parseExpression_place haccepted htakes (hrest.trans hz.symm) nofun hhead ?_ ?_ ?_
  · rw [hz]
    exact fun h => absurd (h '-' rfl) (by decide)
  · rw [hz']
    exact severs_spaces hbefore hbehind hne _
  intro l' hended' hrest'
  rw [hz', List.dropWhile_append_of_pos (hgap hbefore),
    List.dropWhile_cons_of_neg (by decide)] at hrest'
  -- a blank before the hyphen alone leaves the number as it is
  by_cases hbehind' : behind = []
  · subst hbehind'
    exact respelled_words (hrest.trans hrest'.symm) hended'.symm
  · refine respelled_hyphen hd hrest hvalid (hapart · hbehind') hrest'
      (startsDigit_spaces hbehind (absurd · hbehind')) ?_
    rw [List.dropWhile_append_of_pos (hgap hbehind)]
    exact List.dropWhile_cons_of_neg (by rw [isGap_of_isDigit hd]; decide)

/-- **A hyphen means the same with blanks around it.** In front of a digit, and as the first
character of a token, it may move away from the number unless a calendar literal starts at the
digit; a hyphen of a number with a power right behind it is left out.

Behind an operand it subtracts, and a minus in front of a literal or a variable negates the power
that these are the base of. -/
theorem hyphen_spaced (haccepted : parseExpression (.ofList (x ++ '-' :: d :: y)) = .ok e)
    (htakes : Takes (ofText (.ofList (x ++ '-' :: d :: y))) ts m) (hd : d.isDigit = true)
    (hrest : m.skipBlanks.rest = '-' :: d :: normalize y)
    (hapart : m.ended = false → m.Detachable d (normalize y)) :
    (∀ before behind : List Char, (∀ c ∈ before, IsSpace c) → (∀ c ∈ behind, IsSpace c) →
      ∃ e', parseExpression (.ofList (x ++ (before ++ '-' :: (behind ++ d :: y)))) = .ok e' ∧
        Same e e') ∧
    (∀ (a : Expr) (n : Token) (value : Value) (unit : Option UnitSuffix),
      Reads .operand (ofText (.ofList (x ++ '-' :: d :: y))).words a m.words →
      m.next.2.words = [n] → isLiteral n.kind = true →
      Literal.decode n.kind n.text = .ok (value, unit) →
      e = .binary .sub a (.literal n value unit)) ∧
    ∀ (text : String) (minus n pow : Token) (us in₁ : List Token) (saw : Bool) (a f : Expr),
      (ofText text).words = minus :: n :: pow :: us → minus.kind = .mark .minus →
      Reads .primary (n :: pow :: us) a (pow :: us) → pow.kind = .mark .pow → Legible us →
      Lines us saw in₁ → Reads (.operation 10) in₁ f [] →
      parseExpression text = .ok (.unary .neg (.binary .pow a f)) := by
  refine ⟨?spaced, ?behindOperand, ?power⟩
  case spaced =>
    intro before behind hbefore hbehind
    exact parseExpression_spaces haccepted htakes hd hrest hbefore hbehind fun h _ => hapart h
  case behindOperand =>
    intro a n value unit ha hwords hn hvalue
    have hminus := (next_minus hrest (.inl (ha.ended htakes))).1
    have hm : m.words = [m.next.1, n] := by
      rw [words_of_ne_eof (next_ne_eof hrest), hwords]
    have hall := (hm ▸ ha).difference hminus hn hvalue
    exact Except.ok.inj (haccepted.symm.trans (wholeExpression_of_reads hall))
  case power =>
    intro text minus n pow us in₁ saw a f hwords hminus ha hpow hus hlines hf
    have hall := ha.negated_power hminus hpow hus hlines hf
    rw [← hwords] at hall
    exact wholeExpression_of_reads hall

/-- `[1, -2]` means the same as `[1, - 2]`, and `5-2` the same as `5 - 2`. -/
theorem hyphen_spaced_of_number :
    let minus : Token := ⟨.mark .minus, "-", ⟨1, 2⟩⟩
    let five : Token := ⟨.integer, "5", ⟨1, 1⟩⟩
    let two : Token := ⟨.integer, "2", ⟨1, 3⟩⟩
    let three : Token := ⟨.integer, "3", ⟨1, 8⟩⟩
    let difference : Expr := .binary .sub (.literal five (.int 5) none) (.literal two (.int 2) none)
    let power : Expr := .binary .pow (.literal two (.int 2) none) (.literal three (.int 3) none)
    (∃ e e', parseExpression "[1, -2]" = .ok e ∧ parseExpression "[1, - 2]" = .ok e' ∧
      Same e e') ∧
    (∃ e', parseExpression "5-2" = .ok difference ∧ parseExpression "5 - 2" = .ok e' ∧
      Same difference e') ∧
    parseExpression "- 2 ** 3" = .ok (.unary .neg power) ∧
    (ofText "5-2").words = [five, minus, two] := by
  intro minus five two three difference power
  have hblank : ∀ c ∈ [' '], IsSpace c := List.forall_mem_singleton.mpr ⟨by decide, by decide⟩
  refine ⟨?array, ?operand⟩
  case array =>
    have htext : "[1, -2]" = .ofList (['[', '1', ',', ' '] ++ '-' :: '2' :: [']']) := rfl
    have htext' : .ofList (['[', '1', ',', ' '] ++ ([] ++ '-' :: ([' '] ++ '2' :: [']']))) =
      "[1, - 2]" := rfl
    have haccepted : (parseExpression "[1, -2]").toOption.any (fun _ => true) = true := by
      decide +kernel
    obtain ⟨e, he, -⟩ := Running.exists_of_any haccepted
    have htakes : Takes (ofText (.ofList (['[', '1', ',', ' '] ++ '-' :: '2' :: [']']))) _ _ :=
      .cons (by decide +kernel) (.cons (by decide +kernel) (.cons (by decide +kernel) (.nil _)))
    obtain ⟨e', he', hsame⟩ := (hyphen_spaced (htext ▸ he) htakes rfl (by decide +kernel) fun _ =>
      ⟨by decide +kernel, by decide +kernel, fun _ => by decide +kernel,
        fun hfloat => absurd hfloat (by decide +kernel)⟩).1 [] [' '] nofun hblank
    exact ⟨e, e', he, htext' ▸ he', hsame⟩
  case operand =>
    have htext : "5-2" = .ofList (['5'] ++ '-' :: '2' :: []) := rfl
    have htext' : .ofList (['5'] ++ ([' '] ++ '-' :: ([' '] ++ '2' :: []))) = "5 - 2" := rfl
    have haccepted : (parseExpression "5-2").toOption.any (fun _ => true) = true := by
      decide +kernel
    obtain ⟨e, he, -⟩ := Running.exists_of_any haccepted
    have htakes : Takes (ofText (.ofList (['5'] ++ '-' :: '2' :: []))) _ _ :=
      .cons (by decide +kernel) (.nil _)
    obtain ⟨hspaced, hsubtracts, hnegates⟩ := hyphen_spaced (htext ▸ he) htakes rfl
      (by decide +kernel) fun hended => absurd hended (by decide +kernel)
    have hall : (ofText "5-2").words = [five, minus, two] := by decide +kernel
    have hwords : (ofText "5-2").next.2.words = [minus, two] := by decide +kernel
    have hdecode₅ : Literal.decode .integer "5" = .ok (.int 5, none) := by rfl
    have hdecode₂ : Literal.decode .integer "2" = .ok (.int 2, none) := by rfl
    have hdecode₃ : Literal.decode .integer "3" = .ok (.int 3, none) := by rfl
    have hfive : Reads .operand [five, minus, two] (.literal five (.int 5) none) [minus, two] :=
      .operand (.literal rfl nofun hdecode₅) (.noIndex (by decide))
    rw [← hall, ← hwords] at hfive
    obtain rfl : e = difference := hsubtracts _ two _ _ hfive (by decide +kernel) rfl hdecode₂
    obtain ⟨e', he', hsame⟩ := hspaced [' '] [' '] hblank hblank
    have hthree : Reads (.operation 10) [three] (.literal three (.int 3) none) [] :=
      .operation (.operand (.literal rfl nofun hdecode₃) (.noIndex (by decide)))
        (.noOperation fun _ hop => by cases hop)
    have hpower := hnegates "- 2 ** 3" ⟨.mark .minus, "-", .start⟩ two ⟨.mark .pow, "**", ⟨1, 5⟩⟩
      [three] [three] false _ _ (by decide +kernel) rfl (.literal rfl nofun hdecode₂) rfl
      nofun (.none (by decide) (by decide)) hthree
    exact ⟨⟨e', he, htext' ▸ he', hsame⟩, hpower, hall⟩

/-- A blank behind the hyphen lets a calendar literal start there, and a power behind a number that
holds its hyphen is one of the negative number. -/
theorem hyphen_not_spaced :
    let host : Host Id := ⟨fun _ => .error .notFound, fun _ => false, fun _ => false, fun _ => 0⟩
    let shown (text : String) : Option (Option String) := (parseExpression text).toOption.map
      fun e => (Id.run (e.evaluate host (.ofBase .empty)).run).toOption.map Value.toText
    shown "-2024-10-10" = some (some "-2044") ∧ shown "- 2024-10-10" = some none ∧
      (parseExpression "-2 ** 2").toOption.any (· matches .binary .pow ..) = true ∧
      (parseExpression "- 2 ** 2").toOption.any (· matches .unary .neg _) = true := by
  decide +kernel

end

end Parse

end ConfigLang
