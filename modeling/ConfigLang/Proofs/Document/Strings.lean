import Mathlib
import ConfigLang.Document.Query
import ConfigLang.Proofs.Expand.Termination
import ConfigLang.Proofs.Parse.Comments
import ConfigLang.Proofs.Token.Strings

/-!
# Texts in documents

`Carries source s` says that a string literal carries a text: it is one token with this
text, whatever is behind it, and the document with the option `x` for the literal gives the
text at `x`.  Every text is carried by a literal in double quotes, and all but those with
single quotes or returns by one in single quotes (`texts_carried`).

The second follows from the first: a document of three tokens parses (`parseDocument_assigning`),
has nothing to expand and no references to resolve (`Document.text_assigning`).
-/

namespace ConfigLang

open Lexeme Lexer Running
open Parse (Legible Builds Reads)

variable {source closing body : List Char} {quote : Char} {s : String}

/-! ## The tokens -/

/-- A string literal is a token with the text, whatever is behind it. -/
def IsToken (source : List Char) (s : String) : Prop :=
  ∀ (l : Lexer) (tail : List Char), l.skipBlanks.rest = normalize (source ++ tail) →
    l.next.1 = ⟨.string, s, l.skipBlanks.position⟩ ∧ l.next.2.rest = normalize tail

/-- The text of a document with the option `x`. -/
def assigning (source closing : List Char) : String :=
  .ofList ('x' :: ' ' :: '=' :: ' ' :: (source ++ closing))

theorem atFront_x (last : Option Kind) (cs : List Char) :
    atFront last 'x' (' ' :: cs) = ⟨.identifier, "x", 1⟩ := rfl

theorem atFront_assign (last : Option Kind) (cs : List Char) :
    atFront last '=' (' ' :: cs) = ⟨.mark .assign, "=", 1⟩ := rfl

/-- The end of a document is that of its text or of a line. -/
def Closes (closing : List Char) : Prop :=
  closing = [] ∨ closing = ['\n']

theorem words_of_closes {l : Lexer} (hclosing : Closes closing)
    (hrest : l.rest = normalize closing) :
    l.words = [] ∨ ∃ t : Token, t.kind = .eol ∧ l.words = [t] := by
  rcases hclosing with rfl | rfl
  · exact .inl (words_of_nil (by rw [rest_skipBlanks, hrest]; rfl))
  · have hskip : l.skipBlanks.rest = ['\n'] := by rw [rest_skipBlanks, hrest]; rfl
    have hnext := next_of_cons hskip
    have hleft : l.next.2.words = [] := words_of_nil (by
      rw [rest_skipBlanks, rest_next hskip]
      rfl)
    refine .inr ⟨l.next.1, by rw [hnext]; rfl, ?_⟩
    rw [words_of_ne_eof (next_ne_eof hskip), hleft]

/-- The tokens of a document with the option `x`. -/
theorem words_assigning (hquote : IsQuote quote) (hsource : IsToken (quoted quote body) s)
    (hclosing : Closes closing) :
    ∃ name assign literal : Token, ∃ ends : List Token,
      (ofText (assigning (quoted quote body) closing)).words = name :: assign :: literal :: ends ∧
        name.kind = .identifier ∧ name.text = "x" ∧ assign.kind = .mark .assign ∧
        literal.kind = .string ∧ literal.text = s ∧
        (ends = [] ∨ ∃ t : Token, t.kind = .eol ∧ ends = [t]) := by
  set source := quoted quote body
  set l := ofText (assigning source closing) with hl
  have hrest : l.rest = 'x' :: ' ' :: '=' :: ' ' :: normalize (source ++ closing) := by
    rw [hl, ofText, assigning, String.toList_ofList, normalize_cons (by decide),
      normalize_cons (by decide), normalize_cons (by decide), normalize_cons (by decide)]
  have hname : l.skipBlanks.rest = 'x' :: ' ' :: '=' :: ' ' :: normalize (source ++ closing) := by
    rw [rest_skipBlanks, hrest]
    rfl
  have hassign : l.next.2.skipBlanks.rest = '=' :: ' ' :: normalize (source ++ closing) := by
    rw [rest_skipBlanks, rest_next hname, atFront_x]
    rfl
  have hliteral : l.next.2.next.2.skipBlanks.rest = normalize (source ++ closing) := by
    rw [rest_skipBlanks, rest_next hassign, atFront_assign]
    change (normalize (source ++ closing)).dropWhile isGap = _
    rw [quoted_append]
    rcases hquote with rfl | rfl <;> rfl
  obtain ⟨htoken, hleft⟩ := hsource _ closing hliteral
  have hwords := words_of_closes hclosing hleft
  refine ⟨l.next.1, l.next.2.next.1, l.next.2.next.2.next.1, _, ?_, ?_, ?_, ?_, ?_, ?_, hwords⟩
  · rw [words_of_ne_eof (next_ne_eof hname), words_of_ne_eof (next_ne_eof hassign),
      words_of_ne_eof (by rw [htoken]; rintro ⟨⟩)]
  · rw [next_of_cons hname, atFront_x]; rfl
  · rw [next_of_cons hname, atFront_x]; rfl
  · rw [next_of_cons hassign, atFront_assign]; rfl
  · rw [htoken]
  · rw [htoken]

/-! ## The tree -/

/-- A string token at the end of a line is an expression. -/
theorem reads_string {literal : Token} {ends : List Token} (hliteral : literal.kind = .string)
    (hends : Parse.front ends = .eof ∨ Parse.front ends = .eol) :
    Reads .expression (literal :: ends) (.literal literal (.text literal.text) none) ends := by
  have hlegible : Legible ends := by
    rcases hends with h | h <;> exact fun heq => nomatch h.symm.trans heq
  have hne {mark : Mark} : Parse.front ends ≠ .mark mark := by
    rcases hends with h | h <;> exact fun heq => nomatch h.symm.trans heq
  have hoperator (op : BinaryOp) : BinaryOp.ofKind? (Parse.front ends) ≠ some op := by
    rcases hends with h | h <;> rw [h] <;> nofun
  have hprimary : Reads .primary (literal :: ends) (.literal literal (.text literal.text) none)
      ends :=
    .literal (by rw [hliteral]; rfl) hlegible (by rw [hliteral]; rfl)
  exact .expression (.operation (.operand hprimary (.noIndex hne))
    (.noOperation fun op hop => absurd hop (hoperator op))) (.noChoice hne)

/-- A document with the option `x` for a string literal. -/
theorem parseDocument_assigning (hquote : IsQuote quote) (hsource : IsToken (quoted quote body) s)
    (hclosing : Closes closing) :
    ∃ (root : Object) (b : Binding) (t : Token),
      parseDocument (assigning (quoted quote body) closing) = .ok root ∧
        b.value = .literal t (.text s) none ∧ root.fields = [("x", .option b)] ∧
        root.weight = 0 := by
  obtain ⟨name, assign, literal, ends, hwords, hname, hx, hassign, hliteral, hs, hends⟩ :=
    words_assigning hquote hsource hclosing
  have hfront : Parse.front ends = .eof ∨ Parse.front ends = .eol := by
    rcases hends with rfl | ⟨t, ht, rfl⟩
    · exact .inl rfl
    · exact .inr ht
  have hend : Parse.EndsItem ends [] := by
    rcases hends with rfl | ⟨t, ht, rfl⟩
    · exact .finish
    · exact .line ht (by rintro ⟨⟩)
  have hcomment : Parse.front ends ≠ .comment := by
    rcases hfront with h | h <;> rw [h] <;> rintro ⟨⟩
  let binding : Binding := ⟨name.text, .literal literal (.text literal.text) none, ⟨[], none⟩,
    name.position⟩
  have hfield : Builds (.field name []) (assign :: literal :: ends) (.option binding) [] :=
    .option hassign (by rw [Legible, Parse.front, hliteral]; rintro ⟨⟩)
      (reads_string hliteral hfront) (.none hcomment) hend
  let root : Object := (Object.empty "" name.position).insert (.option binding)
  have hbuilds : Builds (.body false (Object.empty "" name.position) [])
      (name :: assign :: literal :: ends) root [] :=
    .fieldItem hname hfield .finish
  have htokens : TokenList.ofText (assigning (quoted quote body) closing) =
      ⟨name :: assign :: literal :: ends,
        (TokenList.ofText (assigning (quoted quote body) closing)).stop⟩ := by
    rw [← hwords]
    rfl
  refine ⟨root, binding, literal, Parse.parseDocument_of_tokens htokens ?_ hbuilds,
    by rw [← hs], by rw [← hx]; rfl, rfl⟩
  rw [Legible, Parse.front, hname]
  rintro ⟨⟩

/-! ## The document -/

namespace Document

variable {m : Type → Type} [Monad m] [LawfulMonad m]

/-- The text of a document's option for a string literal. -/
theorem text_assigning {d : Document} (host : Host m) {b : Binding} {t : Token}
    (hfields : d.root.fields = [("x", .option b)]) (hvalue : b.value = .literal t (.text s) none) :
    d.text host ["x"] = pure s := by
  have hlocate : d.locate ["x"] = .ok ⟨[d.root], .option b⟩ := by
    rw [locate, locateFrom, Object.get?, hfields]
    rfl
  have hlocals : (Node.option b).locals = [] := by
    rw [Node.locals, Node.collectLocals, hvalue]
    rfl
  have hnode (env : Environment) :
      Resolution.evaluateNode host env (.option b) = pure (.text s) := by
    rw [Resolution.evaluateNode, hvalue]
    apply ExceptT.ext
    exact pure_bind (.ok (.text s), env) fun out : Except EvalError Value × Environment =>
      (pure out.1 : m _)
  have hevaluate (levels : List Level) :
      (Resolution.evaluate host d.base (.option b)).run.run levels =
        pure (.ok (.text s), levels) := by
    rw [Resolution.evaluate, run_bind, run_get, pure_bind]
    dsimp only
    rw [Resolution.evaluateAt, hlocals, Resolution.resolveAll, pure_bind, run_bind,
      run_get, pure_bind]
    dsimp only
    rw [hnode]
    exact pure_bind (Except.ok (Value.text s)) fun r : Except EvalError Value =>
      (pure (r, levels) : m _)
  have hread : d.value host ["x"] = pure (.text s) := by
    rw [value, hlocate]
    dsimp only
    rw [if_pos (by rfl), hevaluate, pure_bind]
    rfl
  rw [text, hread, pure_bind]

/-- The document with the option `x` for a string literal has the text there. -/
theorem exists_ofText_assigning (hquote : IsQuote quote) (hsource : IsToken (quoted quote body) s)
    (hclosing : Closes closing) (setting : Setting m) (host : Host m) :
    ∃ d : Document, ofText setting (assigning (quoted quote body) closing) = pure d ∧
      d.text host ["x"] = pure s := by
  obtain ⟨root, b, t, hparse, hvalue, hfields, hweight⟩ :=
    parseDocument_assigning hquote hsource hclosing
  refine ⟨⟨root, setting.vars, []⟩, ?_, text_assigning host hfields hvalue⟩
  have htree : (ExceptT.mk (pure ((parseDocument (assigning (quoted quote body) closing)).mapError
      .parse)) : ExceptT BuildError m Object) = pure root := by
    rw [hparse]
    rfl
  rw [ofText, htree, pure_bind]
  dsimp only
  rw [Scene.expand_of_weight _ _ hweight, adapt_pure, pure_bind]

end Document

/-! ## Texts -/

/-- A string literal carries a text. -/
structure Carries (source : List Char) (s : String) : Prop where
  token : IsToken source s
  text : ∀ (m : Type → Type) [Monad m] [LawfulMonad m] (setting : Setting m) (host : Host m)
    (closing : List Char), Closes closing →
      ∃ d : Document, Document.ofText setting (assigning source closing) = pure d ∧
        d.text host ["x"] = pure s

theorem carries_quoted (hquote : IsQuote quote) (hsource : IsToken (quoted quote body) s) :
    Carries (quoted quote body) s :=
  ⟨hsource, fun _ _ _ setting host _ hclosing =>
    Document.exists_ofText_assigning hquote hsource hclosing setting host⟩

theorem carries_doubleQuoted (s : String) : Carries (doubleQuoted s.toList) s := by
  refine carries_quoted (.inl rfl) fun l tail hrest => ?_
  have hnext := next_doubleQuoted hrest
  rwa [String.ofList_toList] at hnext

theorem carries_singleQuoted (hs : ∀ c ∈ s.toList, c ≠ '\x27' ∧ c ≠ '\r') :
    Carries (singleQuoted s.toList) s := by
  refine carries_quoted (.inr rfl) fun l tail hrest => ?_
  have hnext := next_singleQuoted hs hrest
  rwa [String.ofList_toList] at hnext

/-- **Quoted strings carry every text.**  In double quotes any text can be written, and in single
quotes any text without single quotes and returns.  The backslashes of a string in double quotes
start escapes. -/
theorem texts_carried :
    (∀ s : String, Carries (doubleQuoted s.toList) s) ∧
    (∀ s : String, (∀ c ∈ s.toList, c ≠ '\x27' ∧ c ≠ '\r') → Carries (singleQuoted s.toList) s) ∧
    (∀ (l : Lexer) (cs : List Char), l.skipBlanks.rest = '\x22' :: cs → l.next.1.kind = .string →
      ∃ written content tail, cs = written ++ '\x22' :: tail ∧ Escaped written content ∧
        l.next.1.text = .ofList content ∧ l.next.2.rest = tail) :=
  ⟨carries_doubleQuoted, fun _ => carries_singleQuoted, fun _ _ => exists_escaped_of_next⟩

/-- A quote and a line break in double quotes, a backslash in single quotes, and a string with an
escape. -/
theorem texts_carried_of_escapes :
    Carries ['\x22', 'a', '\\', '\x22', '\\', 'n', '\x22'] (.ofList ['a', '\x22', '\n']) ∧
    Carries ['\x27', 'a', '\\', '\x27'] (.ofList ['a', '\\']) ∧
    ∃ written content tail, ['a', '\\', 't', '\x22', ' ', 'b'] = written ++ '\x22' :: tail ∧
      Escaped written content ∧
        (ofText (.ofList ['\x22', 'a', '\\', 't', '\x22', ' ', 'b'])).next.1.text =
          .ofList content ∧
        (ofText (.ofList ['\x22', 'a', '\\', 't', '\x22', ' ', 'b'])).next.2.rest = tail := by
  obtain ⟨hdouble, hsingle, hstring⟩ := texts_carried
  refine ⟨?_, ?_, hstring (ofText _) _ (by decide +kernel) (by decide +kernel)⟩
  · have h := hdouble (.ofList ['a', '\x22', '\n'])
    rwa [String.toList_ofList] at h
  · have h := hsingle (.ofList ['a', '\\'])
    rw [String.toList_ofList] at h
    refine h fun c hc => ?_
    simp only [List.mem_cons, List.not_mem_nil, or_false] at hc
    rcases hc with rfl | rfl <;> decide

end ConfigLang
