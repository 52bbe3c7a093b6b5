import Mathlib
import ConfigLang.Proofs.Token.Splice

/-!
# Quoted strings

`Escaped body content` says how the body of a string in double quotes is put together: of
characters that stand for themselves, and of a backslash with the letter of an escape.
The lexer reads just these bodies (`stringBody_of_escaped`, `exists_escaped_of_string`), and
every text has one (`escaped_escape`).  In single quotes a body stands for itself.

A body in double quotes that is written by `escape` has no line breaks, and one in single
quotes no returns, so making all line breaks line feeds leaves both as they are.
-/

namespace ConfigLang.Lexeme

/-- The letters of the escapes and what they stand for. -/
def escapes : List (Char × Char) :=
  [('n', '\n'), ('r', '\r'), ('t', '\t'), ('\x22', '\x22'), ('\\', '\\')]

/-- A body in double quotes, and the content that it stands for. -/
inductive Escaped : List Char → List Char → Prop where
  | nil : Escaped [] []
  | plain {c : Char} {body content : List Char} (hquote : c ≠ '\x22') (hbackslash : c ≠ '\\')
      (h : Escaped body content) : Escaped (c :: body) (c :: content)
  | escape {letter c : Char} {body content : List Char} (hletter : (letter, c) ∈ escapes)
      (h : Escaped body content) : Escaped ('\\' :: letter :: body) (c :: content)

theorem escaped?_eq_some_iff {letter c : Char} :
    escaped? letter = some c ↔ (letter, c) ∈ escapes := by
  simp only [escapes, List.mem_cons, Prod.mk.injEq, List.not_mem_nil, or_false]
  constructor
  · intro h
    unfold escaped? at h
    split at h <;> cases h <;> decide
  · rintro (⟨rfl, rfl⟩ | ⟨rfl, rfl⟩ | ⟨rfl, rfl⟩ | ⟨rfl, rfl⟩ | ⟨rfl, rfl⟩) <;> rfl

variable {quote c : Char} {cs body content tail : List Char} {width : Nat}

/-! ## Reading -/

theorem stringBody_quote (quote : Char) (body : List Char) (width : Nat) (cs : List Char) :
    stringBody quote body width (quote :: cs) =
      ⟨.string, String.ofList body.reverse, width + 1⟩ := by
  rw [stringBody.eq_def]
  exact if_pos rfl

theorem stringBody_plain (hquote : c ≠ quote) (hbackslash : ¬(c = '\\' ∧ quote = '\x22'))
    (body : List Char) (width : Nat) (cs : List Char) :
    stringBody quote body width (c :: cs) = stringBody quote (c :: body) (width + 1) cs := by
  rw [stringBody.eq_def]
  dsimp only
  rw [if_neg hquote, if_neg hbackslash]

theorem stringBody_escape {letter : Char} (h : escaped? letter = some c) (body : List Char)
    (width : Nat) (cs : List Char) :
    stringBody '\x22' body width ('\\' :: letter :: cs) =
      stringBody '\x22' (c :: body) (width + 2) cs := by
  rw [stringBody.eq_def]
  dsimp only
  rw [if_neg (by decide), if_pos ⟨rfl, rfl⟩, h]

/-- A body in double quotes is read up to the quote, whatever is behind that. -/
theorem stringBody_of_escaped (h : Escaped body content) (done : List Char) (width : Nat)
    (tail : List Char) :
    stringBody '\x22' done width (body ++ '\x22' :: tail) =
      ⟨.string, String.ofList (done.reverse ++ content), width + body.length + 1⟩ := by
  induction h generalizing done width with
  | nil => rw [List.nil_append, stringBody_quote, List.append_nil]; rfl
  | @plain c body content hquote hbackslash _ ih =>
      rw [List.cons_append, stringBody_plain hquote fun h => hbackslash h.1, ih, List.reverse_cons,
        List.append_assoc, List.singleton_append, List.length_cons, Nat.add_assoc width,
        Nat.add_comm 1]
  | @escape letter c body content hletter _ ih =>
      rw [List.cons_append, List.cons_append, stringBody_escape (escaped?_eq_some_iff.mpr hletter),
        ih, List.reverse_cons, List.append_assoc, List.singleton_append, List.length_cons,
        List.length_cons, Nat.add_assoc width, Nat.add_comm 2]

/-- A body in single quotes stands for itself. -/
theorem stringBody_raw (h : ∀ c ∈ content, c ≠ '\x27') (done : List Char) (width : Nat)
    (tail : List Char) :
    stringBody '\x27' done width (content ++ '\x27' :: tail) =
      ⟨.string, String.ofList (done.reverse ++ content), width + content.length + 1⟩ := by
  induction content generalizing done width with
  | nil => rw [List.nil_append, stringBody_quote, List.append_nil]; rfl
  | cons c content ih =>
      rw [List.cons_append, stringBody_plain (h c List.mem_cons_self) (fun h => nomatch h.2),
        ih fun c' hc' => h c' (List.mem_cons_of_mem c hc'), List.reverse_cons, List.append_assoc,
        List.singleton_append, List.length_cons, Nat.add_assoc width, Nat.add_comm 1]

/-- A string in double quotes has a body that is put together so. -/
theorem exists_escaped_of_string (h : (stringBody '\x22' body width cs).kind = .string) :
    ∃ written content tail, cs = written ++ '\x22' :: tail ∧ Escaped written content := by
  fun_induction stringBody '\x22' body width cs with
  | case1 => cases h
  | case2 body width cs => exact ⟨[], [], cs, rfl, .nil⟩
  | case3 => cases h
  | case4 body width c hquote hbackslash letter cs d hletter ih =>
      obtain ⟨written, content, tail, rfl, hescaped⟩ := ih h
      obtain ⟨rfl, -⟩ := hbackslash
      exact ⟨'\\' :: letter :: written, d :: content, tail, rfl,
        .escape (escaped?_eq_some_iff.mp hletter) hescaped⟩
  | case5 => cases h
  | case6 body width c cs hquote hbackslash ih =>
      obtain ⟨written, content, tail, rfl, hescaped⟩ := ih h
      exact ⟨c :: written, c :: content, tail, rfl,
        .plain hquote (fun hc => hbackslash ⟨hc, rfl⟩) hescaped⟩

/-! ## Writing -/

/-- How a character is written in double quotes. -/
def escapeChar (c : Char) : List Char :=
  if c = '\\' then ['\\', '\\']
  else if c = '\x22' then ['\\', '\x22']
  else if c = '\n' then ['\\', 'n']
  else if c = '\r' then ['\\', 'r']
  else if c = '\t' then ['\\', 't']
  else [c]

/-- A text as the body of a string in double quotes. -/
def escape (content : List Char) : List Char :=
  content.flatMap escapeChar

theorem escaped_escapeChar (c : Char) (h : Escaped body content) :
    Escaped (escapeChar c ++ body) (c :: content) := by
  unfold escapeChar
  split_ifs with hbackslash hquote hline hreturn htab
  · exact .escape (by rw [hbackslash]; decide) h
  · exact .escape (by rw [hquote]; decide) h
  · exact .escape (by rw [hline]; decide) h
  · exact .escape (by rw [hreturn]; decide) h
  · exact .escape (by rw [htab]; decide) h
  · exact .plain hquote hbackslash h

theorem escaped_escape (content : List Char) : Escaped (escape content) content := by
  induction content with
  | nil => exact .nil
  | cons c content ih => exact escaped_escapeChar c ih

/-- A body between quotes. -/
def quoted (quote : Char) (body : List Char) : List Char :=
  quote :: (body ++ [quote])

/-- A text in double quotes. -/
def doubleQuoted (content : List Char) : List Char :=
  quoted '\x22' (escape content)

/-- A text in single quotes. -/
def singleQuoted (content : List Char) : List Char :=
  quoted '\x27' content

theorem quoted_append (quote : Char) (body tail : List Char) :
    quoted quote body ++ tail = quote :: (body ++ quote :: tail) := by
  rw [quoted, List.cons_append, List.append_assoc, List.singleton_append]

theorem ne_return_of_mem_escape (h : c ∈ escape content) : c ≠ '\r' := by
  rintro rfl
  obtain ⟨d, -, hd⟩ := List.mem_flatMap.mp h
  unfold escapeChar at hd
  split_ifs at hd with hbackslash hquote hline hreturn htab
  · exact absurd hd (by decide)
  · exact absurd hd (by decide)
  · exact absurd hd (by decide)
  · exact absurd hd (by decide)
  · exact absurd hd (by decide)
  · exact hreturn (List.mem_singleton.mp hd).symm

end ConfigLang.Lexeme

namespace ConfigLang.Lexer

open Lexeme

variable {l : Lexer} {quote : Char} {cs body content tail : List Char}

/-- A quote is what opens a string. -/
def IsQuote (quote : Char) : Prop :=
  quote = '\x22' ∨ quote = '\x27'

theorem next_of_quote (hquote : IsQuote quote) (hrest : l.skipBlanks.rest = quote :: cs) :
    l.next = l.skipBlanks.take (stringBody quote [] 1 cs) := by
  rw [next_of_cons hrest]
  rcases hquote with rfl | rfl <;> rfl

/-- A body that is read up to the quote is one token with its quotes. -/
theorem next_of_body (hquote : IsQuote quote)
    (hbody : stringBody quote [] 1 (body ++ quote :: tail) =
      ⟨.string, .ofList content, 1 + body.length + 1⟩)
    (hrest : l.skipBlanks.rest = quoted quote body ++ tail) :
    l.next.1 = ⟨.string, .ofList content, l.skipBlanks.position⟩ ∧ l.next.2.rest = tail := by
  have hnext := next_of_quote hquote (hrest.trans (quoted_append quote body tail))
  rw [hbody] at hnext
  have hwidth : 1 + body.length + 1 = (quoted quote body).length := by
    simp only [quoted, List.length_cons, List.length_append, List.length_nil]
    omega
  refine ⟨by rw [hnext]; rfl, ?_⟩
  rw [hnext, take, skip, hrest, hwidth]
  exact List.drop_left

theorem normalize_quoted (hquote : IsQuote quote) (hbody : ∀ c ∈ body, c ≠ '\r')
    (tail : List Char) :
    normalize (quoted quote body ++ tail) = quoted quote body ++ normalize tail := by
  have hne : quote ≠ '\r' := by
    rcases hquote with rfl | rfl <;> decide
  refine normalize_append_of_ne_return (fun c hc => ?_) tail
  rw [quoted, List.mem_cons, List.mem_append, List.mem_singleton] at hc
  rcases hc with rfl | hc | rfl
  · exact hne
  · exact hbody c hc
  · exact hne

/-- A text in double quotes is one token, whatever is behind it. -/
theorem next_doubleQuoted (hrest : l.skipBlanks.rest = normalize (doubleQuoted content ++ tail)) :
    l.next.1 = ⟨.string, .ofList content, l.skipBlanks.position⟩ ∧
      l.next.2.rest = normalize tail := by
  rw [doubleQuoted, normalize_quoted (.inl rfl) fun c => ne_return_of_mem_escape] at hrest
  exact next_of_body (.inl rfl) (stringBody_of_escaped (escaped_escape content) [] 1 _) hrest

/-- A text without single quotes and returns is one token in single quotes. -/
theorem next_singleQuoted (hcontent : ∀ c ∈ content, c ≠ '\x27' ∧ c ≠ '\r')
    (hrest : l.skipBlanks.rest = normalize (singleQuoted content ++ tail)) :
    l.next.1 = ⟨.string, .ofList content, l.skipBlanks.position⟩ ∧
      l.next.2.rest = normalize tail := by
  rw [singleQuoted, normalize_quoted (.inr rfl) fun c hc => (hcontent c hc).2] at hrest
  exact next_of_body (.inr rfl) (stringBody_raw (fun c hc => (hcontent c hc).1) [] 1 _) hrest

/-- The backslashes of a string in double quotes start escapes. -/
theorem exists_escaped_of_next (hrest : l.skipBlanks.rest = '\x22' :: cs)
    (h : l.next.1.kind = .string) :
    ∃ written content tail, cs = written ++ '\x22' :: tail ∧ Escaped written content ∧
      l.next.1.text = .ofList content ∧ l.next.2.rest = tail := by
  have hkind := h
  rw [next_of_quote (.inl rfl) hrest] at hkind
  obtain ⟨written, content, tail, rfl, hescaped⟩ := exists_escaped_of_string hkind
  obtain ⟨htoken, hleft⟩ := next_of_body (.inl rfl) (stringBody_of_escaped hescaped [] 1 tail)
    (hrest.trans (quoted_append _ written tail).symm)
  exact ⟨written, content, tail, rfl, hescaped, by rw [htoken]; rfl, hleft⟩

end ConfigLang.Lexer
