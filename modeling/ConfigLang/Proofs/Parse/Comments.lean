import Mathlib
import ConfigLang.Proofs.Parse.Annotated
import ConfigLang.Proofs.Token.Splice

/-!
# Comments at the ends of lines are insignificant

A comment that is written in front of a line break of a document changes nothing in its
tree but the comments (`Parse.parseDocument_remark`), if that line break is a token of
its own and stands behind no other comment, no heredoc and no directive.

## Strategy

The lexer takes the same tokens up to the line break, then the comment and the line
break (`Lexer.next_comment`, `Lexer.next_eol`).  Behind the line break it is the same
lexer again: the comment moves nothing on the next line, and it is not the last token
that counts for a sign.  So the tokens are those without the comment but for a remark
(`Parse.Remark.Annotated`), and the rest is about tokens.
-/

namespace ConfigLang

namespace Lexer

variable {l m : Lexer} {ts : List Token} {gap cs y : List Char}

theorem ne_newline_of_isGap (hgap : ∀ c ∈ gap, isGap c = true) : ∀ c ∈ gap, c ≠ '\n' := by
  rintro c hc rfl
  cases hgap _ hc

theorem rest_skipBlanks_of_gap (hgap : ∀ c ∈ gap, isGap c = true) {c : Char}
    (h : l.rest = gap ++ c :: cs) (hc : isGap c = false) : l.skipBlanks.rest = c :: cs := by
  rw [rest_skipBlanks, h, List.dropWhile_append_of_pos hgap,
    List.dropWhile_cons_of_neg (by rw [hc]; decide)]

/-- The end of a line is a token, and behind it a new line starts. -/
theorem next_eol (h : l.rest = gap ++ '\n' :: y) (hgap : ∀ c ∈ gap, isGap c = true) :
    l.next.1.kind = .eol ∧ l.next.2 = ⟨y, ⟨l.position.line + 1, 1⟩, some .eol⟩ := by
  have hskip := rest_skipBlanks_of_gap hgap h rfl
  have hnext := next_of_cons hskip
  have hkind : l.next.1.kind = .eol := by rw [hnext]; rfl
  have hleft : l.next.2.rest = y := rest_next hskip
  obtain ⟨p, hp, -, hposition⟩ := next_piece (l := l) (by rw [hkind]; decide)
  have hchars : p.chars = gap ++ ['\n'] := by
    rw [hleft, h, List.append_cons] at hp
    exact (List.append_cancel_right hp).symm
  rw [hchars, Position.after_lineBreak (ne_newline_of_isGap hgap)] at hposition
  refine ⟨hkind, ?_⟩
  have hlast : l.next.2.last = some .eol := by rw [hnext]; rfl
  rw [← hleft, ← hposition, ← hlast]

/-- A comment goes up to the end of its line. -/
theorem next_comment (h : l.rest = gap ++ '#' :: (cs ++ '\n' :: y))
    (hgap : ∀ c ∈ gap, isGap c = true) (hcs : ∀ c ∈ cs, c ≠ '\n') :
    l.next.1.kind = .comment ∧ l.next.2.rest = '\n' :: y ∧
      l.next.2.position.line = l.position.line := by
  have hskip := rest_skipBlanks_of_gap hgap h rfl
  have hnext := next_of_cons hskip
  have hkind : l.next.1.kind = .comment := by rw [hnext]; rfl
  have hwidth : (Lexeme.atFront l.last '#' (cs ++ '\n' :: y)).width = cs.length + 1 := by
    have hbody : (cs ++ '\n' :: y).takeWhile (· != '\n') = cs := by
      rw [List.takeWhile_append_of_pos fun c hc => bne_iff_ne.mpr (hcs c hc)]
      exact List.append_nil cs
    exact congrArg (List.length · + 1) hbody
  have hleft : l.next.2.rest = '\n' :: y := by
    rw [rest_next hskip, hwidth]
    exact List.drop_left
  obtain ⟨p, hp, -, hposition⟩ := next_piece (l := l) (by rw [hkind]; decide)
  have hchars : p.chars = gap ++ '#' :: cs := by
    rw [hleft, h, ← List.cons_append, ← List.append_assoc] at hp
    exact (List.append_cancel_right hp).symm
  refine ⟨hkind, hleft, ?_⟩
  rw [hposition, hchars]
  refine Position.line_after (fun c hc => ?_) _
  rcases List.mem_append.mp hc with hc | hc
  · exact ne_newline_of_isGap hgap c hc
  · rcases List.mem_cons.mp hc with rfl | hc
    · decide
    · exact hcs c hc

theorem Takes.run_snd (h : Takes l ts m) : l.run.2 = m.run.2 := by
  induction h with
  | nil => rfl
  | cons hkind _ ih => rw [run_of_ne_eof hkind, ih]

/-- A place behind some tokens where a line ends. The comment there leaves the lexer as it is. -/
theorem remark_words (hgap : ∀ c ∈ gap, isGap c = true) (hcs : ∀ c ∈ cs, c ≠ '\n')
    (h : m.rest = gap ++ '\n' :: y) :
    ∃ r : Parse.Remark, m.words = r.eol :: r.behind ∧
      (m.withRest (gap ++ ' ' :: '#' :: (cs ++ '\n' :: y))).words =
        r.comment :: r.eol' :: r.behind ∧
      (m.withRest (gap ++ ' ' :: '#' :: (cs ++ '\n' :: y))).run.2 = m.run.2 := by
  generalize hm' : m.withRest (gap ++ ' ' :: '#' :: (cs ++ '\n' :: y)) = m'
  have hrest' : m'.rest = gap ++ [' '] ++ '#' :: (cs ++ '\n' :: y) := by
    rw [← hm', List.append_assoc]
    rfl
  have hgap' : ∀ c ∈ gap ++ [' '], isGap c = true :=
    List.forall_mem_append.mpr ⟨hgap, List.forall_mem_singleton.mpr (by decide)⟩
  have hline : m'.position.line = m.position.line := by rw [← hm']; rfl
  obtain ⟨heol, hnext⟩ := next_eol h hgap
  obtain ⟨hcomment, hleft, hline'⟩ := next_comment hrest' hgap' hcs
  have hleft' : m'.next.2.rest = [] ++ '\n' :: y := hleft
  obtain ⟨heol', hnext'⟩ := next_eol hleft' nofun
  -- behind the line break the two lexers are the same
  rw [hline', hline, ← hnext] at hnext'
  have htakes : Takes m [m.next.1] m.next.2 := .cons (by rw [heol]; decide) (.nil _)
  have htakes' : Takes m' [m'.next.1, m'.next.2.next.1] m.next.2 := by
    rw [← hnext']
    exact .cons (by rw [hcomment]; decide) (.cons (by rw [heol']; decide) (.nil _))
  exact ⟨⟨m.next.1, m'.next.1, m'.next.2.next.1, m.next.2.words, heol, hcomment, heol'⟩,
    htakes.words, htakes'.words, htakes'.run_snd.trans htakes.run_snd.symm⟩

end Lexer

namespace Parse

open Lexer Running

/-- A line break between two parts of a text, the whole of it. -/
inductive IsBreak (x z : List Char) : List Char → Prop
  | feed (h : x.getLast? ≠ some '\r') : IsBreak x z ['\n']
  | both : IsBreak x z ['\r', '\n']
  | carriage (h : z.head? ≠ some '\n') : IsBreak x z ['\r']

/-- A directive among some tokens ends where the others are left. -/
def EndsDirective (all : TokenList) (rest : List Token) : Prop :=
  ∃ t us offset, ∃ p : Parsed Directive us, t :: us <:+ all.tokens ∧ t.kind = .directive ∧
    directive all.stop t offset us = .ok p ∧ p.rest = rest

variable {x b z c : List Char} {ts : List Token} {m : Lexer} {root : Object}

theorem IsBreak.normalize (h : IsBreak x z b) : normalize (b ++ z) = '\n' :: normalize z := by
  cases h with
  | feed => exact normalize_cons (by decide) z
  | both => rw [List.cons_append, List.singleton_append, Lexer.normalize]
  | carriage h => exact normalize_return h

theorem IsBreak.apart (h : IsBreak x z b) :
    x.getLast? = some '\r' → (b ++ z).head? ≠ some '\n' := by
  cases h with
  | feed h => exact fun hx => absurd hx h
  | both => nofun
  | carriage => nofun

theorem tokens_ofText (text : String) : (TokenList.ofText text).tokens = (ofText text).words :=
  rfl

theorem stop_ofText (text : String) :
    (TokenList.ofText text).stop = (ofText text).run.2.position :=
  rfl

/-- The tokens of a text with a comment at the end of one of its lines. -/
theorem tokens_remark (hvalid : ∀ t ∈ ts, t.kind ≠ .invalid) (hbreak : IsBreak x z b)
    (htakes : Takes (ofText (.ofList (x ++ (b ++ z)))) ts m)
    (hrest : m.skipBlanks.rest = normalize (b ++ z))
    (hlast : ∀ t ∈ ts.getLast?, t.kind ≠ .comment ∧ t.kind ≠ .heredoc)
    (hc : ∀ a ∈ c, a ≠ '\n' ∧ a ≠ '\r') :
    ∃ r : Remark, m.words = r.eol :: r.behind ∧
      TokenList.ofText (.ofList (x ++ ' ' :: '#' :: ' ' :: (c ++ (b ++ z)))) =
        ⟨ts ++ r.comment :: r.eol' :: r.behind,
          (TokenList.ofText (.ofList (x ++ (b ++ z)))).stop⟩ := by
  have hline : normalize (' ' :: '#' :: ' ' :: (c ++ (b ++ z))) =
      ' ' :: '#' :: (' ' :: c ++ '\n' :: normalize z) := by
    have hreturn : ∀ a ∈ ' ' :: '#' :: ' ' :: c, a ≠ '\r' := by
      simp only [List.forall_mem_cons]
      exact ⟨by decide, by decide, by decide, fun a ha => (hc a ha).2⟩
    have happend := normalize_append_of_ne_return hreturn (b ++ z)
    rw [hbreak.normalize] at happend
    exact happend
  have hsevers : Lexeme.Severs (normalize (' ' :: '#' :: ' ' :: (c ++ (b ++ z)))) := by
    rw [hline]
    exact .inr ⟨.inl rfl, rfl⟩
  have hhead : (' ' :: '#' :: ' ' :: (c ++ (b ++ z))).head? ≠ some '\n' := by simp
  -- the blank in front of the comment severs the tokens before it
  obtain ⟨gap, hgap, hm, htakes'⟩ :=
    htakes.splice hvalid hrest hbreak.apart (fun _ => hhead) hsevers fun t ht hkind =>
      (hkind.elim (hlast t ht).1 (hlast t ht).2).elim
  rw [hbreak.normalize] at hm
  rw [hline] at htakes'
  have hcs : ∀ a ∈ ' ' :: c, a ≠ '\n' :=
    List.forall_mem_cons.mpr ⟨by decide, fun a ha => (hc a ha).1⟩
  obtain ⟨r, hwords, hwords', hstop⟩ := remark_words hgap hcs hm
  refine ⟨r, hwords, ?_⟩
  have htokens : (TokenList.ofText (.ofList (x ++ ' ' :: '#' :: ' ' :: (c ++ (b ++ z))))).tokens =
      ts ++ r.comment :: r.eol' :: r.behind := by
    rw [tokens_ofText, htakes'.words, hwords']
  rw [← htokens, stop_ofText, htakes.run_snd, ← hstop, ← htakes'.run_snd, ← stop_ofText]

theorem parseDocument_of_tokens {text : String} {tokens : List Token} {stop : Position}
    (h : TokenList.ofText text = ⟨tokens, stop⟩) (hlegible : Legible tokens)
    (hbuilds : Builds (.body false (Object.empty "" (place stop tokens)) []) tokens root []) :
    parseDocument text = .ok root := by
  refine parseDocument_iff.mpr ?_
  rw [h]
  exact ⟨hlegible, hbuilds⟩

/-- A remark behind some tokens has room there if no comment and no directive ends right before
it. -/
theorem Remark.fits_of_words {all : TokenList} {r : Remark}
    (hall : all.tokens = ts ++ r.eol :: r.behind)
    (hlast : ∀ t ∈ ts.getLast?, t.kind ≠ .comment ∧ t.kind ≠ .heredoc)
    (hdirective : ¬EndsDirective all (r.eol :: r.behind)) : r.Fits all.tokens := by
  refine ⟨?_, ?_⟩
  · intro t ⟨before, hbefore⟩
    rw [hall, List.append_cons] at hbefore
    obtain rfl : before ++ [t] = ts := List.append_cancel_right hbefore
    exact (hlast t List.getLast?_concat).1
  · intro t us offset d hsuffix hkind hd
    obtain ⟨hs, hparse⟩ := hd.parse all.stop
    exact hdirective ⟨t, us, offset, ⟨d, _, hs⟩, hsuffix, hkind, hparse, rfl⟩

/-- **A comment at the end of a line is insignificant.** A document that is accepted is accepted
with a comment in front of a line break, where that is a token of its own, and the trees are the
same but for their comments.  The line break ends neither another comment nor a heredoc nor a
directive.

If it is the first token of the document then the root stands one or more characters further on,
where the comment is. -/
theorem parseDocument_remark (hparse : parseDocument (.ofList (x ++ (b ++ z))) = .ok root)
    (hbreak : IsBreak x z b) (htakes : Takes (ofText (.ofList (x ++ (b ++ z)))) ts m)
    (hrest : m.skipBlanks.rest = normalize (b ++ z))
    (hlast : ∀ t ∈ ts.getLast?, t.kind ≠ .comment ∧ t.kind ≠ .heredoc)
    (hdirective : ¬EndsDirective (TokenList.ofText (.ofList (x ++ (b ++ z)))) m.words)
    (hc : ∀ a ∈ c, a ≠ '\n' ∧ a ≠ '\r') :
    ∃ root', parseDocument (.ofList (x ++ ' ' :: '#' :: ' ' :: (c ++ (b ++ z)))) = .ok root' ∧
      root'.bare = { root.bare with position := root'.position } ∧
      (ts ≠ [] → root'.bare = root.bare) := by
  have hwords : (TokenList.ofText (.ofList (x ++ (b ++ z)))).tokens = ts ++ m.words :=
    htakes.words
  have hvalid : ∀ t ∈ ts, t.kind ≠ .invalid := fun t ht =>
    valid_of_parseDocument hparse t (hwords ▸ List.mem_append_left _ ht)
  obtain ⟨r, hm, htokens'⟩ := tokens_remark hvalid hbreak htakes hrest hlast hc
  rw [hm] at hwords hdirective
  have hfits := Remark.fits_of_words hwords hlast hdirective
  have hin := Remark.Annotated.behind r ts
  rw [← hwords] at hin
  obtain ⟨hlegible, hbuilds⟩ := parseDocument_iff.mp hparse
  have hlegible' := hin.legible hlegible
  cases ts with
  | nil =>
      -- the comment is the first token now, and the root stands where that does
      obtain ⟨root', -, hroot, hbuilds'⟩ := hbuilds.annotated_document hfits hin r.comment.position
      have hparse' := parseDocument_of_tokens htokens' hlegible' hbuilds'
      refine ⟨_, hparse', ?_, fun hne => absurd rfl hne⟩
      rw [Object.bare_position, hroot]
  | cons t us =>
      obtain ⟨root', hbuilds', hroot, -⟩ := hbuilds.annotated_document hfits hin .start
      rw [hwords] at hbuilds'
      have hparse' := parseDocument_of_tokens htokens' hlegible' hbuilds'
      refine ⟨root', hparse', ?_, fun _ => hroot⟩
      rw [← hroot, Object.bare_eq]

/-- An array goes on behind a comment. -/
theorem parseDocument_remark_of_array :
    ∃ root root', parseDocument "a = [1,\n2]\n" = .ok root ∧
      parseDocument "a = [1, # c\n2]\n" = .ok root' ∧ root'.bare = root.bare := by
  let x := ['a', ' ', '=', ' ', '[', '1', ',']
  let z := ['2', ']', '\n']
  have htext : "a = [1,\n2]\n" = .ofList (x ++ (['\n'] ++ z)) := rfl
  have htext' : .ofList (x ++ ' ' :: '#' :: ' ' :: (['c'] ++ (['\n'] ++ z))) =
    "a = [1, # c\n2]\n" := rfl
  have haccepted : (parseDocument "a = [1,\n2]\n").toOption.any (fun _ => true) = true := by
    decide +kernel
  obtain ⟨root, hroot, -⟩ := exists_of_any haccepted
  have htakes : Takes (ofText (.ofList (x ++ (['\n'] ++ z)))) _ _ :=
    .cons (by decide +kernel) (.cons (by decide +kernel) (.cons (by decide +kernel)
      (.cons (by decide +kernel) (.cons (by decide +kernel) (.nil _)))))
  have hnone : ∀ t ∈ (TokenList.ofText (.ofList (x ++ (['\n'] ++ z)))).tokens,
      t.kind ≠ .directive := by
    decide +kernel
  obtain ⟨root', hroot', -, hbare⟩ := parseDocument_remark (c := ['c']) (htext ▸ hroot)
    (.feed (by decide)) htakes (by decide +kernel) (by decide +kernel)
    (fun ⟨t, _, _, _, hsuffix, hkind, _⟩ => hnone t (hsuffix.subset List.mem_cons_self) hkind)
    (List.forall_mem_singleton.mpr ⟨by decide, by decide⟩)
  exact ⟨root, root', hroot, htext' ▸ hroot', hbare (List.cons_ne_nil _ _)⟩

/-- Behind a directive no comment is accepted; and a root stands where the first token of its
document does, even if that is a comment. -/
theorem comment_significant :
    (parseDocument ".define(f, \x7b k = 1 \x7d)\n.apply(f)\n").toOption.isSome = true ∧
      (parseDocument ".define(f, \x7b k = 1 \x7d)\n.apply(f) # c\n").toOption.isSome = false ∧
      (parseDocument "\nx = 1\n").toOption.map Object.position = some ⟨1, 1⟩ ∧
      (parseDocument " # c\nx = 1\n").toOption.map Object.position = some ⟨1, 2⟩ := by
  decide +kernel

end Parse

end ConfigLang
