import Mathlib
import ConfigLang.Proofs.Token.Calendar

/-!
# Heredocs

A heredoc is written as its label behind `<<`, the lines of its body, and a line that is the label
again but for blanks (`Heredoc.opened`, `Heredoc.Closing`).  The lexer reads it as one token, whose
text is the lines joined by line feeds, however the lines are ended in the source
(`Lexer.next_heredoc`).  What is in the lines does not matter, as long as none of them is the label
but for blanks.

## Strategy

* **Labels.**  A label has no blanks, so a line without the blanks around it is the label just if
  the line closes the heredoc (`Closing.trim_eq`, from `trim_of_blanks`).
* **The body.**  The lines are taken one after the other (`heredocBody_lines`), by induction on
  them; the closing line ends the token (`heredocBody_closing`), and without it there is an invalid
  one that goes on to the end of the text.
* **Line breaks.**  The lexer reads the text with all line breaks turned into line feeds.  A
  carriage return takes the line feed behind it along, so a break must stand apart from what follows
  (`Apart`); `normalize_opened` says what becomes of a heredoc.
* **The token.**  `next_of_opened` is about what the lexer does at `<<`, and `next_of_closed` adds
  the place of the next token, which is at the end of the closing line (`after_span`).
-/

namespace ConfigLang.Lexeme

open ConfigLang.Text (isBlank strip trim)

/-! ## What is written -/

/-- The ways to end a line. -/
inductive LineBreak where
  | lf
  | crlf
  | cr
deriving DecidableEq

/-- How the end of a line is written. -/
def LineBreak.chars : LineBreak → List Char
  | lf => ['\n']
  | crlf => ['\r', '\n']
  | cr => ['\r']

/-- No character ends a line. -/
def OneLine (cs : List Char) : Prop :=
  ∀ c ∈ cs, c ≠ '\n' ∧ c ≠ '\r'

instance (cs : List Char) : Decidable (OneLine cs) :=
  List.decidableBAll (fun c => c ≠ '\n' ∧ c ≠ '\r') cs

/-- The label and the body of a heredoc: lines that are not the label, even without the blanks
around them. -/
structure Heredoc where
  label : List Char
  lines : List (List Char)
  lineBreak : LineBreak
  starts : startsLabel label = true
  isLabel : ∀ c ∈ label, isLabelChar c = true
  oneLine : ∀ line ∈ lines, OneLine line
  ne_label : ∀ line ∈ lines, trim line ≠ label

namespace Heredoc

/-- How a heredoc is opened: `<<`, the label, and the lines of the body. -/
def opened (h : Heredoc) : List Char :=
  '<' :: '<' :: (h.label ++ (h.lineBreak.chars ++ h.lines.flatMap (· ++ h.lineBreak.chars)))

/-- A line that closes a heredoc: the label between blanks. -/
def Closing (h : Heredoc) (line : List Char) : Prop :=
  ∃ before behind, line = before ++ (h.label ++ behind) ∧ OneLine line ∧
    (∀ c ∈ before, isBlank c = true) ∧ ∀ c ∈ behind, isBlank c = true

/-- The text that a heredoc stands for. -/
def text (h : Heredoc) : String :=
  String.ofList (List.intercalate ['\n'] h.lines)

/-- What a closed heredoc spans, once all line breaks are line feeds. -/
def span (h : Heredoc) (line : List Char) : List Char :=
  ('<' :: '<' :: h.label ++ ['\n']) ++ (h.lines.flatMap (· ++ ['\n']) ++ line)

end Heredoc

/-! ## Labels -/

variable {label line tail cs : List Char} {lines : List (List Char)} {width : Nat} {c : Char}

theorem not_isBlank_of_isLabelChar (h : isLabelChar c = true) : isBlank c = false := by
  have hsolid := solid_of_isNameChar (isNameChar_of_isLabelChar h)
  exact Bool.eq_false_iff.mpr fun hblank => not_solid_of_isBlank hblank hsolid

theorem dropWhile_append_cons {p : Char → Bool} (h : ∀ c ∈ cs, p c = true) (hc : p c = false)
    (rest : List Char) : (cs ++ c :: rest).dropWhile p = c :: rest := by
  rw [List.dropWhile_append_of_pos h, List.dropWhile_cons_of_neg (by simp [hc])]

/-- Blanks around a text without blanks at its ends are removed. -/
theorem trim_of_blanks {before behind : List Char} (hne : cs ≠ [])
    (hcs : ∀ c ∈ cs, isBlank c = false) (hbefore : ∀ c ∈ before, isBlank c = true)
    (hbehind : ∀ c ∈ behind, isBlank c = true) : trim (before ++ (cs ++ behind)) = cs := by
  have hfront {blanks rest inner : List Char} (hblanks : ∀ c ∈ blanks, isBlank c = true)
      (hne : inner ≠ []) (hinner : ∀ c ∈ inner, isBlank c = false) :
      (blanks ++ (inner ++ rest)).dropWhile isBlank = inner ++ rest := by
    obtain ⟨c, inner, rfl⟩ := List.exists_cons_of_ne_nil hne
    exact dropWhile_append_cons hblanks (hinner c List.mem_cons_self) _
  have hback : (behind.reverse ++ (cs.reverse ++ [])).dropWhile isBlank = cs.reverse ++ [] :=
    hfront (by simpa using hbehind) (by simpa using hne) (by simpa using hcs)
  rw [trim, strip, hfront hbefore hne hcs, List.reverse_append, ← List.append_nil cs.reverse,
    hback, List.append_nil, List.reverse_reverse]

namespace Heredoc

variable (h : Heredoc)

theorem label_ne_nil : h.label ≠ [] := by
  intro hnil
  have hstarts := h.starts
  rw [hnil] at hstarts
  cases hstarts

theorem oneLine_label : OneLine h.label := by
  intro c hc
  constructor
  · rintro rfl
    cases h.isLabel _ hc
  · rintro rfl
    cases h.isLabel _ hc

variable {h}

theorem Closing.trim_eq (hclosing : h.Closing line) : trim line = h.label := by
  obtain ⟨before, behind, rfl, -, hbefore, hbehind⟩ := hclosing
  exact trim_of_blanks h.label_ne_nil (fun c hc => not_isBlank_of_isLabelChar (h.isLabel c hc))
    hbefore hbehind

theorem Closing.oneLine (hclosing : h.Closing line) : OneLine line := by
  obtain ⟨-, -, -, hline, -⟩ := hclosing
  exact hline

theorem Closing.ne_nil (hclosing : h.Closing line) : line ≠ [] := by
  obtain ⟨before, behind, rfl, -⟩ := hclosing
  simp [h.label_ne_nil]

end Heredoc

/-! ## The body -/

/-- The lines of a body are taken one after the other. -/
theorem heredocBody_lines (hline : ∀ line ∈ lines, OneLine line)
    (hlabel : ∀ line ∈ lines, trim line ≠ label) (done : List (List Char)) (width : Nat)
    (rest : List Char) :
    heredocBody label done width (lines.flatMap (· ++ ['\n']) ++ rest) =
      heredocBody label (lines.reverse ++ done)
        (width + (lines.flatMap (· ++ ['\n'])).length) rest := by
  induction lines generalizing done width with
  | nil => rfl
  | cons line lines ih =>
      obtain ⟨hfirst, hlines⟩ := List.forall_mem_cons.mp hline
      obtain ⟨hne, hlabels⟩ := List.forall_mem_cons.mp hlabel
      have hbreak : ∀ c ∈ line, (c != '\n') = true := fun c hc => bne_iff_ne.mpr (hfirst c hc).1
      have hwidth : width + line.length + 1 + (lines.flatMap (· ++ ['\n'])).length =
          width + ((line :: lines).flatMap (· ++ ['\n'])).length := by
        rw [List.flatMap_cons, List.length_append, List.length_append, List.length_singleton]
        omega
      calc heredocBody label done width ((line :: lines).flatMap (· ++ ['\n']) ++ rest)
          = heredocBody label done width
              (line ++ '\n' :: (lines.flatMap (· ++ ['\n']) ++ rest)) := by simp
        _ = heredocBody label (line :: done) (width + line.length + 1)
              (lines.flatMap (· ++ ['\n']) ++ rest) := heredocBody_line hbreak hne _ _ _
        _ = heredocBody label (lines.reverse ++ line :: done)
              (width + line.length + 1 + (lines.flatMap (· ++ ['\n'])).length) rest :=
            ih hlines hlabels _ _
        _ = heredocBody label ((line :: lines).reverse ++ done)
              (width + ((line :: lines).flatMap (· ++ ['\n'])).length) rest := by
            rw [hwidth, List.reverse_cons, List.append_assoc, List.singleton_append]

/-- A label and a line break in front of a body. -/
theorem heredoc_label (hlabel : ∀ c ∈ label, isLabelChar c = true) (body : List Char) :
    heredoc (label ++ '\n' :: body) = heredocBody label [] (2 + label.length + 1) body := by
  have htake : (label ++ '\n' :: body).takeWhile isLabelChar = label := by
    rw [List.takeWhile_append_of_pos hlabel, List.takeWhile_cons_of_neg (by decide),
      List.append_nil]
  unfold heredoc
  simp only [htake, List.drop_left]
  rfl

/-- A heredoc that ends with its label has no body. -/
theorem heredoc_bodyless (hlabel : ∀ c ∈ label, isLabelChar c = true) :
    (heredoc label).kind = .invalid := by
  have htake : label.takeWhile isLabelChar = label := List.takeWhile_eq_self_iff.mpr hlabel
  unfold heredoc
  simp only [htake, List.drop_length]
  rfl

/-- The body of a heredoc up to where the closing line is due. -/
theorem heredoc_lines (h : Heredoc) (rest : List Char) :
    heredoc (h.label ++ '\n' :: (h.lines.flatMap (· ++ ['\n']) ++ rest)) =
      heredocBody h.label h.lines.reverse
        (2 + h.label.length + 1 + (h.lines.flatMap (· ++ ['\n'])).length) rest := by
  rw [heredoc_label h.isLabel, heredocBody_lines h.oneLine h.ne_label, List.append_nil]

/-! ## The closing line -/

theorem takeWhile_closing (hline : OneLine line) (htail : EndsLine tail) :
    (line ++ tail).takeWhile (· != '\n') = line := by
  have hnone : tail.takeWhile (· != '\n') = [] := by
    cases tail with
    | nil => rfl
    | cons c tail => rw [htail c rfl]; rfl
  rw [List.takeWhile_append_of_pos fun c hc => bne_iff_ne.mpr (hline c hc).1, hnone,
    List.append_nil]

/-- The closing line ends the token. -/
theorem heredocBody_closing {h : Heredoc} (hclosing : h.Closing line) (htail : EndsLine tail)
    (width : Nat) :
    heredocBody h.label h.lines.reverse width (line ++ tail) =
      if h.lines = [] then flawed (.emptyHeredoc (String.ofList h.label)) (width + line.length)
      else ⟨.heredoc, h.text, width + line.length⟩ := by
  have htake := takeWhile_closing hclosing.oneLine htail
  have hne : line ++ tail ≠ [] := List.append_ne_nil_of_left_ne_nil hclosing.ne_nil tail
  rw [heredocBody_close hne (by rw [htake, hclosing.trim_eq]), htake, List.reverse_reverse]
  simp only [List.isEmpty_reverse, List.isEmpty_iff, Heredoc.text]

end ConfigLang.Lexeme

namespace ConfigLang.Lexer

open Lexeme
open ConfigLang.Text (isBlank trim)

variable {l : Lexer} {h : Heredoc} {line tail rest : List Char} {lineBreak : LineBreak}
  {lines : List (List Char)}

/-! ## Line breaks -/

theorem normalize_oneLine (hline : OneLine line) (rest : List Char) :
    normalize (line ++ rest) = line ++ normalize rest :=
  normalize_append_of_ne_return (fun c hc => (hline c hc).2) rest

theorem normalize_of_oneLine (hline : OneLine line) : normalize line = line := by
  have happend := normalize_oneLine hline []
  rwa [List.append_nil, normalize, List.append_nil] at happend

/-- Nothing behind a line break is taken for a part of it. -/
def Apart (lineBreak : LineBreak) (rest : List Char) : Prop :=
  lineBreak = .cr → rest.head? ≠ some '\n'

theorem normalize_lineBreak (hrest : Apart lineBreak rest) :
    normalize (lineBreak.chars ++ rest) = '\n' :: normalize rest := by
  cases lineBreak with
  | lf => exact normalize_cons (by decide) rest
  | crlf => rw [LineBreak.chars, List.cons_append, List.singleton_append, normalize]
  | cr => exact normalize_return (hrest rfl)

theorem apart_oneLine (hline : OneLine line) (hrest : line = [] → Apart lineBreak rest) :
    Apart lineBreak (line ++ rest) := by
  cases line with
  | nil => exact hrest rfl
  | cons c cs =>
      intro _ hhead
      exact (hline c List.mem_cons_self).1 (Option.some.inj hhead)

theorem apart_of_oneLine (lineBreak : LineBreak) (hline : OneLine line) :
    Apart lineBreak line := by
  intro _ hhead
  exact (hline _ (List.mem_of_head? hhead)).1 rfl

theorem apart_lineBreak (lineBreak : LineBreak) (rest : List Char) :
    Apart lineBreak (lineBreak.chars ++ rest) := by
  rintro rfl hhead
  cases hhead

/-- What stands behind a line break of a body is none of it. -/
theorem apart_lines (hlines : ∀ line ∈ lines, OneLine line) (hrest : Apart lineBreak rest) :
    Apart lineBreak (lines.flatMap (· ++ lineBreak.chars) ++ rest) := by
  cases lines with
  | nil => exact hrest
  | cons line lines =>
      rw [List.flatMap_cons, List.append_assoc, List.append_assoc]
      exact apart_oneLine (hlines line List.mem_cons_self) fun _ => apart_lineBreak _ _

theorem normalize_lines (hlines : ∀ line ∈ lines, OneLine line) (hrest : Apart lineBreak rest) :
    normalize (lines.flatMap (· ++ lineBreak.chars) ++ rest) =
      lines.flatMap (· ++ ['\n']) ++ normalize rest := by
  induction lines with
  | nil => rfl
  | cons line lines ih =>
      obtain ⟨hline, hlines⟩ := List.forall_mem_cons.mp hlines
      rw [List.flatMap_cons, List.append_assoc, List.append_assoc, normalize_oneLine hline,
        normalize_lineBreak (apart_lines hlines hrest), ih hlines]
      simp

/-- All line breaks of a heredoc become line feeds. -/
theorem normalize_opened (h : Heredoc) (hrest : Apart h.lineBreak rest) :
    normalize (h.opened ++ rest) =
      '<' :: '<' :: (h.label ++ '\n' :: (h.lines.flatMap (· ++ ['\n']) ++ normalize rest)) := by
  rw [Heredoc.opened, List.cons_append, List.cons_append, normalize_cons (by decide),
    normalize_cons (by decide), List.append_assoc, List.append_assoc,
    normalize_oneLine h.oneLine_label, normalize_lineBreak (apart_lines h.oneLine hrest),
    normalize_lines h.oneLine hrest]

/-! ## The place behind the lines -/

theorem after_lines (hlines : ∀ line ∈ lines, OneLine line) (n : Nat) :
    (Position.mk n 1).after (lines.flatMap (· ++ ['\n'])) = ⟨n + lines.length, 1⟩ := by
  induction lines generalizing n with
  | nil => rfl
  | cons line lines ih =>
      obtain ⟨hline, hlines⟩ := List.forall_mem_cons.mp hlines
      rw [List.flatMap_cons, Position.after_append,
        Position.after_lineBreak fun c hc => (hline c hc).1, ih hlines, List.length_cons]
      simp only [Nat.add_assoc, Nat.add_comm 1]

theorem position_next_of_endsLine (hl : EndsLine l.rest) : l.next.1.position = l.position := by
  have hgap : l.rest.takeWhile isGap = [] := by
    cases hrest : l.rest with
    | nil => rfl
    | cons c cs =>
        have hc : c = '\n' := hl c (by rw [hrest]; rfl)
        rw [hc]
        rfl
  have hposition : l.skipBlanks.position = l.position := by
    rw [position_skipBlanks, hgap]
    rfl
  rw [← hposition]
  cases hrest : l.skipBlanks.rest with
  | nil => rw [next_of_nil hrest]; rfl
  | cons c cs => rw [next_of_cons hrest]; rfl

/-! ## The token -/

theorem next_of_label {label : List Char} (hlabel : startsLabel label = true)
    (hrest : l.skipBlanks.rest = '<' :: '<' :: (label ++ rest)) :
    l.next = l.skipBlanks.take (heredoc (label ++ rest)) := by
  have hopens : startsLabel (label ++ rest) = true := by
    cases label with
    | nil => cases hlabel
    | cons c label => exact hlabel
  rw [next_of_cons hrest, atFront_eq l.last (by decide) fun hslash => absurd hslash (by decide),
    atPlainFront, if_neg (by decide), if_pos ⟨rfl, rfl, hopens⟩]
  rfl

theorem next_of_opened (hrest : l.skipBlanks.rest = normalize (h.opened ++ rest))
    (hapart : Apart h.lineBreak rest) :
    l.next = l.skipBlanks.take (heredocBody h.label h.lines.reverse
      (2 + h.label.length + 1 + (h.lines.flatMap (· ++ ['\n'])).length) (normalize rest)) := by
  rw [normalize_opened h hapart] at hrest
  rw [next_of_label h.starts hrest, heredoc_lines]

/-- A text goes on with a line break, or not at all. -/
def StartsLine (tail : List Char) : Prop :=
  ∀ c ∈ tail.head?, c = '\n' ∨ c = '\r'

theorem StartsLine.endsLine (htail : StartsLine tail) : EndsLine (normalize tail) := by
  unfold normalize
  split
  · rintro c ⟨⟩
    rfl
  · rintro c ⟨⟩
    rfl
  · rename_i c cs _ hreturn
    rintro d ⟨⟩
    exact (htail c rfl).resolve_right hreturn
  · nofun

theorem after_span (h : Heredoc) (hline : OneLine line) (p : Position) :
    p.after (h.span line) = ⟨p.line + 1 + h.lines.length, 1 + line.length⟩ := by
  have hopening : ∀ c ∈ '<' :: '<' :: h.label, c ≠ '\n' :=
    List.forall_mem_cons.mpr ⟨by decide, List.forall_mem_cons.mpr
      ⟨by decide, fun c hc => (h.oneLine_label c hc).1⟩⟩
  rw [Heredoc.span, Position.after_append, Position.after_lineBreak hopening, Position.after_append,
    after_lines h.oneLine, Position.after_of_ne_newline fun c hc => (hline c hc).1]

/-- A closed heredoc is taken as a whole. -/
theorem next_of_closed (hclosing : h.Closing line) (htail : StartsLine tail)
    (hrest : l.skipBlanks.rest = normalize (h.opened ++ (line ++ tail))) :
    l.skipBlanks.rest = h.span line ++ normalize tail ∧
      l.next = l.skipBlanks.take
        (if h.lines = [] then
          flawed (.emptyHeredoc (String.ofList h.label)) (h.span line).length
        else ⟨.heredoc, h.text, (h.span line).length⟩) := by
  have hapart : Apart h.lineBreak (line ++ tail) :=
    apart_oneLine hclosing.oneLine fun hnil => absurd hnil hclosing.ne_nil
  have hlength : 2 + h.label.length + 1 + (h.lines.flatMap (· ++ ['\n'])).length + line.length =
      (h.span line).length := by
    rw [Heredoc.span, List.length_append, List.length_append, List.length_append, List.length_cons,
      List.length_cons, List.length_singleton]
    omega
  rw [next_of_opened hrest hapart, normalize_oneLine hclosing.oneLine,
    heredocBody_closing hclosing htail.endsLine, hlength, hrest, normalize_opened h hapart,
    normalize_oneLine hclosing.oneLine]
  exact ⟨by simp [Heredoc.span], rfl⟩

/-- **Heredocs carry every body.** -/
theorem next_heredoc (l : Lexer) (h : Heredoc) :
    (∀ line tail, h.Closing line → StartsLine tail →
      l.skipBlanks.rest = normalize (h.opened ++ (line ++ tail)) →
      (h.lines ≠ [] →
        l.next.1 = ⟨.heredoc, h.text, l.skipBlanks.position⟩ ∧
        l.next.2.rest = normalize tail ∧
        (l.next.2.next.1.kind = .eol ∨ l.next.2.next.1.kind = .eof) ∧
        l.next.2.next.1.position =
          ⟨l.skipBlanks.position.line + 1 + h.lines.length, 1 + line.length⟩) ∧
      (h.lines = [] → l.next.1.kind = .invalid)) ∧
    (∀ last, OneLine last → trim last ≠ h.label →
      l.skipBlanks.rest = normalize (h.opened ++ last) → l.next.1.kind = .invalid) ∧
    (l.skipBlanks.rest = normalize ('<' :: '<' :: h.label) → l.next.1.kind = .invalid) := by
  refine ⟨fun line tail hclosing htail hrest => ?_, fun last hlast hlabel hrest => ?_,
    fun hrest => ?_⟩
  · obtain ⟨hspan, hnext⟩ := next_of_closed hclosing htail hrest
    constructor
    · intro hlines
      rw [if_neg hlines] at hnext
      have hleft : l.next.2.rest = normalize tail := by
        rw [hnext, take, skip, hspan]
        exact List.drop_left
      have hends : EndsLine l.next.2.rest := hleft ▸ htail.endsLine
      have hposition : l.next.2.position = l.skipBlanks.position.after (h.span line) := by
        rw [hnext, take, skip, hspan]
        exact congrArg _ List.take_left
      rw [position_next_of_endsLine hends, hposition, after_span h hclosing.oneLine]
      exact ⟨by rw [hnext]; rfl, hleft, kind_next_of_endsLine hends, rfl⟩
    · intro hlines
      rw [hnext, if_pos hlines]
      rfl
  · rw [next_of_opened hrest (apart_of_oneLine _ hlast), normalize_of_oneLine hlast]
    exact heredocBody_unterminated (fun c hc => bne_iff_ne.mpr (hlast c hc).1) hlabel
  · have hlabel : normalize ('<' :: '<' :: h.label) = '<' :: '<' :: (h.label ++ []) := by
      rw [normalize_cons (by decide), normalize_cons (by decide),
        normalize_of_oneLine h.oneLine_label, List.append_nil]
    rw [next_of_label h.starts (hrest.trans hlabel), List.append_nil]
    exact heredoc_bodyless h.isLabel

/-- A body with a quote, with what opens comments, and with the label in one of its lines. -/
theorem next_heredoc_of_label_within :
    let l := ofText "<<EOT\r\nit's # /*\r\nEOT x\r\n EOT \r\nk"
    let unclosed := ofText "<<EOT\r\nit's # /*\r\nEOT x\r\n EOT y"
    l.next.1 = ⟨.heredoc, "it's # /*\nEOT x", ⟨1, 1⟩⟩ ∧ l.next.2.next.1.position = ⟨4, 6⟩ ∧
      unclosed.next.1.kind = .invalid := by
  intro l unclosed
  let h : Heredoc :=
    ⟨"EOT".toList, ["it's # /*".toList, "EOT x".toList], .crlf, by decide,
      List.all_eq_true.mp (by decide), by decide, by decide⟩
  have hblank : ∀ c ∈ [' '], isBlank c = true := List.forall_mem_singleton.mpr (by decide)
  have hclosing : h.Closing " EOT ".toList := ⟨[' '], [' '], rfl, by decide, hblank, hblank⟩
  have htail : StartsLine "\r\nk".toList := by
    rintro c ⟨⟩
    exact .inr rfl
  obtain ⟨hclosed, -⟩ := next_heredoc l h
  obtain ⟨hbody, -⟩ := hclosed _ _ hclosing htail (by decide +kernel)
  obtain ⟨htoken, -, -, hposition⟩ := hbody (List.cons_ne_nil _ _)
  obtain ⟨-, hunclosed, -⟩ := next_heredoc unclosed h
  exact ⟨htoken, hposition, hunclosed " EOT y".toList (by decide) (by decide) (by decide +kernel)⟩

end ConfigLang.Lexer
