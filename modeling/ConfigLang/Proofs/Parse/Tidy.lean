import Mathlib
import ConfigLang.Parse.Document
import ConfigLang.Proofs.Token.Names
import ConfigLang.Proofs.Tree.Tidy

/-!
# Parsed trees are tidy

Fields come into an object by `Object.insert` alone, and labels are the text of
identifiers, so what `parseDocument` reads is tidy.  The induction is on the tokens
that are left, along the calls of the parsers of bodies.
-/

namespace ConfigLang

namespace Parse

open Running

variable {stop : Position} {input : List Token}

/-- The identifiers among some tokens are names. -/
def Proper (input : List Token) : Prop :=
  ∀ t ∈ input, t.Proper

theorem Proper.rest {α : Type} (h : Proper input) (p : Parsed α input) : Proper p.rest :=
  fun t hmem => h t (p.isSuffix.subset hmem)

theorem Proper.tail {t : Token} (h : Proper (t :: input)) : Proper input :=
  fun u hmem => h u (List.mem_cons_of_mem t hmem)

theorem tidy_addDirective {o : Object} {d : Directive} (h : o.Tidy)
    (hd : d.Tidy) (pending : List String) :
    (addDirective o d pending).Tidy := by
  refine .mk' h.label h.fields fun other hmem => ?_
  rcases List.mem_append.mp hmem with hmem | hmem
  · exact h.directives other hmem
  · rw [List.mem_singleton.mp hmem]
    exact hd

theorem tidy_payloadBehindName {name : Token} {p : Parsed Payload input}
    (h : payloadBehindName stop name input = .ok p) : p.value.Tidy := by
  unfold payloadBehindName at h
  split at h
  · obtain ⟨called, -, h⟩ := bind_eq_ok h
    obtain ⟨e, -, h⟩ := bind_eq_ok h
    cases h
    exact nofun
  · cases h
    exact nofun

mutual

theorem tidy_body {inBraces : Bool} {object : Object} {pending : List String}
    (hobject : object.Tidy) : ∀ {input : List Token} {p : Parsed Object input}, Proper input →
      body stop inBraces object pending input = .ok p → p.value.Tidy
  | [], p, hinput, h => by
    rw [body] at h
    split at h
    · cases h
    · cases h
      exact .mk' hobject.label hobject.fields hobject.directives
  | t :: us, p, hinput, h => by
    rw [body] at h
    split at h
    · cases h
      exact .mk' hobject.label hobject.fields hobject.directives
    · split at h
      · -- the end of a line
        obtain ⟨_, -, h⟩ := bind_eq_ok h
        obtain ⟨o, ho, h⟩ := bind_eq_ok h
        cases h
        have htidy := tidy_body hobject hinput.tail ho
        exact htidy
      · -- a comment
        obtain ⟨_, -, h⟩ := bind_eq_ok h
        obtain ⟨o, ho, h⟩ := bind_eq_ok h
        cases h
        have htidy := tidy_body hobject hinput.tail ho
        exact htidy
      · -- a directive
        obtain ⟨d, hd, h⟩ := bind_eq_ok h
        have := d.length_le
        obtain ⟨line, -, h⟩ := bind_eq_ok h
        have := line.length_le
        obtain ⟨o, ho, h⟩ := bind_eq_ok h
        cases h
        have hargs := tidy_directive hinput.tail hd
        have htidy := tidy_body (tidy_addDirective hobject hargs pending)
          ((hinput.tail.rest d).rest line) ho
        exact htidy
      · -- a field
        obtain ⟨node, hnode, h⟩ := bind_eq_ok h
        have := node.length_le
        obtain ⟨o, ho, h⟩ := bind_eq_ok h
        cases h
        have hinsert := hobject.insert (tidy_field hinput.tail hnode)
        have htidy := tidy_body hinsert (hinput.tail.rest node) ho
        exact htidy
      · cases h
termination_by input => input.length * 4 + 1

theorem tidy_field {name : Token} {leading : List String} : ∀ {input : List Token}
    {p : Parsed Node input}, Proper input → field stop name leading input = .ok p → p.value.Tidy
  | [], p, hinput, h => by
    rw [field] at h
    cases h
  | t :: us, p, hinput, h => by
    rw [field] at h
    obtain ⟨_, -, h⟩ := bind_eq_ok h
    split at h
    · obtain ⟨_, -, h⟩ := bind_eq_ok h
      obtain ⟨e, -, h⟩ := bind_eq_ok h
      obtain ⟨trailing, -, h⟩ := bind_eq_ok h
      obtain ⟨line, -, h⟩ := bind_eq_ok h
      cases h
      exact .option _
    · split at h
      · exact tidy_block (fun _ hlabel => by cases hlabel) hinput h
      · split at h
        · rename_i hkind
          obtain ⟨_, -, h⟩ := bind_eq_ok h
          obtain ⟨node, hnode, h⟩ := bind_eq_ok h
          cases h
          -- the lexer lets a word of this kind start only like a name
          have hlabel : ∀ l, some t.text = some l → Lexeme.startsName l.toList = true := by
            rintro l ⟨⟩
            exact hinput t List.mem_cons_self hkind
          have htidy := tidy_block hlabel hinput.tail hnode
          exact htidy
        · cases h
termination_by input => input.length * 4 + 2

theorem tidy_block {name : String} {label : Option String} {position : Position}
    {leading : List String}
    (hlabel : ∀ l, label = some l → Lexeme.startsName l.toList = true) :
    ∀ {input : List Token} {p : Parsed Node input}, Proper input →
      block stop name label position leading input = .ok p → p.value.Tidy
  | [], p, hinput, h => by
    rw [block] at h
    cases h
  | t :: us, p, hinput, h => by
    rw [block] at h
    split at h
    · obtain ⟨_, -, h⟩ := bind_eq_ok h
      obtain ⟨o, ho, h⟩ := bind_eq_ok h
      obtain ⟨brace, -, h⟩ := bind_eq_ok h
      obtain ⟨trailing, -, h⟩ := bind_eq_ok h
      obtain ⟨line, -, h⟩ := bind_eq_ok h
      cases h
      have hempty : ({ Object.empty name position with label } : Object).Tidy :=
        .intro hlabel List.nodup_nil nofun nofun nofun
      have htidy := tidy_body hempty hinput.tail ho
      exact .object (.mk' htidy.label htidy.fields htidy.directives)
    · cases h
termination_by input => input.length * 4 + 1

theorem tidy_directive {name : Token} {offset : Nat} {input : List Token}
    {p : Parsed Directive input} (hinput : Proper input)
    (h : directive stop name offset input = .ok p) : p.value.Tidy := by
  rw [directive] at h
  obtain ⟨_, -, h⟩ := bind_eq_ok h
  split at h
  · cases h
  · obtain ⟨paren, -, h⟩ := bind_eq_ok h
    obtain ⟨lines, -, h⟩ := bind_eq_ok h
    have := paren.length_le
    have := lines.length_le
    obtain ⟨args, hargs, h⟩ := bind_eq_ok h
    cases h
    have htidy := tidy_directiveArgs (List.forall_mem_nil _) ((hinput.rest paren).rest lines) hargs
    exact htidy
termination_by input.length * 4 + 3

theorem tidy_directiveArgs {done : List (Argument Payload)} {input : List Token}
    {p : Parsed (List (Argument Payload)) input}
    (hdone : ∀ arg ∈ done, arg.value.Tidy) (hinput : Proper input)
    (h : directiveArgs stop done input = .ok p) : ∀ arg ∈ p.value, arg.value.Tidy := by
  rw [directiveArgs] at h
  split at h
  · obtain ⟨paren, -, h⟩ := bind_eq_ok h
    cases h
    exact fun arg hmem => hdone arg (List.mem_reverse.mp hmem)
  · obtain ⟨arg, harg, h⟩ := bind_eq_ok h
    have := arg.length_le
    obtain ⟨lines, -, h⟩ := bind_eq_ok h
    have := lines.length_le
    have hdone' : ∀ other ∈ arg.value :: done, other.value.Tidy :=
      List.forall_mem_cons.mpr ⟨tidy_directiveArg hinput harg, hdone⟩
    split at h
    · rename_i c us left
      have hus : Proper us := fun t hmem =>
        hinput t ((left.trans arg.isSuffix).subset (List.mem_cons_of_mem c hmem))
      have : us.length < arg.rest.length := left.length_le
      split at h
      · obtain ⟨_, -, h⟩ := bind_eq_ok h
        obtain ⟨lines', -, h⟩ := bind_eq_ok h
        have := lines'.length_le
        obtain ⟨all, hall, h⟩ := bind_eq_ok h
        cases h
        have htidy := tidy_directiveArgs hdone' (hus.rest lines') hall
        exact htidy
      · split at h
        · obtain ⟨_, -, h⟩ := bind_eq_ok h
          cases h
          exact fun other hmem => hdone' other (List.mem_reverse.mp hmem)
        · cases h
    · cases h
termination_by input.length * 4 + 2

theorem tidy_directiveArg : ∀ {input : List Token} {p : Parsed (Argument Payload) input},
    Proper input → directiveArg stop input = .ok p → p.value.value.Tidy
  | t :: u :: vs, p, hinput, h => by
    rw [directiveArg] at h
    split at h
    · obtain ⟨_, -, h⟩ := bind_eq_ok h
      split at h
      · obtain ⟨_, -, h⟩ := bind_eq_ok h
        obtain ⟨lines, -, h⟩ := bind_eq_ok h
        have := lines.length_le
        obtain ⟨value, hvalue, h⟩ := bind_eq_ok h
        cases h
        have htidy := tidy_payload (hinput.tail.tail.rest lines) hvalue
        exact htidy
      · obtain ⟨value, hvalue, h⟩ := bind_eq_ok h
        cases h
        exact tidy_payloadBehindName hvalue
    · obtain ⟨value, hvalue, h⟩ := bind_eq_ok h
      cases h
      exact tidy_payload hinput hvalue
  | [t], p, hinput, h => by
    rw [directiveArg] at h
    · obtain ⟨value, hvalue, h⟩ := bind_eq_ok h
      cases h
      exact tidy_payload hinput hvalue
    · rintro _ _ _ ⟨⟩
  | [], p, hinput, h => by
    rw [directiveArg] at h
    · obtain ⟨value, hvalue, h⟩ := bind_eq_ok h
      cases h
      exact tidy_payload hinput hvalue
    · rintro _ _ _ ⟨⟩
termination_by input => input.length * 4 + 1

theorem tidy_payload : ∀ {input : List Token} {p : Parsed Payload input}, Proper input →
    payload stop input = .ok p → p.value.Tidy
  | [], p, hinput, h => by
    rw [payload] at h
    cases h
  | t :: us, p, hinput, h => by
    rw [payload] at h
    split at h
    · obtain ⟨_, -, h⟩ := bind_eq_ok h
      obtain ⟨o, ho, h⟩ := bind_eq_ok h
      obtain ⟨brace, -, h⟩ := bind_eq_ok h
      cases h
      rintro block ⟨⟩
      exact tidy_body (.empty "" t.position) hinput.tail ho
    · split at h
      · obtain ⟨_, -, h⟩ := bind_eq_ok h
        obtain ⟨value, hvalue, h⟩ := bind_eq_ok h
        cases h
        have htidy := tidy_payloadBehindName hvalue
        exact htidy
      · obtain ⟨e, -, h⟩ := bind_eq_ok h
        cases h
        exact nofun
termination_by input => input.length * 4

end

end Parse

/-- **A parsed document is tidy.** -/
theorem tidy_parseDocument {text : String} {root : Object} (h : parseDocument text = .ok root) :
    root.Tidy := by
  obtain ⟨_, -, h⟩ := Running.bind_eq_ok h
  obtain ⟨p, hp, h⟩ := Running.bind_eq_ok h
  cases h
  exact Parse.tidy_body (.empty ..) (TokenList.proper text) hp

end ConfigLang
