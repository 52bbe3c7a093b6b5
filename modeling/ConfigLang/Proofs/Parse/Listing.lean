import Mathlib
import ConfigLang.Parse.Document
import ConfigLang.Proofs.Expand.Declared
import ConfigLang.Proofs.Running

/-!
# The items of a body as they are written

`Parse.Lists` divides the tokens of a body into fields and directives, each where it
is written, and `body_lists` says that the parser declares these one after the other.
A directive is read with the number of names above it, which is the one that
`Object.declare` gives it, so the directives are kept as they were read.
-/

namespace ConfigLang

namespace Parse

variable (stop : Position) (inBraces : Bool)

/-- The items of a body in the order of its tokens. The comments that are `pending` go to the next
field. -/
inductive Lists : List String → List Token → List Item → Prop
  | finish (pending : List String) (h : inBraces = false) : Lists pending [] []
  | close (pending : List String) {t : Token} {us : List Token} (h : inBraces = true)
      (hkind : t.kind = .mark .rbrace) : Lists pending (t :: us) []
  | line {pending : List String} {t : Token} {us : List Token} {items : List Item}
      (hkind : t.kind = .eol) (h : Lists pending us items) : Lists pending (t :: us) items
  | comment {pending : List String} {t : Token} {us : List Token} {items : List Item}
      (hkind : t.kind = .comment) (h : Lists (pending ++ [t.text]) us items) :
      Lists pending (t :: us) items
  | directive {pending : List String} {t : Token} {us : List Token} {items : List Item}
      {offset : Nat} {d : Parsed Directive us} {line : Parsed Unit d.rest}
      (hkind : t.kind = .directive) (hd : directive stop t offset us = .ok d)
      (hline : endOfItem stop d.rest = .ok line) (h : Lists [] line.rest items) :
      Lists pending (t :: us) (.directive d.value :: items)
  | field {pending : List String} {t : Token} {us : List Token} {items : List Item}
      {node : Parsed Node us} (hkind : t.kind = .identifier)
      (hnode : field stop t pending us = .ok node) (h : Lists [] node.rest items) :
      Lists pending (t :: us) (.field node.value :: items)

section

open Running

variable {stop : Position} {inBraces : Bool}

theorem offset_of_directive {name : Token} {offset : Nat} {input : List Token}
    {d : Parsed Directive input} (h : directive stop name offset input = .ok d) :
    d.value.offset = offset := by
  rw [directive] at h
  obtain ⟨_, -, h⟩ := bind_eq_ok h
  split at h
  · cases h
  · obtain ⟨paren, -, h⟩ := bind_eq_ok h
    obtain ⟨lines, -, h⟩ := bind_eq_ok h
    obtain ⟨args, -, h⟩ := bind_eq_ok h
    cases h
    rfl

theorem not_isList_of_block {name : String} {label : Option String} {position : Position}
    {leading : List String} {input : List Token} {node : Parsed Node input}
    (h : block stop name label position leading input = .ok node) : node.value.isList = false := by
  cases input with
  | nil =>
      rw [block] at h
      cases h
  | cons t us =>
      rw [block] at h
      split at h
      · obtain ⟨_, -, h⟩ := bind_eq_ok h
        obtain ⟨o, -, h⟩ := bind_eq_ok h
        obtain ⟨brace, -, h⟩ := bind_eq_ok h
        obtain ⟨trailing, -, h⟩ := bind_eq_ok h
        obtain ⟨line, -, h⟩ := bind_eq_ok h
        cases h
        rfl
      · cases h

/-- A field is declared by an option or by an object. -/
theorem not_isList_of_field {name : Token} {leading : List String} {input : List Token}
    {node : Parsed Node input} (h : field stop name leading input = .ok node) :
    node.value.isList = false := by
  cases input with
  | nil =>
      rw [field] at h
      cases h
  | cons t us =>
      rw [field] at h
      obtain ⟨_, -, h⟩ := bind_eq_ok h
      split at h
      · -- an equals sign
        obtain ⟨_, -, h⟩ := bind_eq_ok h
        obtain ⟨e, -, h⟩ := bind_eq_ok h
        obtain ⟨trailing, -, h⟩ := bind_eq_ok h
        obtain ⟨line, -, h⟩ := bind_eq_ok h
        cases h
        rfl
      · split at h
        · exact not_isList_of_block h
        · split at h
          · -- a label, with the brace behind it
            obtain ⟨_, -, h⟩ := bind_eq_ok h
            obtain ⟨node, hnode, h⟩ := bind_eq_ok h
            cases h
            have hlist := not_isList_of_block hnode
            exact hlist
          · cases h

theorem Lists.not_isList {pending : List String} {input : List Token} {items : List Item}
    (h : Lists stop inBraces pending input items) :
    ∀ node, .field node ∈ items → node.isList = false := by
  induction h with
  | finish => exact fun _ hmem => by cases hmem
  | close => exact fun _ hmem => by cases hmem
  | line _ _ ih => exact ih
  | comment _ _ ih => exact ih
  | directive _ _ _ _ ih =>
      intro node hmem
      rcases List.mem_cons.mp hmem with h | hmem
      · cases h
      · exact ih node hmem
  | field _ hnode _ ih =>
      intro node hmem
      rcases List.mem_cons.mp hmem with h | hmem
      · cases h
        exact not_isList_of_field hnode
      · exact ih node hmem

/-- A directive that was read with the number of fields above it is kept as it was read. -/
theorem declareAll_addDirective {o : Object} {d : Directive} (h : d.offset = o.fields.length)
    (pending : List String) (items : List Item) :
    ((addDirective o d pending).declareAll items).fields =
        (o.declareAll (.directive d :: items)).fields ∧
      ((addDirective o d pending).declareAll items).directives =
        (o.declareAll (.directive d :: items)).directives := by
  have hdeclared : ({ d with offset := o.fields.length } : Directive) = d := d.with_offset h
  have hadded : (addDirective o d pending).directives =
      (o.declare (.directive d)).directives := by
    rw [Object.declare, hdeclared]
    rfl
  exact @Object.declareAll_congr (addDirective o d pending) (o.declare (.directive d)) rfl
    hadded items

/-- **A body is parsed to its items, declared one after the other.** -/
theorem body_lists {o : Object} {pending : List String} : ∀ {input : List Token}
    {p : Parsed Object input}, body stop inBraces o pending input = .ok p →
      ∃ items, Lists stop inBraces pending input items ∧
        p.value.fields = (o.declareAll items).fields ∧
        p.value.directives = (o.declareAll items).directives ∧
        p.value.directives = o.directives ++ Item.directives items
  | [], p, h => by
    rw [body] at h
    split at h
    · cases h
    · rename_i hopen
      cases h
      exact ⟨[], .finish pending (by simpa using hopen), rfl, rfl, (List.append_nil _).symm⟩
  | t :: us, p, h => by
    rw [body] at h
    -- the parser looks at the first token, and `Lists` has a constructor for each it accepts
    split at h
    · rename_i hclose
      cases h
      exact ⟨[], .close pending hclose.1 hclose.2, rfl, rfl, (List.append_nil _).symm⟩
    · split at h
      · rename_i hkind
        obtain ⟨_, -, h⟩ := bind_eq_ok h
        obtain ⟨p', hp, h⟩ := bind_eq_ok h
        cases h
        obtain ⟨items, hlists, hrest⟩ := body_lists hp
        exact ⟨items, .line hkind hlists, hrest⟩
      · rename_i hkind
        obtain ⟨_, -, h⟩ := bind_eq_ok h
        obtain ⟨p', hp, h⟩ := bind_eq_ok h
        cases h
        obtain ⟨items, hlists, hrest⟩ := body_lists hp
        exact ⟨items, .comment hkind hlists, hrest⟩
      · rename_i hkind
        obtain ⟨d, hd, h⟩ := bind_eq_ok h
        have := d.length_le
        obtain ⟨line, hline, h⟩ := bind_eq_ok h
        have := line.length_le
        obtain ⟨p', hp, h⟩ := bind_eq_ok h
        cases h
        obtain ⟨items, hlists, hfields, hdirectives, hall⟩ := body_lists hp
        have hsame := declareAll_addDirective (offset_of_directive hd) pending items
        refine ⟨_, .directive hkind hd hline hlists, hfields.trans hsame.1,
          hdirectives.trans hsame.2, hall.trans ?_⟩
        exact List.append_assoc _ [d.value] _
      · rename_i hkind
        obtain ⟨node, hnode, h⟩ := bind_eq_ok h
        have := node.length_le
        obtain ⟨p', hp, h⟩ := bind_eq_ok h
        cases h
        obtain ⟨items, hlists, hrest⟩ := body_lists hp
        exact ⟨_, .field hkind hnode hlists, hrest⟩
      · cases h
termination_by input => input.length

end

end Parse

end ConfigLang
