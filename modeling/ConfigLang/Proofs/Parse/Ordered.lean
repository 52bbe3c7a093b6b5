import Mathlib
import ConfigLang.Proofs.Parse.Layout
import ConfigLang.Proofs.Tree.Ordered

/-!
# Parsed directives stand in order

A body notes for each of its directives how many fields it has so far, and never has fewer of
them later on.  So the directives of a parsed document stand in order, in each of its objects.
-/

namespace ConfigLang

variable {o : Object}

namespace Parse

/-- What is read as a part stands in order if what is there before does. -/
def Part.Ordered : (p : Part) → p.Result → Prop
  | body _ o _, v => o.Ordered → v.Ordered
  | field .., node | block .., node => node.Ordered
  | directive _ offset, d =>
    d.offset = offset ∧ ∀ arg ∈ d.args, ∀ inner, arg.value = .block inner → inner.Ordered
  | directiveArgs done, args =>
    (∀ arg ∈ done, ∀ inner, arg.value = .block inner → inner.Ordered) →
      ∀ arg ∈ args, ∀ inner, arg.value = .block inner → inner.Ordered
  | directiveArg, arg => ∀ inner, arg.value = .block inner → inner.Ordered
  | payload, value => ∀ inner, value = .block inner → inner.Ordered

theorem ordered_addDirective {d : Directive} (h : o.Ordered) (hoffset : d.offset = o.fields.length)
    (hblocks : ∀ arg ∈ d.args, ∀ inner, arg.value = .block inner → inner.Ordered)
    (pending : List String) : (addDirective o d pending).Ordered := by
  refine .intro ?_ ?_ h.nodes ?_
  · intro other hmem
    rcases List.mem_append.mp hmem with hmem | hmem
    · exact h.placed other hmem
    · rw [List.mem_singleton.mp hmem]
      exact hoffset.le
  · refine List.pairwise_append.mpr ⟨h.sorted, List.pairwise_singleton _ _, ?_⟩
    intro other hmem d' hd'
    rw [List.mem_singleton.mp hd', hoffset]
    exact h.placed other hmem
  · intro other hmem
    rcases List.mem_append.mp hmem with hmem | hmem
    · exact h.blocks other hmem
    · rw [List.mem_singleton.mp hmem]
      exact hblocks

theorem Builds.ordered {p : Part} {v : p.Result} {input rest : List Token}
    (h : Builds p input v rest) : p.Ordered v := by
  induction h with
  | finish | close => exact fun h => .intro h.placed h.sorted h.nodes h.blocks
  | line _ _ _ ih | comment _ _ _ ih => exact ih
  | directiveItem _ _ _ _ ih₁ ih₂ =>
      exact fun ho => ih₂ (ordered_addDirective ho ih₁.1 ih₁.2 _)
  | fieldItem _ _ _ ih₁ ih₂ => exact fun ho => ih₂ (ho.insert ih₁)
  | option => exact .option _
  | object _ ih => exact ih
  | labelled _ _ _ ih => exact ih
  | block _ _ _ _ _ _ _ ih =>
      have ho := ih (.of_fields rfl fun _ hmem => absurd hmem List.not_mem_nil)
      exact .object (.intro ho.placed ho.sorted ho.nodes ho.blocks)
  | directive _ _ _ _ _ ih => exact ⟨rfl, ih fun _ hmem => absurd hmem List.not_mem_nil⟩
  | noArg => exact fun hdone arg harg => hdone arg (List.mem_reverse.mp harg)
  | lastArg _ _ _ _ ih =>
      intro hdone arg harg
      rcases List.mem_cons.mp (List.mem_reverse.mp harg) with rfl | harg
      · exact ih
      · exact hdone arg harg
  | args _ _ _ _ _ _ ih₁ ih₂ => exact fun hdone => ih₂ (List.forall_mem_cons.mpr ⟨ih₁, hdone⟩)
  | arg _ _ ih => exact ih
  | keyword _ _ _ _ _ ih => exact ih
  | fragment _ _ _ _ _ ih =>
      rintro inner ⟨⟩
      exact ih (.empty ..)
  | name | calledValue | value => rintro inner ⟨⟩

end Parse

/-- **The directives of a parsed document stand in order.** -/
theorem ordered_parseDocument {text : String} {root : Object} (h : parseDocument text = .ok root) :
    root.Ordered :=
  (Parse.parseDocument_iff.mp h).2.ordered (.empty ..)

end ConfigLang
