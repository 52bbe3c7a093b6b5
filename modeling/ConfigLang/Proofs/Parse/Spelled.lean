import Mathlib
import ConfigLang.Proofs.Parse.Layout
import ConfigLang.Proofs.Token.Names
import ConfigLang.Proofs.Tree.Spelled

/-!
# The names in a parsed tree

The names in a parsed tree are the texts of identifiers.
-/

namespace ConfigLang

namespace Parse

variable {P : String → Prop} {input us : List Token}

/-- The texts of the identifiers among some tokens satisfy `P`. -/
def Calls (P : String → Prop) (input : List Token) : Prop :=
  ∀ t ∈ input, t.kind = .identifier → P t.text

theorem Calls.rest (h : Calls P input) (hus : us <:+ input) : Calls P us :=
  fun t ht => h t (hus.subset ht)

theorem Calls.tail {t : Token} (h : Calls P (t :: us)) : Calls P us :=
  fun u hu => h u (List.mem_cons_of_mem t hu)

/-- The blocks among some arguments are spelled. -/
def SpelledArgs (P : String → Prop) (args : List (Argument Payload)) : Prop :=
  ∀ arg ∈ args, ∀ block, arg.value = .block block → block.Spelled P fun _ => True

/-- What is read as a part is spelled if what is there before is. -/
def Part.Spelled (P : String → Prop) : (p : Part) → p.Result → Prop
  | body _ o _, v =>
    v.name = o.name ∧ ((o.Spelled P fun _ => True) → v.Spelled P fun _ => True)
  | field name _, node => P name.text → node.Spelled P fun _ => True
  | block name label _ _, node =>
    P name → (∀ l, label = some l → P l) → node.Spelled P fun _ => True
  | directive .., d => SpelledArgs P d.args
  | directiveArgs done, args => SpelledArgs P done → SpelledArgs P args
  | directiveArg, arg => ∀ block, arg.value = .block block → block.Spelled P fun _ => True
  | payload, value => ∀ block, value = .block block → block.Spelled P fun _ => True

theorem spelled_addDirective {o : Object} {d : Directive} (h : o.Spelled P fun _ => True)
    (hd : SpelledArgs P d.args) (pending : List String) :
    (addDirective o d pending).Spelled P fun _ => True := by
  refine .mk' h.label h.fields ?_
  intro other hmem
  rcases List.mem_append.mp hmem with hmem | hmem
  · exact h.directives other hmem
  · rw [List.mem_singleton.mp hmem]
    exact ⟨fun _ => trivial, hd⟩

theorem Builds.spelled {p : Part} {v : p.Result} {rest : List Token} (h : Builds p input v rest)
    (hinput : Calls P input) : p.Spelled P v := by
  induction h with
  | finish | close => exact ⟨rfl, fun h => .mk' h.label h.fields h.directives⟩
  | line _ _ _ ih | comment _ _ _ ih => exact ih hinput.tail
  | directiveItem _ hd hend _ ih₁ ih₂ =>
      have hbehind := (hinput.tail.rest hd.isSuffix).rest hend.isSuffix
      obtain ⟨hname, hv⟩ := ih₂ hbehind
      exact ⟨hname, fun ho => hv (spelled_addDirective ho (ih₁ hinput.tail) _)⟩
  | @fieldItem _ _ _ _ t _ _ _ _ hkind hnode _ ih₁ ih₂ =>
      have hcalled : P t.text := hinput t List.mem_cons_self hkind
      obtain ⟨hname, hv⟩ := ih₂ (hinput.tail.rest hnode.isSuffix)
      exact ⟨hname, fun ho => hv (ho.insert (ih₁ hinput.tail hcalled))⟩
  | option => exact fun hname => .option hname
  | object _ ih => exact fun hname => ih hinput hname nofun
  | @labelled _ t _ _ _ _ hkind _ _ ih =>
      intro hname
      refine ih hinput.tail hname ?_
      rintro _ ⟨⟩
      exact hinput t List.mem_cons_self hkind
  | block _ _ _ _ _ _ _ ih =>
      intro hname hlabel
      obtain ⟨hsame, ho⟩ := ih hinput.tail
      have ho := ho (.mk' hlabel .nil nofun)
      exact .object (hsame ▸ hname) (.mk' ho.label ho.fields ho.directives)
  | directive _ _ _ hlines _ ih =>
      exact ih (hinput.tail.rest hlines.isSuffix) nofun
  | noArg => exact fun hdone arg harg => hdone arg (List.mem_reverse.mp harg)
  | lastArg _ _ _ _ ih =>
      intro hdone arg harg
      rcases List.mem_cons.mp (List.mem_reverse.mp harg) with rfl | harg
      · exact ih hinput
      · exact hdone arg harg
  | args harg hlines₁ _ _ hlines₂ _ ih₁ ih₂ =>
      intro hdone
      have hbehind := ((hinput.rest harg.isSuffix).rest hlines₁.isSuffix).tail.rest hlines₂.isSuffix
      exact ih₂ hbehind (List.forall_mem_cons.mpr ⟨ih₁ hinput, hdone⟩)
  | arg _ _ ih => exact ih hinput
  | keyword _ _ _ hlines _ ih => exact ih (hinput.tail.tail.rest hlines.isSuffix)
  | fragment _ _ _ _ _ ih =>
      rintro block ⟨⟩
      exact (ih hinput.tail).2 (.empty ..)
  | name | calledValue | value => rintro block ⟨⟩

end Parse

/-- **The names in a parsed tree are made of name characters.** -/
theorem spelled_parseDocument {P : String → Prop} {text : String} {root : Object}
    (hP : ∀ name, (∀ c ∈ name.toList, Lexeme.isNameChar c = true) → P name)
    (h : parseDocument text = .ok root) : root.Spelled P fun _ => True := by
  have hbuilds := (Parse.parseDocument_iff.mp h).2
  have hcalls : Parse.Calls P (TokenList.ofText text).tokens :=
    fun t ht hkind => hP t.text (TokenList.isNameChar_of_identifier ht hkind)
  exact (hbuilds.spelled hcalls).2 (.empty ..)

end ConfigLang
