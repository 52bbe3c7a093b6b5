import Mathlib
import ConfigLang.Proofs.Parse.Layout
import ConfigLang.Proofs.Parse.Listing
import ConfigLang.Proofs.Parse.Tidy
import ConfigLang.Proofs.Tree.Grouped

/-!
# The fields of a body are its declarations

A parser puts the fields of a body into its object one after the other, so the object holds
them grouped by name (`Parse.groups_body`).  This is so for every body of a document: for
each object in its tree, in whatever field or directive, there is a place in the text whose
items the object holds (`Parse.Builds.allAt`).
-/

namespace ConfigLang

/-- The nodes that some items declare, in their order. -/
def Item.nodes (items : List Item) : List Node :=
  items.filterMap fun
    | field node => some node
    | directive _ => none

theorem Object.with_comments (o : Object) {comments : Comments} (h : o.comments = comments) :
    { o with comments } = o := by
  cases o
  cases h
  rfl

theorem Item.mem_nodes {items : List Item} {node : Node} :
    node ∈ nodes items ↔ field node ∈ items := by
  rw [nodes, List.mem_filterMap]
  constructor
  · rintro ⟨item, hmem, hnode⟩
    cases item with
    | field _ =>
        cases hnode
        exact hmem
    | directive _ => cases hnode
  · exact fun hmem => ⟨_, hmem, rfl⟩

/-- An object stands directly in another one, in a field or as the block of a directive. -/
def Object.IsPart (inner outer : Object) : Prop :=
  (∃ field ∈ outer.fields, .object inner ∈ field.2.flatten) ∨
    ∃ d ∈ outer.directives, ∃ arg ∈ d.args, arg.value = .block inner

/-- An object is another one, or stands somewhere in it. -/
inductive Object.Within (o : Object) : Object → Prop
  | refl : Within o o
  | part {inner outer : Object} (hpart : inner.IsPart outer) (h : Within o inner) : Within o outer

theorem Method.mem_combine_append_iff {held : Option Node} {node item : Node} :
    item ∈ (append.combine held node).flatten ↔
      (∃ other, held = some other ∧ item ∈ other.flatten) ∨ item ∈ node.flatten := by
  cases held with
  | none =>
      rw [combine_none]
      simp
  | some other =>
      have hflatten : (append.combine (some other) node).flatten =
          other.flatten ++ node.flatten := by
        cases other <;> rfl
      rw [hflatten, List.mem_append]
      simp

namespace Parse

open Running

/-- The items are those of a body in some tokens, for which the object was read. -/
def BodyAt (stop : Position) (tokens : List Token) (o : Object) (items : List Item) : Prop :=
  ∃ inBraces start input, ∃ p : Parsed Object input, input <:+ tokens ∧ start.fields = [] ∧
    body stop inBraces start [] input = .ok p ∧ o = { p.value with comments := o.comments } ∧
    Lists stop inBraces [] input items

variable {stop : Position} {inBraces : Bool} {tokens : List Token} {o : Object}

/-! ## One body -/

/-- Directives do not matter for the fields. -/
theorem fields_declareAll {o o' : Object} (h : o.fields = o'.fields) (items : List Item) :
    (o.declareAll items).fields = (o'.insertAll (Item.nodes items)).fields := by
  induction items generalizing o o' with
  | nil => exact h
  | cons item items ih =>
      cases item with
      | field node => exact @ih (o.insert node) (o'.insert node) (congrArg (Fields.insert · node) h)
      | directive d => exact @ih (o.declare (.directive d)) o' h

/-- **A body holds its declarations**, grouped by name. -/
theorem groups_body {start : Object} {pending : List String} {input : List Token}
    {p : Parsed Object input} (hstart : start.fields = [])
    (h : body stop inBraces start pending input = .ok p) :
    ∃ items, Lists stop inBraces pending input items ∧
      Fields.Groups p.value.fields (Item.nodes items) := by
  obtain ⟨items, hlists, hfields, -⟩ := body_lists h
  refine ⟨items, hlists, ?_⟩
  rw [hfields, fields_declareAll rfl]
  exact Object.groups_insertAll hstart _

/-- A body declares no lists, so a name holds one only if it is declared more than once. -/
theorem BodyAt.isList_iff {items : List Item} (h : BodyAt stop tokens o items)
    (hgroups : Fields.Groups o.fields (Item.nodes items)) {name : String} {node : Node}
    (hget : Keyed.get? o.fields name = some node) :
    node.isList = true ↔ 1 < node.flatten.length := by
  obtain ⟨_, _, _, _, -, -, -, -, hlists⟩ := h
  refine hgroups.isList ?_ name node hget
  intro other hother hlist
  have hsingle := hlists.not_isList other (Item.mem_nodes.mp hother)
  rw [hsingle] at hlist
  cases hlist

/-! ## Every body -/

/-- An object and all objects in it have their places in the tokens. -/
def AllAt (stop : Position) (tokens : List Token) (o : Object) : Prop :=
  ∀ x : Object, x.Within o →
    ∃ items, BodyAt stop tokens x items ∧ Fields.Groups x.fields (Item.nodes items)

/-- The objects in what is read off the tokens, and that are not there before, have their places. -/
def Part.AllAt (stop : Position) (tokens : List Token) : (p : Part) → p.Result → Prop
  | body _ o _, v =>
    (∀ inner : Object, inner.IsPart o → Parse.AllAt stop tokens inner) →
      ∀ inner : Object, inner.IsPart v → Parse.AllAt stop tokens inner
  | field .., node | block .., node =>
    ∀ inner, .object inner ∈ node.flatten → Parse.AllAt stop tokens inner
  | directive .., d =>
    ∀ arg ∈ d.args, ∀ inner, arg.value = .block inner → Parse.AllAt stop tokens inner
  | directiveArgs done, args =>
    (∀ arg ∈ done, ∀ inner, arg.value = .block inner → Parse.AllAt stop tokens inner) →
      ∀ arg ∈ args, ∀ inner, arg.value = .block inner → Parse.AllAt stop tokens inner
  | directiveArg, arg => ∀ inner, arg.value = .block inner → Parse.AllAt stop tokens inner
  | payload, value => ∀ inner, value = .block inner → Parse.AllAt stop tokens inner

theorem isPart_insert {inner : Object} {node : Node} (h : inner.IsPart (o.insert node)) :
    inner.IsPart o ∨ .object inner ∈ node.flatten := by
  rcases h with ⟨field, hfield, hitem⟩ | hblock
  · rw [Object.fields_insert] at hfield
    rcases Keyed.mem_put hfield with rfl | hfield
    · rcases Method.mem_combine_append_iff.mp hitem with ⟨held, hheld, hitem⟩ | hitem
      · exact .inl (.inl ⟨_, Keyed.mem_of_get? hheld, hitem⟩)
      · exact .inr hitem
    · exact .inl (.inl ⟨field, hfield, hitem⟩)
  · exact .inl (.inr hblock)

/-- A body that is read off the tokens has its place there, and so have all objects in it. -/
theorem allAt_of_body {start v : Object} {input rest : List Token} (comments : Comments)
    (hinput : input <:+ tokens) (hfields : start.fields = []) (hdirectives : start.directives = [])
    (h : Builds (.body inBraces start []) input v rest)
    (hparts : (Part.body inBraces start []).AllAt stop tokens v) :
    AllAt stop tokens { v with comments } := by
  obtain ⟨hs, hparse : body stop _ _ _ _ = _⟩ := h.parse stop
  obtain ⟨items, hlists, hgroups⟩ := groups_body hfields hparse
  intro x hx
  cases hx with
  | refl =>
      exact ⟨items, ⟨inBraces, start, input, _, hinput, hfields, hparse, rfl, hlists⟩,
        hgroups⟩
  | @part inner _ hpart hx =>
      refine hparts ?_ inner hpart x hx
      rintro inner (⟨field, hfield, -⟩ | ⟨d, hd, -⟩)
      · rw [hfields] at hfield
        cases hfield
      · rw [hdirectives] at hd
        cases hd

theorem Builds.allAt {p : Part} {v : p.Result} {input rest : List Token}
    (h : Builds p input v rest) (hinput : input <:+ tokens) : p.AllAt stop tokens v := by
  induction h with
  | finish | close => exact fun h inner hinner => h inner hinner
  | line _ _ _ ih | comment _ _ _ ih => exact ih (suffix_behind hinput)
  | directiveItem _ hd hend _ ih₁ ih₂ =>
      intro hparts
      have hnext := hend.isSuffix.trans hd.isSuffix
      refine ih₂ (hnext.trans (suffix_behind hinput)) ?_
      -- in the object there were the parts of before, and the blocks of the directive are new
      rintro inner (hfield | ⟨d, hmem, arg, harg, hblock⟩)
      · exact hparts inner (.inl hfield)
      · rcases List.mem_append.mp hmem with hmem | hmem
        · exact hparts inner (.inr ⟨d, hmem, arg, harg, hblock⟩)
        · rw [List.mem_singleton.mp hmem] at harg
          exact ih₁ (suffix_behind hinput) arg harg inner hblock
  | fieldItem _ hnode _ ih₁ ih₂ =>
      intro hparts
      refine ih₂ (hnode.isSuffix.trans (suffix_behind hinput)) ?_
      intro inner hinner
      rcases isPart_insert hinner with hinner | hitem
      · exact hparts inner hinner
      · exact ih₁ (suffix_behind hinput) inner hitem
  | option => exact fun inner hitem => by cases List.mem_singleton.mp hitem
  | object _ ih => exact ih hinput
  | labelled _ _ _ ih => exact ih (suffix_behind hinput)
  | block _ _ hbody _ _ _ _ ih =>
      intro inner hitem
      cases List.mem_singleton.mp hitem
      have hus := suffix_behind hinput
      exact allAt_of_body _ hus rfl rfl hbody (ih hus)
  | directive _ _ _ hlines _ ih =>
      exact ih (hlines.isSuffix.trans (suffix_behind hinput)) fun arg harg => by cases harg
  | noArg => exact fun hdone arg harg => hdone arg (List.mem_reverse.mp harg)
  | lastArg _ _ _ _ ih =>
      intro hdone arg harg
      rcases List.mem_cons.mp (List.mem_reverse.mp harg) with rfl | harg
      · exact ih hinput
      · exact hdone arg harg
  | args harg hlines₁ _ _ hlines₂ _ ih₁ ih₂ =>
      intro hdone
      have hcomma := hlines₁.isSuffix.trans (harg.isSuffix.trans hinput)
      exact ih₂ (hlines₂.isSuffix.trans (suffix_behind hcomma))
        (List.forall_mem_cons.mpr ⟨ih₁ hinput, hdone⟩)
  | arg _ _ ih => exact ih hinput
  | keyword _ _ _ hlines _ ih =>
      exact ih (hlines.isSuffix.trans (suffix_behind (suffix_behind hinput)))
  | @fragment _ _ _ _ o _ _ hbody _ _ ih =>
      rintro inner ⟨⟩
      have hus := suffix_behind hinput
      have hat := allAt_of_body o.comments hus rfl rfl hbody (ih hus)
      rwa [o.with_comments rfl] at hat
  | name | calledValue | value => rintro inner ⟨⟩

/-- **Repeated declarations are never lost, reordered or duplicated.** Nodes that are put into an
empty object are grouped by name in it, those of the fields of another object that are appended as
well; and so are the declarations of each body of a document.  A name holds a list if that is more
than one thing, the lists that come in being such as a text can have. -/
theorem declarations_grouped :
    (∀ name position (nodes : List Node),
      Fields.Groups (nodes.foldl Object.insert (Object.empty name position)).fields nodes) ∧
    (∀ name position (fields : Fields),
      let o := (Object.empty name position).combineAll .append fields
      Fields.Groups o.fields (fields.map Prod.snd) ∧
        (Fields.Tidy fields → ∀ name node, Keyed.get? o.fields name = some node →
          (node.isList = true ↔ 1 < node.flatten.length))) ∧
    ∀ text root, parseDocument text = .ok root → ∀ o : Object, o.Within root →
      ∃ items, BodyAt (TokenList.ofText text).stop (TokenList.ofText text).tokens o items ∧
        Fields.Groups o.fields (Item.nodes items) ∧
        ∀ name node, Keyed.get? o.fields name = some node →
          (node.isList = true ↔ 1 < node.flatten.length) := by
  refine ⟨?inserted, ?appended, ?parsed⟩
  case inserted =>
    intro name position nodes
    exact Object.groups_insertAll rfl nodes
  case appended =>
    intro name position fields
    have hall : (Object.empty name position).combineAll .append fields =
        (Object.empty name position).insertAll (fields.map Prod.snd) := by
      rw [Object.insertAll, List.foldl_map]
      rfl
    rw [hall]
    have hgroups := Object.groups_insertAll (o := Object.empty name position) rfl
      (fields.map Prod.snd)
    refine ⟨hgroups, fun htidy => hgroups.isList ?_⟩
    intro node hnode hlist
    obtain ⟨field, hfield, rfl⟩ := List.mem_map.mp hnode
    exact (htidy.nodes field hfield).one_lt_length hlist
  case parsed =>
    intro text root hparse
    obtain ⟨-, hbuilds⟩ := parseDocument_iff.mp hparse
    have hall : Part.AllAt (TokenList.ofText text).stop (TokenList.ofText text).tokens
        (.body false _ []) root := hbuilds.allAt (List.suffix_refl _)
    have hat := allAt_of_body root.comments (List.suffix_refl _) rfl rfl hbuilds hall
    rw [root.with_comments rfl] at hat
    intro o ho
    obtain ⟨items, hbody, hgroups⟩ := hat o ho
    exact ⟨items, hbody, hgroups, fun name node hget => hbody.isList_iff hgroups hget⟩

/-- `a` and `b` are declared, and `a` again; and then the fields are appended to an empty object. -/
theorem declarations_grouped_of_repeated :
    ∃ root items, parseDocument "a = 1\nb = 2\na = 3\na x { c = 4 }\n" = .ok root ∧
      Keyed.keys root.fields = ["a", "b"] ∧ Fields.Groups root.fields (Item.nodes items) ∧
      ∀ name node,
        Keyed.get? ((Object.empty "" .start).combineAll .append root.fields).fields name =
          some node → (node.isList = true ↔ 1 < node.flatten.length) := by
  have hparsed : (parseDocument "a = 1\nb = 2\na = 3\na x { c = 4 }\n").toOption.any
      (fun root => Keyed.keys root.fields == ["a", "b"]) = true := by
    decide +kernel
  obtain ⟨root, hparse, hkeys⟩ := exists_of_any hparsed
  obtain ⟨items, -, hgroups, -⟩ := declarations_grouped.2.2 _ root hparse root .refl
  have htidy : Fields.Tidy root.fields := (tidy_parseDocument hparse).fields
  obtain ⟨-, happended⟩ := declarations_grouped.2.1 "" .start root.fields
  exact ⟨root, items, hparse, eq_of_beq hkeys, hgroups, happended htidy⟩

end Parse

end ConfigLang
