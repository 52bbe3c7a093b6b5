import Mathlib
import ConfigLang.Expand.Basic
import ConfigLang.Proofs.Expand.Arguments
import ConfigLang.Proofs.Parse.Tidy

/-!
# Expansion keeps trees tidy

The objects inside a tree keep their names when they are expanded, so the fields
that hold them stay named; fragments and included documents are tidy before they
are placed.  The chain of lemmas follows the expander from a single directive to a
whole document, with nested includes at the end.

## Strategy

* **Objects inside.**  An object that is expanded takes the place of the one before
  (`Object.Replaces`), under the same name.  `tidy_descend` and its companions
  follow the recursion into fields, nodes and items.
* **One directive.**  What it brings is tidy (`Effect.Tidy`): the block of a definition
  because it is part of the tree (`tidy_define`), fields that are selected because they
  were among tidy ones (`tidy_selectFields`), and a document because it has been parsed
  and expanded (`tidy_includeDocument`).
* **All directives.**  `StageTidy` is what the run over the directives of an object
  keeps, with the fragments that are seen on the way (`tidy_runAll`).
* **Whole documents.**  `Scene.tidy_expandWithin` is by induction on how deep includes
  may be nested, and within by induction on the measure of the expander.
-/

namespace ConfigLang

open Running

variable {m : Type → Type} [Monad m] [LawfulMonad m]

/-- The blocks that a scope makes visible are tidy. -/
def Scope.Tidy (scope : Scope) : Prop :=
  ∀ entry ∈ scope, ∀ block, entry.2 = .block block → block.Tidy

/-- An object that has taken the place of another. -/
structure Object.Replaces (o o' : Object) : Prop where
  tidy : o'.Tidy
  name_eq : o'.name = o.name

/-- A way to expand objects keeps them tidy. -/
def KeepsTidy (expand : Scope → Object → Expansion m Object) : Prop :=
  ∀ scope o, Scope.Tidy scope → o.Tidy → Ensures (expand scope o) o.Replaces

/-! ## Objects inside a tree -/

section Descend

variable {expand : Scope → Object → Expansion m Object} {scope : Scope}

mutual

theorem tidy_descend (hexpand : KeepsTidy expand) (hscope : Scope.Tidy scope) :
    ∀ {o : Object}, o.Tidy → Ensures (o.descend expand scope) o.Replaces
  | ⟨_, _, _, [], _, _, _⟩, h => by
    rw [Object.descend]
    refine (tidy_descendFields hexpand hscope h.fields).bind fun fields hfields => ?_
    exact .pure ⟨.mk' h.label hfields.1 h.directives, rfl⟩
  | ⟨_, _, _, d :: ds, _, _, _⟩, h => by
    rw [Object.descend]
    · exact hexpand scope _ hscope h
    · exact List.cons_ne_nil d ds

theorem tidy_descendFields (hexpand : KeepsTidy expand) (hscope : Scope.Tidy scope) :
    ∀ {fields : Fields}, Fields.Tidy fields → Ensures (descendFields expand scope fields)
      fun fields' => Fields.Tidy fields' ∧ Keyed.keys fields' = Keyed.keys fields
  | [], _ => by
    rw [descendFields]
    exact .pure ⟨.nil, rfl⟩
  | (key, node) :: fields, h => by
    rw [descendFields]
    refine (tidy_descendNode hexpand hscope (h.nodes _ List.mem_cons_self)).bind
      fun node' hnode => ?_
    refine (tidy_descendFields hexpand hscope (h.of_sublist (List.sublist_cons_self _ _))).bind
      fun fields' hfields => ?_
    have hkeys : Keyed.keys ((key, node') :: fields') = Keyed.keys ((key, node) :: fields) :=
      congrArg (key :: ·) hfields.2
    refine .pure ⟨⟨?_, ?_, ?_⟩, hkeys⟩
    · rw [hkeys]
      exact h.distinct
    · exact List.forall_mem_cons.mpr
        ⟨hnode.2.1.trans (h.named _ List.mem_cons_self), hfields.1.named⟩
    · exact List.forall_mem_cons.mpr ⟨hnode.1, hfields.1.nodes⟩

theorem tidy_descendNode (hexpand : KeepsTidy expand) (hscope : Scope.Tidy scope) :
    ∀ {node : Node}, node.Tidy → Ensures (node.descend expand scope)
      fun node' => node'.Tidy ∧ node'.name = node.name ∧ node'.isList = node.isList
  | .option binding, h => by
    rw [Node.descend]
    exact .pure ⟨h, rfl, rfl⟩
  | .object o, h => by
    rw [Node.descend]
    refine (tidy_descend hexpand hscope h.of_object).bind fun o' ho => ?_
    exact .pure ⟨.object ho.tidy, ho.name_eq, rfl⟩
  | .list name items, h => by
    rw [Node.descend]
    refine (tidy_descendItems hexpand hscope h.items).bind fun items' hitems => ?_
    exact .pure ⟨.of_items (hitems.1.symm ▸ h.several) hitems.2, rfl, rfl⟩

theorem tidy_descendItems (hexpand : KeepsTidy expand) (hscope : Scope.Tidy scope)
    {name : String} : ∀ {items : List Node}, (∀ item ∈ items, Node.IsItem name item) →
      Ensures (descendItems expand scope items) fun items' =>
        items'.length = items.length ∧ ∀ item ∈ items', Node.IsItem name item
  | [], _ => by
    rw [descendItems]
    exact .pure ⟨rfl, nofun⟩
  | item :: items, h => by
    obtain ⟨hnamed, hsingle, htidy⟩ := h item List.mem_cons_self
    rw [descendItems]
    refine (tidy_descendNode hexpand hscope htidy).bind fun item' hitem => ?_
    refine (tidy_descendItems hexpand hscope fun other hmem =>
      h other (List.mem_cons_of_mem _ hmem)).bind fun items' hitems => ?_
    exact .pure ⟨congrArg (· + 1) hitems.1, List.forall_mem_cons.mpr
      ⟨⟨hitem.2.1.trans hnamed, hitem.2.2.trans hsingle, hitem.1⟩, hitems.2⟩⟩

end

end Descend

/-! ## One directive -/

/-- What a directive brings is tidy. -/
structure Effect.Tidy (e : Effect) : Prop where
  fields : ∀ field ∈ e.fields, field.2.Tidy
  fragments : Scope.Tidy e.fragments

namespace Include

/-- A document that is included has a text. -/
theorem exists_text {i : Include} {content : ByteArray} {document : Object}
    (h : i.parse content = .ok document) :
    ∃ text, String.fromUTF8? content = some text ∧ parseDocument text = .ok document := by
  unfold parse at h
  split at h
  · cases h
  · rename_i text htext
    cases hparse : parseDocument text with
    | error e =>
        rw [hparse] at h
        cases h
    | ok root =>
        rw [hparse] at h
        cases h
        exact ⟨text, htext, hparse⟩

theorem tidy_parse (i : Include) {content : ByteArray} {document : Object}
    (h : i.parse content = .ok document) : document.Tidy := by
  obtain ⟨_, -, hparse⟩ := exists_text h
  exact tidy_parseDocument hparse

theorem tidy_fields (i : Include) {document : Object} (h : document.Tidy) :
    ∀ field ∈ i.fields document, field.2.Tidy := by
  unfold fields
  split
  · exact h.fields.nodes
  · exact List.forall_mem_singleton.mpr (.object (.mk' h.label h.fields h.directives))

end Include

namespace Expander

variable {x : Expander m} {expandBlock : Scope → Object → Expansion m Object} {d : Directive}
  {scope : Scope}

theorem tidy_define (hexpand : KeepsTidy expandBlock) (hd : d.Tidy) (hscope : Scope.Tidy scope) :
    Ensures (x.define expandBlock d scope) Effect.Tidy := by
  have hdefined : ∀ (name : String) (fragment : Fragment),
      (∀ block, fragment = .block block → block.Tidy) →
        ({ Effect.none with fragments := [(name, fragment)] } : Effect).Tidy :=
    fun name fragment h => ⟨nofun, List.forall_mem_singleton.mpr h⟩
  unfold define
  refine (Directive.ensures_bind hd _).bind fun args hargs => ?_
  refine .bind_of fun _ => .bind_of fun name => ?_
  refine (d.ensures_required hargs _).bind fun payload hpayload => ?_
  cases payload with
  | expr e =>
      dsimp only
      rw [pure_bind]
      exact .pure (hdefined name _ nofun)
  | ident ident =>
      -- a name alone is nothing that can be defined
      refine (Ensures.throw _).bind (P := fun _ => False) fun _ hfalse => hfalse.elim
  | block o =>
      refine (hexpand scope o hscope (hpayload o rfl)).bind fun o' ho => ?_
      rw [pure_bind]
      refine .pure (hdefined name _ ?_)
      rintro block ⟨⟩
      exact ho.tidy

theorem tidy_selectFields {args : List (String × Payload)} {block : Object} (h : block.Tidy) :
    Ensures (x.selectFields d args block) Object.Tidy := by
  refine x.ensures_selectFields d args (fun o keep ho => ?_) (fun o depth ho => ho.truncate depth) h
  exact ho.with_fields (ho.fields.of_sublist List.filter_sublist)

theorem tidy_apply (hscope : Scope.Tidy scope) : Ensures (x.apply d scope) Effect.Tidy := by
  unfold apply
  refine .bind_of fun args => .bind_of fun _ => .bind_of fun name => .bind_of fun method => ?_
  split
  · exact .throw _
  · exact .pure ⟨List.forall_mem_singleton.mpr (.option _), nofun⟩
  · rename_i block hlookup
    have hget : Keyed.get? scope name = some (.block block) := hlookup
    have hmem := Keyed.mem_of_get? hget
    refine (tidy_selectFields (hscope _ hmem block rfl)).bind fun block' hblock => ?_
    exact .pure ⟨hblock.fields.nodes, nofun⟩

/-- The documents that are included are tidy. -/
def NestedTidy (x : Expander m) : Prop :=
  ∀ nested ∈ x.nested?, ∀ directory o, o.Tidy → Ensures (nested directory o) Object.Tidy

theorem tidy_includeDocument (hnested : x.NestedTidy) :
    Ensures (x.includeDocument d) Effect.Tidy := by
  unfold includeDocument
  refine .bind_of fun i => ?_
  split
  · exact .throw _
  · rename_i nested hsome
    refine .bind_of fun fetched => ?_
    split
    · split
      · exact .throw _
      · exact .pure ⟨nofun, nofun⟩
    · rename_i content directory
      have hparse : Ensures (ExceptT.mk (pure (i.parse content)) : Expansion m Object)
          Object.Tidy := .of_except fun document h => i.tidy_parse h
      refine hparse.bind fun document hdocument => ?_
      refine (hnested nested hsome _ document hdocument).bind fun document' hdocument' => ?_
      exact .pure ⟨i.tidy_fields hdocument', nofun⟩

theorem tidy_effect (hexpand : KeepsTidy expandBlock) (hnested : x.NestedTidy) (hd : d.Tidy)
    (hscope : Scope.Tidy scope) : Ensures (x.effect expandBlock d scope) Effect.Tidy := by
  unfold effect
  split
  · exact tidy_define hexpand hd hscope
  · exact tidy_apply hscope
  · exact tidy_includeDocument hnested

/-! ## All directives -/

/-- An object whose directives are running, in the place of another, with what it sees. -/
structure StageTidy (o : Object) (stage : Stage) : Prop where
  object : o.Replaces stage.object
  scope : Scope.Tidy stage.scope

theorem StageTidy.combineAll {o : Object} {stage : Stage} {fields : Fields}
    (h : StageTidy o stage) (method : Method) (hfields : ∀ field ∈ fields, field.2.Tidy) :
    o.Replaces (stage.object.combineAll method fields) :=
  ⟨h.object.tidy.combineAll method hfields,
    (Object.name_combineAll method fields stage.object).trans h.object.name_eq⟩

theorem StageTidy.on {o : Object} {stage : Stage} {e : Effect} (h : StageTidy o stage)
    (he : e.Tidy) : StageTidy o (e.on stage) := by
  refine ⟨h.combineAll e.method he.fields, ?_⟩
  intro entry hmem
  rcases List.mem_append.mp hmem with hmem | hmem
  · exact he.fragments entry hmem
  · exact h.scope entry hmem

theorem tidy_runAll {o : Object} (hexpand : KeepsTidy expandBlock) (hnested : x.NestedTidy)
    {directives : List Directive} {placed : Nat} {literal : Fields} {stage : Stage}
    (hstage : StageTidy o stage) (hliteral : ∀ field ∈ literal, field.2.Tidy)
    (hdirectives : ∀ d ∈ directives, d.Tidy) :
    Ensures (x.runAll expandBlock placed literal stage directives) (StageTidy o) := by
  induction directives generalizing placed literal stage with
  | nil =>
      rw [runAll]
      exact .pure ⟨hstage.combineAll .merge hliteral, hstage.scope⟩
  | cons d directives ih =>
      rw [runAll]
      -- the fields above the directive are merged before it runs
      have hdue : ∀ field ∈ literal.take (d.offset - placed), field.2.Tidy :=
        fun field hmem => hliteral field (List.mem_of_mem_take hmem)
      have hstage' : StageTidy o { stage with
          object := stage.object.combineAll .merge (literal.take (d.offset - placed)) } :=
        ⟨hstage.combineAll .merge hdue, hstage.scope⟩
      refine Ensures.bind ?_ fun stage' hstage' => ih hstage'
        (fun field hmem => hliteral field (List.mem_of_mem_drop hmem))
        fun other hmem => hdirectives other (List.mem_cons_of_mem _ hmem)
      refine (tidy_effect hexpand hnested (hdirectives d List.mem_cons_self) hstage'.scope).bind
        fun e he => .pure (hstage'.on he)

theorem tidy_expandObject (hnested : x.NestedTidy) (weight : Nat) :
    KeepsTidy (x.expandObject weight) := by
  induction weight with
  | zero => exact fun scope o _ ho => .pure ⟨ho, rfl⟩
  | succ weight ih =>
      intro scope o hscope ho
      have hblock : KeepsTidy (Object.descend (x.expandObject weight)) :=
        fun scope o hscope ho => tidy_descend ih hscope ho
      have hbare : StageTidy o ⟨{ o with fields := [], directives := [] }, scope⟩ :=
        ⟨⟨.mk' ho.label .nil nofun, rfl⟩, hscope⟩
      rw [expandObject]
      refine (tidy_runAll hblock hnested hbare ho.fields.nodes ho.directives).bind
        fun stage hstage => ?_
      refine (tidy_descend ih hstage.scope hstage.object.tidy).mono fun o' ho' => ?_
      exact ⟨ho'.tidy, ho'.name_eq.trans hstage.object.name_eq⟩

theorem tidy_expand (hnested : x.NestedTidy) {o : Object} (h : o.Tidy) :
    Ensures (x.expand o) Object.Tidy :=
  (tidy_descend (tidy_expandObject hnested o.weight) (List.forall_mem_nil _) h).mono
    fun _ ho => ho.tidy

end Expander

/-! ## Whole documents -/

theorem Scene.tidy_expandWithin (scene : Scene m) (budget : Nat) (directory : String) {o : Object}
    (h : o.Tidy) : Ensures (scene.expandWithin budget directory o) Object.Tidy := by
  induction budget generalizing directory o with
  | zero =>
      refine Expander.tidy_expand ?_ h
      rintro nested ⟨⟩
  | succ budget ih =>
      -- an included document is expanded within what is left
      refine Expander.tidy_expand ?_ h
      rintro nested ⟨⟩ directory o ho
      exact ih directory ho

/-- **What a document expands to is tidy.** -/
theorem Scene.tidy_expand (scene : Scene m) (directory : String) {o : Object} (h : o.Tidy) :
    Ensures (scene.expand directory o) Object.Tidy :=
  scene.tidy_expandWithin includeLimit directory h

end ConfigLang
