import Mathlib
import ConfigLang.Proofs.Expand.Tidy
import ConfigLang.Proofs.Parse.Spelled

/-!
# The names in an expanded tree

Besides the identifiers of texts there are the names that directives give (`Directive.Gives`): that
of an include to the object that its content becomes, by default the name of its file, and that of
the definition of an expression to the option that it is applied as.  They are the same wherever the
directive runs, since its arguments see the base variables and nothing else.

So the names in an expanded tree are those of the texts that it comes from, and those that the
directives in them give (`Scene.spelled_expand`).  The chain of lemmas is that of `Tidy`.
-/

namespace ConfigLang

open Running

/-- A directive gives a name to what it brings. -/
inductive Directive.Gives (scene : Scene Id) (d : Directive) : String → Prop
  | inclusion {i : Include} (hkind : d.kind = .inclusion)
      (hinclude : (d.readInclude scene).run.run = .ok i) (hname : i.name ≠ "") :
      Gives scene d i.name
  | definition {args : List (String × Payload)} {payload : Payload} {name : String} {e : Expr}
      (hkind : d.kind = .definition)
      (hargs : Directive.bindArgs ["name", "fragment"] 0 [] d.args = .ok args)
      (hpayload : Keyed.get? args "name" = some payload)
      (hname : (d.nameOf scene "name" payload).run.run = .ok name)
      (hfragment : Keyed.get? args "fragment" = some (.expr e)) : Gives scene d name

/-- The names that a directive gives satisfy `P`. -/
def Directive.GivesOnly (scene : Scene Id) (P : String → Prop) (d : Directive) : Prop :=
  ∀ name, d.Gives scene name → P name

/-- A source serves a text to some include. -/
def Source.Serves (source : Source Id) (text : String) : Prop :=
  ∃ level directory location content next,
    (source.fetch level directory location).run = .ok (content, next) ∧
      String.fromUTF8? content = some text

/-- The names in an object satisfy `P`, and so do those that its directives give. -/
def Scene.Spells (scene : Scene Id) (P : String → Prop) (o : Object) : Prop :=
  o.Spelled P (Directive.GivesOnly scene P)

/-- All documents that are served are spelled. -/
def Scene.ServesSpelled (scene : Scene Id) (P : String → Prop) : Prop :=
  ∀ text, scene.source.Serves text → ∀ root, parseDocument text = .ok root → scene.Spells P root

variable {scene : Scene Id} {P : String → Prop}

/-- The blocks that a scope makes visible are spelled, and so are the names of its expressions. -/
def Scene.SpellsScope (scene : Scene Id) (P : String → Prop) (scope : Scope) : Prop :=
  ∀ entry ∈ scope, match entry.2 with
    | .block block => scene.Spells P block
    | .value _ => P entry.1

/-- A way to expand objects keeps them spelled, and keeps their names. -/
def Scene.KeepsSpelled (scene : Scene Id) (P : String → Prop)
    (expand : Scope → Object → Expansion Id Object) : Prop :=
  ∀ scope o, scene.SpellsScope P scope → scene.Spells P o →
    Ensures (expand scope o) fun o' => scene.Spells P o' ∧ o'.name = o.name

/-! ## Objects inside a tree -/

section Descend

variable {expand : Scope → Object → Expansion Id Object} {scope : Scope} {Q : Directive → Prop}

mutual

theorem spelled_descend
    (hexpand : ∀ o, o.Spelled P Q → Ensures (expand scope o) fun o' =>
      o'.Spelled P Q ∧ o'.name = o.name) :
    ∀ {o : Object}, o.Spelled P Q →
      Ensures (o.descend expand scope) fun o' => o'.Spelled P Q ∧ o'.name = o.name
  | ⟨_, _, _, [], _, _, _⟩, h => by
    rw [Object.descend]
    refine (spelled_descendFields hexpand h.fields).bind fun fields hfields => ?_
    exact .pure ⟨.mk' h.label hfields h.directives, rfl⟩
  | ⟨_, _, _, d :: ds, _, _, _⟩, h => by
    rw [Object.descend]
    · exact hexpand _ h
    · exact List.cons_ne_nil d ds

theorem spelled_descendFields
    (hexpand : ∀ o, o.Spelled P Q → Ensures (expand scope o) fun o' =>
      o'.Spelled P Q ∧ o'.name = o.name) :
    ∀ {fields : Fields}, Fields.Spelled P Q fields →
      Ensures (descendFields expand scope fields) (Fields.Spelled P Q)
  | [], _ => by
    rw [descendFields]
    exact .pure .nil
  | (key, node) :: fields, h => by
    obtain ⟨hkey, hkeys⟩ := List.forall_mem_cons.mp h.keys
    obtain ⟨hnode, hnodes⟩ := List.forall_mem_cons.mp h.nodes
    rw [descendFields]
    refine (spelled_descendNode hexpand hnode).bind fun node' hnode' => ?_
    refine (spelled_descendFields hexpand ⟨hkeys, hnodes⟩).bind fun fields' hfields' => ?_
    exact .pure ⟨List.forall_mem_cons.mpr ⟨hkey, hfields'.keys⟩,
      List.forall_mem_cons.mpr ⟨hnode', hfields'.nodes⟩⟩

theorem spelled_descendNode
    (hexpand : ∀ o, o.Spelled P Q → Ensures (expand scope o) fun o' =>
      o'.Spelled P Q ∧ o'.name = o.name) :
    ∀ {node : Node}, node.Spelled P Q → Ensures (node.descend expand scope) (Node.Spelled P Q)
  | .option _, h => by
    rw [Node.descend]
    exact .pure h
  | .object o, h => by
    rw [Node.descend]
    refine (spelled_descend hexpand h.of_object).bind fun o' ho => ?_
    exact .pure (.object (ho.2 ▸ h.name) ho.1)
  | .list _ items, h => by
    rw [Node.descend]
    exact (spelled_descendItems hexpand h.items).bind fun items' hitems => .pure (.list h.name hitems)

theorem spelled_descendItems
    (hexpand : ∀ o, o.Spelled P Q → Ensures (expand scope o) fun o' =>
      o'.Spelled P Q ∧ o'.name = o.name) :
    ∀ {items : List Node}, (∀ item ∈ items, item.Spelled P Q) →
      Ensures (descendItems expand scope items) fun items' => ∀ item ∈ items', item.Spelled P Q
  | [], _ => by
    rw [descendItems]
    exact .pure nofun
  | item :: items, h => by
    obtain ⟨hitem, hitems⟩ := List.forall_mem_cons.mp h
    rw [descendItems]
    refine (spelled_descendNode hexpand hitem).bind fun item' hitem' => ?_
    refine (spelled_descendItems hexpand hitems).bind fun items' hitems' => ?_
    exact .pure (List.forall_mem_cons.mpr ⟨hitem', hitems'⟩)

end

end Descend

/-! ## One directive -/

/-- What a directive brings is spelled. -/
structure Scene.SpellsEffect (scene : Scene Id) (P : String → Prop) (e : Effect) : Prop where
  fields : ∀ field ∈ e.fields, field.2.Spelled P (Directive.GivesOnly scene P)
  fragments : scene.SpellsScope P e.fragments

/-- The names that a directive gives satisfy `P`, and the blocks among its arguments are spelled. -/
def Scene.SpellsDirective (scene : Scene Id) (P : String → Prop) (d : Directive) : Prop :=
  d.Spelled P (Directive.GivesOnly scene P)

namespace Directive

variable {d : Directive} {bound : List (String × Payload)}

theorem bindArgs_of_bind {params : List String}
    (h : (d.bind params : Expansion Id _).run.run = .ok bound) :
    bindArgs params 0 [] d.args = .ok bound := by
  change (bindArgs params 0 [] d.args).mapError d.invalid = .ok bound at h
  cases hargs : bindArgs params 0 [] d.args with
  | error fault =>
      rw [hargs] at h
      cases h
  | ok out =>
      rw [hargs] at h
      cases h
      rfl

theorem get?_of_required {parameter : String} {payload : Payload}
    (h : (d.required bound parameter : Expansion Id _).run.run = .ok payload) :
    Keyed.get? bound parameter = some payload := by
  unfold required at h
  split at h
  · cases h
    assumption
  · cases h

end Directive

namespace Include

theorem spells_parse (i : Include) {content : ByteArray} {document : Object}
    (hserved : scene.ServesSpelled P)
    (hcontent : ∀ text, String.fromUTF8? content = some text → scene.source.Serves text)
    (h : i.parse content = .ok document) : scene.Spells P document := by
  obtain ⟨text, htext, hparse⟩ := exists_text h
  exact hserved text (hcontent text htext) _ hparse

theorem spells_fields (i : Include) {document : Object} (hname : i.name ≠ "" → P i.name)
    (h : scene.Spells P document) :
    ∀ field ∈ i.fields document, field.2.Spelled P (Directive.GivesOnly scene P) := by
  unfold fields
  split
  · exact h.fields.nodes
  · rename_i hne
    exact List.forall_mem_singleton.mpr
      (.object (hname hne) (.mk' h.label h.fields h.directives))

end Include

namespace Expander

variable {x : Expander Id} {expandBlock : Scope → Object → Expansion Id Object} {d : Directive}
  {scope : Scope}

theorem spelled_define (hexpand : x.KeepsSpelled P expandBlock) (hkind : d.kind = .definition)
    (hd : x.SpellsDirective P d) (hscope : x.SpellsScope P scope) :
    Ensures (x.define expandBlock d scope) (x.SpellsEffect P) := by
  unfold define
  refine (ensures_run _).bind fun args hargs => ?_
  have hargs := Directive.bindArgs_of_bind hargs
  have hblocks : ∀ entry ∈ args, ∀ block, entry.2 = .block block → x.Spells P block :=
    Directive.forall_bindArgs (P := fun payload => ∀ block, payload = .block block →
      x.Spells P block) (List.forall_mem_nil _) hd.blocks hargs
  refine (ensures_run _).bind fun payload hpayload => ?_
  refine (ensures_run _).bind fun name hname => ?_
  refine (ensures_run _).bind fun fragment hfragment => ?_
  have hpayload := Directive.get?_of_required hpayload
  have hfragment := Directive.get?_of_required hfragment
  cases fragment with
  | ident ident =>
      -- a name alone is nothing that can be defined
      exact (Ensures.throw _).bind (P := fun _ => False) fun _ hfalse => hfalse.elim
  | expr e =>
      dsimp only
      rw [pure_bind]
      have hgiven : P name := hd.self d.offset name (.definition hkind hargs hpayload hname hfragment)
      exact .pure ⟨nofun, List.forall_mem_singleton.mpr hgiven⟩
  | block o =>
      have ho := hblocks _ (Keyed.mem_of_get? hfragment) o rfl
      refine (hexpand scope o hscope ho).bind fun o' ho' => ?_
      rw [pure_bind]
      exact .pure ⟨nofun, List.forall_mem_singleton.mpr ho'.1⟩

theorem spelled_apply (hscope : x.SpellsScope P scope) :
    Ensures (x.apply d scope) (x.SpellsEffect P) := by
  unfold apply
  refine .bind_of fun args => .bind_of fun _ => .bind_of fun name => .bind_of fun method => ?_
  split
  · exact .throw _
  · rename_i e hlookup
    have hname : P name := hscope _ (Keyed.mem_of_get? hlookup)
    exact .pure ⟨List.forall_mem_singleton.mpr (.option hname), nofun⟩
  · rename_i block hlookup
    have hblock : x.Spells P block := hscope _ (Keyed.mem_of_get? hlookup)
    have hselect : Ensures (x.selectFields d args block) (x.Spells P) := by
      refine x.ensures_selectFields d args (fun o keep ho => ?_) (fun o depth ho => ho.truncate depth)
        hblock
      exact ho.with_fields (ho.fields.subset (List.filter_subset_self _))
    exact hselect.bind fun block' hblock' => .pure ⟨hblock'.fields.nodes, nofun⟩

/-- Documents that are included stay spelled. -/
def NestedSpelled (x : Expander Id) (P : String → Prop) : Prop :=
  ∀ nested ∈ x.nested?, ∀ directory o, x.Spells P o → Ensures (nested directory o) (x.Spells P)

theorem spelled_includeDocument (hkind : d.kind = .inclusion) (hserved : x.ServesSpelled P)
    (hnested : x.NestedSpelled P) (hd : x.SpellsDirective P d) :
    Ensures (x.includeDocument d) (x.SpellsEffect P) := by
  unfold includeDocument
  refine (ensures_run _).bind fun i hi => ?_
  have hname (hne : i.name ≠ "") : P i.name := hd.self d.offset i.name (.inclusion hkind hi hne)
  split
  · exact .throw _
  · rename_i nested hsome
    refine (ensures_run _).bind fun fetched hfetched => ?_
    have hfetched : .ok (x.source.fetch x.level x.directory i.location).run =
        (.ok fetched : Except ExpansionError _) := hfetched
    split
    · split
      · exact .throw _
      · exact .pure ⟨nofun, nofun⟩
    · rename_i content directory hfetched
      have hparse : Ensures (ExceptT.mk (pure (i.parse content)) : Expansion Id Object)
          (x.Spells P) := .of_except fun document h => i.spells_parse hserved
            (fun text htext => ⟨_, _, _, content, directory, Except.ok.inj hfetched, htext⟩) h
      refine hparse.bind fun document hdocument => ?_
      refine (hnested nested hsome _ document hdocument).bind fun document' hdocument' => ?_
      exact .pure ⟨i.spells_fields hname hdocument', nofun⟩

theorem spelled_effect (hexpand : x.KeepsSpelled P expandBlock) (hserved : x.ServesSpelled P)
    (hnested : x.NestedSpelled P) (hd : x.SpellsDirective P d) (hscope : x.SpellsScope P scope) :
    Ensures (x.effect expandBlock d scope) (x.SpellsEffect P) := by
  unfold effect
  split
  · exact spelled_define hexpand (by assumption) hd hscope
  · exact spelled_apply hscope
  · exact spelled_includeDocument (by assumption) hserved hnested hd

/-! ## All directives -/

/-- An object whose directives are running, in the place of another, with what it sees. -/
structure StageSpelled (x : Expander Id) (P : String → Prop) (name : String) (stage : Stage) :
    Prop where
  object : x.Spells P stage.object
  named : stage.object.name = name
  scope : x.SpellsScope P stage.scope

variable {name : String} {stage : Stage} {fields : Fields}

theorem StageSpelled.combineAll (h : StageSpelled x P name stage) (method : Method)
    (hfields : ∀ field ∈ fields, field.2.Spelled P (Directive.GivesOnly x.toScene P)) :
    StageSpelled x P name { stage with object := stage.object.combineAll method fields } :=
  ⟨h.object.combineAll method hfields,
    (Object.name_combineAll method fields stage.object).trans h.named, h.scope⟩

theorem StageSpelled.on {e : Effect} (h : StageSpelled x P name stage) (he : x.SpellsEffect P e) :
    StageSpelled x P name (e.on stage) := by
  have hstage := h.combineAll e.method he.fields
  refine ⟨hstage.object, hstage.named, fun entry hmem => ?_⟩
  rcases List.mem_append.mp hmem with hmem | hmem
  · exact he.fragments entry hmem
  · exact h.scope entry hmem

theorem spelled_runAll (hexpand : x.KeepsSpelled P expandBlock) (hserved : x.ServesSpelled P)
    (hnested : x.NestedSpelled P) {directives : List Directive} {placed : Nat} {literal : Fields}
    (hstage : StageSpelled x P name stage)
    (hliteral : ∀ field ∈ literal, field.2.Spelled P (Directive.GivesOnly x.toScene P))
    (hdirectives : ∀ d ∈ directives, x.SpellsDirective P d) :
    Ensures (x.runAll expandBlock placed literal stage directives) (StageSpelled x P name) := by
  induction directives generalizing placed literal stage with
  | nil =>
      rw [runAll]
      exact .pure (hstage.combineAll .merge hliteral)
  | cons d directives ih =>
      obtain ⟨hd, hdirectives⟩ := List.forall_mem_cons.mp hdirectives
      rw [runAll]
      -- the fields above the directive are merged before it runs
      have hdue : ∀ field ∈ literal.take (d.offset - placed),
          field.2.Spelled P (Directive.GivesOnly x.toScene P) :=
        fun field hmem => hliteral field (List.mem_of_mem_take hmem)
      have hstage := hstage.combineAll .merge hdue
      refine Ensures.bind ?_ fun stage' hstage' => ih hstage'
        (fun field hmem => hliteral field (List.mem_of_mem_drop hmem)) hdirectives
      exact (spelled_effect hexpand hserved hnested hd hstage.scope).bind
        fun e he => .pure (hstage.on he)

theorem spelled_expandObject (hserved : x.ServesSpelled P) (hnested : x.NestedSpelled P)
    (weight : Nat) : x.KeepsSpelled P (x.expandObject weight) := by
  induction weight with
  | zero => exact fun scope o _ ho => .pure ⟨ho, rfl⟩
  | succ weight ih =>
      intro scope o hscope ho
      have hblock : x.KeepsSpelled P (Object.descend (x.expandObject weight)) :=
        fun scope o hscope ho => spelled_descend (fun o ho => ih scope o hscope ho) ho
      have hbare : StageSpelled x P o.name ⟨{ o with fields := [], directives := [] }, scope⟩ :=
        ⟨.mk' ho.label .nil nofun, rfl, hscope⟩
      rw [expandObject]
      refine (spelled_runAll hblock hserved hnested hbare ho.fields.nodes ho.directives).bind
        fun stage hstage => ?_
      refine (hblock stage.scope stage.object hstage.scope hstage.object).mono fun o' ho' => ?_
      exact ⟨ho'.1, ho'.2.trans hstage.named⟩

theorem spelled_expand (hserved : x.ServesSpelled P) (hnested : x.NestedSpelled P) {o : Object}
    (h : x.Spells P o) : Ensures (x.expand o) (x.Spells P) :=
  (spelled_descend (fun o ho => spelled_expandObject hserved hnested _ [] o nofun ho) h).mono
    fun _ ho => ho.1

end Expander

/-! ## Whole documents -/

theorem Scene.spelled_expandWithin (hserved : scene.ServesSpelled P) (budget : Nat)
    (directory : String) {o : Object} (h : scene.Spells P o) :
    Ensures (scene.expandWithin budget directory o) (scene.Spells P) := by
  induction budget generalizing directory o with
  | zero =>
      refine Expander.spelled_expand hserved ?_ h
      rintro nested ⟨⟩
  | succ budget ih =>
      -- an included document is expanded within what is left
      refine Expander.spelled_expand hserved ?_ h
      rintro nested ⟨⟩ directory o ho
      exact ih directory ho

/-- **An expanded document has no other names** than the texts that it comes from and the directives
in them. -/
theorem Scene.spelled_expand (hserved : scene.ServesSpelled P) (directory : String) {o : Object}
    (h : scene.Spells P o) : Ensures (scene.expand directory o) (scene.Spells P) :=
  Scene.spelled_expandWithin hserved includeLimit directory h

end ConfigLang
