import Mathlib
import ConfigLang.Proofs.Expand.Placing
import ConfigLang.Proofs.Expand.Pruned
import ConfigLang.Proofs.Parse.Ordered
import ConfigLang.Proofs.Tree.Layers
import ConfigLang.Source.FileTree

/-!
# Directives stay in order

A document is parsed with its directives in order.  Expansion lays its objects over others, merges
into them and moves their directives, all before these run.  `Scene.Reaches` says which objects it
comes to that way, from one directive to the next, in blocks of fragments and in included documents.

The directives of all of them stand in order (`Scene.reaches_inOrder`).  What carries this through
is `Stage.Sound`: reading one more item of an object keeps it, and so does reading them all
(`Stage.Sound.of_read`).
-/

namespace ConfigLang

open Running

/-! ## Stages -/

/-- An object whose directives are running is tidy and in order, and so is what it sees. -/
structure Stage.Sound (stage : Stage) : Prop where
  tidy : stage.object.Tidy
  ordered : stage.object.Ordered
  scope : Scope.Tidy stage.scope
  plain : Scope.Plain stage.scope

namespace Stage.Sound

variable {stage : Stage}

theorem combine {node : Node} (h : stage.Sound) (method : Method) (htidy : node.Tidy)
    (hnode : node.Ordered) :
    Sound { stage with object := stage.object.combine method node } :=
  ⟨h.tidy.combine method htidy, h.ordered.combine method htidy hnode, h.scope, h.plain⟩

/-- What directives bring has no directives itself. -/
theorem on {e : Effect} (h : stage.Sound) (hplain : e.Plain) (htidy : e.Tidy) :
    (e.on stage).Sound := by
  have harrivals : ∀ a ∈ e.arrivals, a.node.Tidy ∧ a.node.Ordered :=
    List.forall_mem_map.mpr fun field hfield =>
      ⟨htidy.fields field hfield, Node.Ordered.of_weightFields hplain.fields field hfield⟩
  rw [Effect.on_eq]
  exact ⟨h.tidy.combineEach fun a ha => (harrivals a ha).1, h.ordered.combineEach harrivals,
    List.forall_mem_append.mpr ⟨htidy.fragments, h.scope⟩,
    List.forall_mem_append.mpr ⟨hplain.fragments, h.plain⟩⟩

/-- An object whose fields are still to come back. -/
theorem bare (h : stage.Sound) :
    Sound ⟨{ stage.object with fields := [], directives := [] }, stage.scope⟩ :=
  ⟨.mk' h.tidy.label .nil nofun, .of_fields rfl nofun, h.scope, h.plain⟩

end Stage.Sound

/-- An item that keeps an object tidy and in order. -/
def Item.Sound : Item → Prop
  | field node => node.Tidy ∧ node.Ordered
  | directive d => d.Tidy

theorem Item.mem_directives {items : List Item} {d : Directive} :
    d ∈ Item.directives items ↔ .directive d ∈ items := by
  rw [Item.directives, List.mem_filterMap]
  constructor
  · rintro ⟨item, hmem, hitem⟩
    cases item with
    | field node => cases hitem
    | directive d' =>
        cases hitem
        exact hmem
  · exact fun h => ⟨_, h, rfl⟩

theorem Stage.Sound.items {stage : Stage} (h : stage.Sound) :
    ∀ item ∈ stage.object.items, item.Sound := by
  intro item hitem
  cases item with
  | field node =>
      obtain ⟨entry, hentry, rfl⟩ := Item.mem_interleave.mp hitem
      exact ⟨h.tidy.fields.nodes entry hentry, h.ordered.nodes entry hentry⟩
  | directive d =>
      rw [← Item.mem_directives, stage.object.directives_items] at hitem
      exact h.tidy.directives d hitem

/-! ## Reading -/

section

variable {σ : Type} {x : Expander (StateM σ)} {stage stage' : Stage} {s s' : σ}

theorem Stage.Sound.of_run (hx : x.IncludesPlain) (hnested : x.NestedTidy) (h : stage.Sound)
    {d : Directive} (hd : d.Tidy)
    (hrun : (x.run (Object.descend x.expandFully) d stage).run.run s = (.ok stage', s')) :
    stage'.Sound := by
  obtain ⟨e, s₁, he, hrun⟩ := run_bind_eq_ok hrun
  have hplain := (hx.plain_effect h.plain d).of_run he
  have hexpand := Expander.tidy_expandFully hnested
  have htidy := (Expander.tidy_effect hexpand hnested hd h.scope).of_run he
  cases hrun
  exact h.on hplain htidy

/-- **Reading an object keeps it in order**, with all that has been merged into its fields. -/
theorem Stage.Sound.of_read (hx : x.IncludesPlain) (hnested : x.NestedTidy) {items : List Item}
    (h : stage.Sound) (hitems : ∀ item ∈ items, item.Sound)
    (hrun : (x.read (Object.descend x.expandFully) stage items).run.run s = (.ok stage', s')) :
    stage'.Sound := by
  induction items generalizing stage s with
  | nil =>
      cases hrun
      exact h
  | cons item items ih =>
      obtain ⟨hitem, hrest⟩ := List.forall_mem_cons.mp hitems
      cases item with
      | field node => exact ih (h.combine .merge hitem.1 hitem.2) hrest hrun
      | directive d =>
          obtain ⟨stage₁, s₁, hd, hrun⟩ := run_bind_eq_ok hrun
          exact ih (h.of_run hx hnested hitem hd) hrest hrun

end

/-! ## Reaching -/

/-- A place that expansion comes to: an object with the fragments that it sees, in a document in a
directory, whose includes may be nested `budget` levels deeper. -/
structure Visit extends Stage where
  directory : String
  budget : Nat

section

variable {σ : Type}

namespace Visit

variable (scene : Scene (StateM σ)) (visit : Visit)

/-- What expands the document of a visit. -/
def expander : Expander (StateM σ) :=
  scene.expander visit.directory visit.budget

/-- The object of a visit without the fields, which are still to come back. -/
def bare : Stage :=
  ⟨{ visit.object with fields := [], directives := [] }, visit.scope⟩

/-- Reads some items of the object of a visit. -/
def read (stage : Stage) (items : List Item) : Expansion (StateM σ) Stage :=
  (visit.expander scene).read (Object.descend (visit.expander scene).expandFully) stage items

/-- Runs directives, with some fields in step with them. -/
def runAll (placed : Nat) (literal : Fields) (stage : Stage) (ds : List Directive) :
    Expansion (StateM σ) Stage :=
  (visit.expander scene).runAll (Object.descend (visit.expander scene).expandFully) placed literal
    stage ds

/-- Runs a directive. -/
def run (d : Directive) (stage : Stage) : Expansion (StateM σ) Stage :=
  (visit.expander scene).run (Object.descend (visit.expander scene).expandFully) d stage

/-- Expands the object of a visit. -/
def expand : Expansion (StateM σ) Object :=
  (visit.expander scene).expandFully visit.scope visit.object

end Visit

/-- What the expansion of a document comes to. An object is come to with what it holds so far, and
may still change before it is expanded. -/
inductive Scene.Reaches (scene : Scene (StateM σ)) (directory : String) (root : Object) :
    Visit → Prop
  | document : Reaches scene directory root ⟨⟨root, []⟩, directory, includeLimit⟩
  /-- Some items of an object have been read, fields and directives. -/
  | reading {visit : Visit} {above below : List Item} {stage : Stage} {s s' : σ}
    (h : Reaches scene directory root visit) (hitems : visit.object.items = above ++ below)
    (hrun : (visit.read scene visit.bare above).run.run s = (.ok stage, s')) :
    Reaches scene directory root { visit with toStage := stage }
  /-- An object stands in a field of another one whose directives have run. -/
  | inside {visit : Visit} {field : String × Node} {o : Object}
    (h : Reaches scene directory root visit) (hnone : visit.object.directives = [])
    (hfield : field ∈ visit.object.fields) (ho : .object o ∈ field.2.flatten) :
    Reaches scene directory root { visit with object := o }
  /-- The block of a fragment is defined behind some items. -/
  | fragment {visit : Visit} {above below : List Item} {d : Directive} {arg : Argument Payload}
    {block : Object} {stage : Stage} {s s' : σ} (h : Reaches scene directory root visit)
    (hitems : visit.object.items = above ++ .directive d :: below) (hkind : d.kind = .definition)
    (hrun : (visit.read scene visit.bare above).run.run s = (.ok stage, s')) (harg : arg ∈ d.args)
    (hblock : arg.value = .block block) :
    Reaches scene directory root { visit with object := block, scope := stage.scope }
  /-- A document is included. It sees no fragments. -/
  | included {visit : Visit} {budget level : Nat} {d : Directive} {i : Include}
    {content : ByteArray} {inner : String} {document : Object} {s₁ s₁' s₂ s₂' : σ}
    (h : Reaches scene directory root visit) (hbudget : visit.budget = budget + 1)
    (hd : d ∈ visit.object.directives) (hkind : d.kind = .inclusion)
    (hread : (d.readInclude scene).run.run s₁ = (.ok i, s₁'))
    (hfetch : (scene.source.fetch level visit.directory i.location).run s₂ =
      (.ok (content, inner), s₂')) (hparse : i.parse content = .ok document) :
    Reaches scene directory root ⟨⟨document, []⟩, inner, budget⟩

variable {scene : Scene (StateM σ)} {directory : String} {root : Object} {visit : Visit}

theorem Visit.sound_of_read {above below : List Item} {stage : Stage} {s s' : σ}
    (h : visit.Sound) (hitems : visit.object.items = above ++ below)
    (hrun : (visit.read scene visit.bare above).run.run s = (.ok stage, s')) : stage.Sound := by
  have habove : ∀ item ∈ above, item.Sound :=
    fun item hmem => h.items item (hitems ▸ List.mem_append_left below hmem)
  exact h.bare.of_read (scene.includesPlain_expander visit.directory visit.budget)
    (scene.nestedTidy_expander visit.directory visit.budget) habove hrun

theorem Scene.Reaches.sound (h : scene.Reaches directory root visit) (htidy : root.Tidy)
    (hordered : root.Ordered) : visit.Sound := by
  induction h with
  | document => exact ⟨htidy, hordered, List.forall_mem_nil _, List.forall_mem_nil _⟩
  | reading _ hitems hrun ih => exact Visit.sound_of_read ih hitems hrun
  | @inside visit field o _ _ hfield ho ih =>
      have htidy := (ih.tidy.fields.nodes field hfield).flatten _ ho
      have hordered := (ih.ordered.nodes field hfield).flatten _ ho
      exact ⟨htidy.tidy.of_object, hordered.of_object, ih.scope, ih.plain⟩
  | @fragment visit above below d arg block stage _ _ _ hitems _ hrun harg hblock ih =>
      have hstage := Visit.sound_of_read ih hitems hrun
      have hd : d ∈ visit.object.directives := by
        rw [← visit.object.directives_items, Item.mem_directives, hitems]
        exact List.mem_append_right _ List.mem_cons_self
      exact ⟨ih.tidy.directives d hd arg harg block hblock,
        ih.ordered.blocks d hd arg harg block hblock, hstage.scope, hstage.plain⟩
  | included _ _ _ _ _ _ hparse =>
      obtain ⟨text, -, htext⟩ := Include.exists_text hparse
      exact ⟨tidy_parseDocument htext, ordered_parseDocument htext, List.forall_mem_nil _,
        List.forall_mem_nil _⟩

/-- How the object of a visit is expanded, if it has directives. -/
structure Visit.Expands (scene : Scene (StateM σ)) (visit : Visit) : Prop where
  /-- The fields come back in step with the directives, and then the objects inside are expanded. -/
  expand : visit.object.directives ≠ [] → visit.expand scene = do
    let stage ← visit.runAll scene 0 visit.object.fields visit.bare visit.object.directives
    stage.object.descend (visit.expander scene).expandFully stage.scope
  /-- That is to read the items of the object in order. -/
  read : visit.runAll scene 0 visit.object.fields visit.bare visit.object.directives =
    visit.read scene visit.bare visit.object.items
  /-- A directive runs behind the first `offset` fields, and nothing but these and the directives
  above it. -/
  split : ∀ above d below, visit.object.directives = above ++ d :: below →
    visit.runAll scene 0 visit.object.fields visit.bare visit.object.directives = do
      let stage ← visit.runAll scene 0 (visit.object.fields.take d.offset) visit.bare above
      let stage ← visit.run scene d stage
      visit.runAll scene d.offset (visit.object.fields.drop d.offset) stage below

theorem Stage.Sound.expands (h : visit.Sound) : visit.Expands scene where
  expand hne := by
    have hx := scene.includesPlain_expander visit.directory visit.budget
    rw [Visit.runAll, Expander.runAll_eq_read]
    change _ = Expander.read _ _ visit.bare visit.object.items >>= _
    rw [Expander.read_eq, visit.object.directives_items]
    simp only [bind_assoc, pure_bind]
    exact hx.expandFully_eq h.plain hne
  read := Expander.runAll_eq_read _ _ _ _
  split above d below hsplit := by
    have hsorted := h.ordered.sorted
    rw [hsplit] at hsorted ⊢
    exact Expander.runAll_split hsorted (fun _ _ => Nat.zero_le _) _ _

/-- **Directives stay in order.** The directives of every object of a document stand in the order of
their offsets and behind fields that there are, in the blocks of fragments as well.  So they do in
every object that expansion comes to, whatever it has been laid over and whatever has been merged
into it.  Therefore with each step that is counted one of its fields is put in place, each of them
once, and each directive runs behind the first `offset` of them. -/
theorem Scene.reaches_inOrder {text : String} {root : Object} (h : parseDocument text = .ok root)
    (scene : Scene (StateM σ)) (directory : String) :
    (∀ o : Object, o.Within root → o.InOrder) ∧
      ∀ visit : Visit, scene.Reaches directory root visit →
        (∀ o : Object, o.Within visit.object → o.InOrder) ∧ visit.Expands scene := by
  have hordered := ordered_parseDocument h
  refine ⟨fun o ho => (hordered.of_within ho).inOrder, fun visit hvisit => ?_⟩
  have hsound := hvisit.sound (tidy_parseDocument h) hordered
  exact ⟨fun o ho => (hsound.ordered.of_within ho).inOrder, hsound.expands⟩

/-- The object `s` is laid over one that a fragment has brought: its directive, which stands behind
`j`, is moved behind `k` as well. -/
theorem Scene.reaches_inOrder_of_overlay :
    ∃ (scene : Scene (StateM Unit)) (root : Object) (visit : Visit),
      parseDocument ".define(f, { s { k = 1 } })\n.apply(f)\ns \x7b j = 2\n.apply(f) \x7d\n" =
        .ok root ∧
      scene.Reaches "" root visit ∧ Keyed.keys visit.object.fields = ["k", "j"] ∧
      visit.object.directives.map (·.offset) = [2] ∧ visit.object.InOrder ∧
      visit.Expands scene := by
  let scene : Scene (StateM Unit) :=
    ⟨(FileTree.mk [] []).host, (FileTree.mk [] []).source, .ofBase .empty⟩
  let start (root : Object) : Visit := ⟨⟨root, []⟩, "", includeLimit⟩
  have hfound : (parseDocument
      ".define(f, { s { k = 1 } })\n.apply(f)\ns \x7b j = 2\n.apply(f) \x7d\n").toOption.any
        (fun root => (((start root).read scene (start root).bare root.items).run.run
          ()).1.toOption.any fun stage => stage.object.directives.isEmpty &&
            (stage.object.inside? ["s"]).any fun o =>
              Keyed.keys o.fields = ["k", "j"] ∧ o.directives.map (·.offset) = [2]) = true := by
    decide +kernel
  obtain ⟨root, hparse, hfound⟩ := exists_of_any hfound
  obtain ⟨stage, s', hrun, hstage⟩ := exists_of_any_run hfound
  obtain ⟨hnone, hmoved⟩ := Bool.and_eq_true_iff.mp hstage
  obtain ⟨o, hinside, hmoved⟩ := (Option.any_eq_true ..).mp hmoved
  obtain ⟨hkeys, hoffsets⟩ := of_decide_eq_true hmoved
  obtain ⟨inner, hget, hinner⟩ := Object.exists_of_inside?_cons hinside
  obtain rfl : inner = o := Option.some.inj hinner
  have hread : scene.Reaches "" root { start root with toStage := stage } :=
    .reading .document (List.append_nil _).symm hrun
  have hreached : scene.Reaches "" root { start root with object := inner, scope := stage.scope } :=
    hread.inside (List.isEmpty_iff.mp hnone) (Keyed.mem_of_get? hget) (List.mem_singleton_self _)
  obtain ⟨-, hvisits⟩ := Scene.reaches_inOrder hparse scene ""
  obtain ⟨hinOrder, hexpands⟩ := hvisits _ hreached
  exact ⟨scene, root, _, hparse, hreached, hkeys, hoffsets, hinOrder inner .refl, hexpands⟩

end

end ConfigLang
