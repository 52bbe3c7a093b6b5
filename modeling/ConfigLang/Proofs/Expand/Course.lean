import Mathlib
import ConfigLang.Proofs.Expand.Scoping

/-!
# The course of an expansion

The expander takes the directives of an object one after the other, and then the objects
inside, in the order of the text.  A directive that is found in a document need not be run:
one before it may fail, or put something in the place of the object that it stands in.
`Expander.Comes` says which directives the run of an expander comes to, what is visible at
each of them, and in which state it is run:

```text
here     a directive of an object        those above it have run
block    what is in a block              the definition has read its arguments
behind   what is in an object            all of its directives have run
inner    what is in an object inside     the objects before it have been expanded
```

If the directive is an inclusion, what it finds there is another document (`Scene.Finds`):
its arguments are read, content is fetched, and that is parsed.

Two facts about runs are shown by induction.

* **A failure is passed on.**  If a directive fails that the run comes to, the document is
  not expanded (`Expander.Comes.fails`).  The expander that comes to the directive need not
  be the one that fails there.  The second has to follow the first: what the first one
  gives, the second one gives as well, or it fails (`Comparison.follows`).  Expanders with
  more or fewer includes to go are related so.
* **Nothing else fails.**  A document is expanded if every directive that the run comes to
  brings something (`Expander.succeeds_descend`).  Here a directive is taken by itself
  (`Expander.Brings`): its block is not expanded, since the run comes to what is in the
  block.  The induction is on the number of directives that are left, and inside an object
  without directives on its size.

At last, two expanders that include documents alike come to the same directives
(`Expander.Comes.congr`).
-/

namespace ConfigLang

open Running

/-- A document that is still to be expanded, and the directory that its includes are relative
to. -/
structure Draft where
  directory : String
  tree : Object

/-! ## Objects inside an object -/

section

variable {m : Type → Type} [Monad m]

mutual

/-- The objects in a node, but not those inside of them. -/
def Node.objects : Node → List Object
  | .option _ => []
  | .object o => [o]
  | .list _ items => itemObjects items

/-- The objects among some items, but not those inside of them. -/
def itemObjects : List Node → List Object
  | [] => []
  | item :: items => item.objects ++ itemObjects items

end

/-- The objects in some fields, but not those inside of them. -/
def fieldObjects : Fields → List Object
  | [] => []
  | field :: fields => field.2.objects ++ fieldObjects fields

/-- Applies `f` to objects, one after the other. -/
def runEach (f : Object → Expansion m Object) : List Object → Expansion m Unit
  | [] => return ()
  | o :: os => do
    let _ ← f o
    runEach f os

mutual

theorem Node.weight_le_of_mem_objects {o : Object} : ∀ {node : Node}, o ∈ node.objects →
    o.weight ≤ node.weight ∧ sizeOf o < sizeOf node
  | .object o', h => by
    obtain rfl : o = o' := List.mem_singleton.mp h
    exact ⟨Nat.le_refl _, by simp⟩
  | .list name items, h => by
    have hitem : o ∈ itemObjects items := h
    obtain ⟨hweight, hsize⟩ := weight_le_of_mem_itemObjects hitem
    refine ⟨hweight, hsize.trans ?_⟩
    simp only [Node.list.sizeOf_spec]
    omega

theorem weight_le_of_mem_itemObjects {o : Object} : ∀ {items : List Node}, o ∈ itemObjects items →
    o.weight ≤ weightItems items ∧ sizeOf o < sizeOf items
  | item :: items, h => by
    rw [weightItems, List.cons.sizeOf_spec]
    rcases List.mem_append.mp h with h | h
    · have hitem := Node.weight_le_of_mem_objects h
      omega
    · have hitems := weight_le_of_mem_itemObjects h
      omega

end

theorem weight_le_of_mem_fieldObjects {o : Object} {fields : Fields} (h : o ∈ fieldObjects fields) :
    o.weight ≤ weightFields fields ∧ sizeOf o < sizeOf fields := by
  induction fields with
  | nil => cases h
  | cons field fields ih =>
      obtain ⟨key, node⟩ := field
      rw [weightFields, List.cons.sizeOf_spec, Prod.mk.sizeOf_spec]
      rcases List.mem_append.mp h with h | h
      · have hnode := Node.weight_le_of_mem_objects h
        dsimp only at hnode
        omega
      · have hfields := ih h
        omega

theorem Object.weight_le_of_mem_fields (o : Object) {within : Object}
    (h : within ∈ fieldObjects o.fields) :
    within.weight ≤ o.weight ∧ sizeOf within < sizeOf o := by
  obtain ⟨hweight, hsize⟩ := weight_le_of_mem_fieldObjects h
  rw [o.weight_eq]
  refine ⟨hweight.trans (Nat.le_add_right _ _), hsize.trans ?_⟩
  cases o
  simp only [Object.mk.sizeOf_spec]
  omega

variable [LawfulMonad m] (f : Object → Expansion m Object)

theorem runEach_append (os others : List Object) :
    runEach f (os ++ others) = (do
      runEach f os
      runEach f others) := by
  induction os with
  | nil => rw [List.nil_append, runEach, pure_bind]
  | cons o os ih =>
      rw [List.cons_append, runEach, runEach, bind_assoc, ih]

mutual

/-- To apply `f` in a node is to apply it to the objects there. -/
theorem Node.runEach_objects : ∀ node : Node,
    runEach f node.objects = (do
      let _ ← node.eachObject f
      return ())
  | .option binding => by
    rw [Node.eachObject, Node.objects, pure_bind]
    rfl
  | .object o => by
    rw [Node.eachObject, Node.objects, runEach, bind_assoc]
    simp only [pure_bind]
    rfl
  | .list name items => by
    rw [Node.eachObject, Node.objects, bind_assoc, runEach_itemObjects]
    simp only [pure_bind]

theorem runEach_itemObjects : ∀ items : List Node,
    runEach f (itemObjects items) = (do
      let _ ← eachItem f items
      return ())
  | [] => by
    rw [eachItem, pure_bind]
    rfl
  | item :: items => by
    rw [eachItem, itemObjects, runEach_append, Node.runEach_objects, runEach_itemObjects]
    simp only [bind_assoc, pure_bind]

end

theorem runEach_fieldObjects (fields : Fields) :
    runEach f (fieldObjects fields) = (do
      let _ ← eachField f fields
      return ()) := by
  induction fields with
  | nil =>
      rw [eachField, pure_bind]
      rfl
  | cons field fields ih =>
      obtain ⟨key, node⟩ := field
      rw [eachField, fieldObjects, runEach_append, Node.runEach_objects, ih]
      simp only [bind_assoc, pure_bind]

end

/-! ## Definitions -/

section

variable {m : Type → Type} [Monad m]

/-- The arguments of a definition: the name of a fragment, and what it is as it is written. -/
def Directive.readDefinition (d : Directive) (scene : Scene m) :
    Expansion m (String × Payload) := do
  let args ← d.bind ["name", "fragment"]
  let name ← d.nameOf scene "name" (← d.required args "name")
  let payload ← d.required args "fragment"
  return (name, payload)

/-- What a definition makes of its fragment. -/
def Directive.fragment (expandBlock : Scope → Object → Expansion m Object) (d : Directive)
    (scope : Scope) : Payload → Expansion m Fragment
  | .block o => do
    let o ← expandBlock scope o
    return .block o
  | .expr e => return .value e
  | .ident ident => throw (d.invalid (.notFragment ident))

/-- The object behind its directives: the fields that these bring have been combined with its
own. -/
def Object.behind (o : Object) (es : List Effect) : Object :=
  ({ o with fields := [], directives := [] } : Object).combineEach (Item.arrivals o.items es)

namespace Expander

variable [LawfulMonad m] {x : Expander m} {expandBlock : Scope → Object → Expansion m Object}
  {d : Directive} {scope : Scope}

/-- A definition reads its arguments, and then it expands its block. -/
theorem define_eq : x.define expandBlock d scope = (do
    let read ← d.readDefinition x.toScene
    let fragment ← d.fragment expandBlock scope read.2
    return { Effect.none with fragments := [(read.1, fragment)] }) := by
  unfold define Directive.readDefinition
  simp only [bind_assoc, pure_bind]
  refine bind_congr fun args => bind_congr fun payload => bind_congr fun name =>
    bind_congr fun payload => ?_
  cases payload <;> simp only [Directive.fragment, bind_assoc, pure_bind]

omit [LawfulMonad m] in
theorem readDefinition_source (s : Scene m) (source : Source m) :
    d.readDefinition { s with source } = d.readDefinition s := by
  unfold Directive.readDefinition
  simp only [Directive.nameOf_source]

/-- What a definition says that its fragment is stands among its arguments. -/
theorem weight_readDefinition (s : Scene m) :
    Ensures (d.readDefinition s) fun entry => entry.2.weight ≤ weightArgs d.args := by
  have hbound := Directive.ensures_bind (m := m) (P := (·.weight ≤ weightArgs d.args))
    (fun arg hmem => weight_le_of_mem_args hmem) ["name", "fragment"]
  refine hbound.bind fun args hargs => .bind_of fun payload => .bind_of fun name => ?_
  exact (d.ensures_required hargs "fragment").bind fun payload hpayload => .pure hpayload

theorem effects_append (ds others : List Directive) :
    x.effects expandBlock scope (ds ++ others) = (do
      let es ← x.effects expandBlock scope ds
      let rest ← x.effects expandBlock (Effect.visible scope es) others
      return es ++ rest) := by
  induction ds generalizing scope with
  | nil =>
      rw [effects, pure_bind]
      exact (bind_pure _).symm
  | cons d ds ih =>
      rw [List.cons_append, effects, effects]
      simp only [bind_assoc, pure_bind, ih]
      rfl

end Expander

end

/-! ## Runs -/

section

variable {σ α β : Type} {x : Expansion (StateM σ) α} {f : α → Expansion (StateM σ) β} {s s' : σ}

/-- A computation gives a result, if it starts from a state. -/
def Succeeds (x : Expansion (StateM σ) α) (s : σ) : Prop :=
  ∃ a s', x.run.run s = (.ok a, s')

/-- A computation fails, if it starts from a state. -/
def Fails (x : Expansion (StateM σ) α) (s : σ) : Prop :=
  ∃ e s', x.run.run s = (.error e, s')

theorem Fails.bind (h : Fails x s) : Fails (x >>= f) s := by
  obtain ⟨e, s', hrun⟩ := h
  exact ⟨e, s', run_bind_error hrun⟩

theorem Fails.after {a : α} (h : Fails (f a) s') (hx : x.run.run s = (.ok a, s')) :
    Fails (x >>= f) s := by
  obtain ⟨e, s'', hrun⟩ := h
  exact ⟨e, s'', (run_bind_ok hx).trans hrun⟩

theorem Succeeds.after {a : α} (h : Succeeds (f a) s') (hx : x.run.run s = (.ok a, s')) :
    Succeeds (x >>= f) s := by
  obtain ⟨b, s'', hrun⟩ := h
  exact ⟨b, s'', (run_bind_ok hx).trans hrun⟩

/-- What does not fail when it is followed by something does not fail before. -/
theorem Succeeds.of_bind (h : Succeeds (x >>= f) s) : Succeeds x s := by
  obtain ⟨b, s', hrun⟩ := h
  obtain ⟨a, s₁, hx, -⟩ := run_bind_eq_ok hrun
  exact ⟨a, s₁, hx⟩

/-- What fails with nothing but a result made of it behind it fails itself. -/
theorem Fails.of_bind_pure {g : α → β} (h : Fails (x >>= fun a => pure (g a)) s) : Fails x s := by
  cases hrun : x.run.run s with
  | mk r s' =>
      cases r with
      | error e => exact ⟨e, s', hrun⟩
      | ok a =>
          obtain ⟨e, s'', herror⟩ := h
          rw [run_bind_ok hrun] at herror
          cases herror

end

variable {σ : Type}

/-! ## What the run comes to -/

/-- The run of an expander comes to a directive. It has started from a state with an object and the
fragments that are visible there; at the directive there are other fragments and another state. -/
inductive Expander.Comes (x : Expander (StateM σ)) :
    Scope → Object → σ → Directive → Scope → σ → Prop
  /-- The directive is one of the object, and those above it have run. -/
  | here {scope : Scope} {o : Object} {s s' : σ} {above below : List Directive} {d : Directive}
    {es : List Effect} (stands : o.directives = above ++ d :: below)
    (ran : (x.effects (Object.descend x.expandFully) scope above).run.run s = (.ok es, s')) :
    Comes x scope o s d (Effect.visible scope es) s'
  /-- The directive is in a block, and the definition of that has read its arguments. -/
  | block {scope seen scope' : Scope} {o block : Object} {s s₁ s₂ s' : σ} {definition d : Directive}
    {name : String} (comes : Comes x scope o s definition seen s₁)
    (defines : definition.kind = .definition)
    (read : (definition.readDefinition x.toScene).run.run s₁ = (.ok (name, .block block), s₂))
    (inside : Comes x seen block s₂ d scope' s') : Comes x scope o s d scope' s'
  /-- The directive is in a field of the object, all of whose own directives have run. -/
  | behind {scope scope' : Scope} {o : Object} {s s₁ s' : σ} {d : Directive} {es : List Effect}
    (some : o.directives ≠ [])
    (ran : (x.effects (Object.descend x.expandFully) scope o.directives).run.run s = (.ok es, s₁))
    (inside : Comes x (Effect.visible scope es) (o.behind es) s₁ d scope' s') :
    Comes x scope o s d scope' s'
  /-- The directive is in a field of the object, which has none itself, and the objects before it
  have been expanded. -/
  | inner {scope scope' : Scope} {o within : Object} {s s₁ s' : σ} {d : Directive}
    {above below : List Object} (none : o.directives = [])
    (holds : fieldObjects o.fields = above ++ within :: below)
    (ran : (runEach (fun o => o.descend x.expandFully scope) above).run.run s = (.ok (), s₁))
    (inside : Comes x scope within s₁ d scope' s') : Comes x scope o s d scope' s'

namespace Expander

variable {x : Expander (StateM σ)} {scope scope' : Scope} {o : Object} {s s' : σ} {d : Directive}

theorem IncludesPlain.plain_visible (hx : x.IncludesPlain) (hscope : Scope.Plain scope)
    {es : List Effect} {ds : List Directive}
    (h : (x.effects (Object.descend x.expandFully) scope ds).run.run s = (.ok es, s')) :
    Scope.Plain (Effect.visible scope es) :=
  Effect.plain_visible hscope ((hx.plain_effects hscope ds).of_run h)

/-- What is visible at a directive has no directives. -/
theorem Comes.plain (hx : x.IncludesPlain) (h : x.Comes scope o s d scope' s')
    (hscope : Scope.Plain scope) : Scope.Plain scope' := by
  induction h with
  | here _ ran => exact hx.plain_visible hscope ran
  | block _ _ _ _ ih inside => exact inside (ih hscope)
  | behind _ ran _ inside => exact inside (hx.plain_visible hscope ran)
  | inner _ _ _ _ inside => exact inside hscope

/-- A directive that is come to counts. -/
theorem Comes.weight_pos (h : x.Comes scope o s d scope' s') : 0 < o.weight := by
  induction h with
  | here stands _ =>
      have hlt := Object.weightArgs_lt _ (stands ▸ List.mem_append_right _ List.mem_cons_self)
      exact Nat.zero_lt_of_lt hlt
  | block _ _ _ _ ih _ => exact ih
  | behind some _ _ _ => exact Nat.zero_lt_of_lt (Object.weightFields_lt _ some)
  | @inner _ _ o within _ _ _ _ _ _ _ holds _ _ ih =>
      have hmem : within ∈ fieldObjects o.fields := by
        rw [holds]
        exact List.mem_append_right _ List.mem_cons_self
      exact ih.trans_le (o.weight_le_of_mem_fields hmem).1

end Expander

/-! ## A failure is passed on -/

namespace Comparison

/-- Of two computations, the second gives what the first one gives, or it fails. -/
def follows (σ : Type) : Comparison Bool (StateM σ) where
  Holds x P := ∀ s a s', (x false).run.run s = (.ok a, s') →
    P a ∧ ((x true).run.run s = (.ok a, s') ∨ Fails (x true) s)
  const h s a s' hrun := ⟨h.of_run hrun, .inl hrun⟩
  bind {_ _ x f _ _} hx hf s b s' hrun := by
    obtain ⟨a, s₁, hfirst, hrest⟩ := run_bind_eq_ok hrun
    obtain ⟨ha, hsecond⟩ := hx s a s₁ hfirst
    obtain ⟨hb, hrest⟩ := hf a ha s₁ b s' hrest
    refine ⟨hb, ?_⟩
    rcases hsecond with hsecond | hfails
    · rcases hrest with hrest | hfails
      · exact .inl ((run_bind_ok hsecond).trans hrest)
      · exact .inr (hfails.after hsecond)
    · exact .inr hfails.bind

variable {m : Type → Type} [Monad m] [LawfulMonad m] {ι : Type} {c : Comparison ι m} {s : Scene m}
  {y : ι → Expander m}

theorem expandFully (hy : c.Shares s y) (n : Nat) : c.Expands n fun i => (y i).expandFully := by
  intro scope o hscope hne _
  have hunfold :=
    expands_unfold hy (fun _ _ o => pure o) o.weight scope o hscope hne (Nat.le_refl _)
  simp only [Expander.expandFully, Expander.expandObject_eq_unfold]
  exact hunfold

theorem runEach (hy : c.Shares s y) {scope : Scope} (hscope : Scope.Plain scope)
    (os : List Object) :
    c.Holds (fun i => runEach (fun o => o.descend (y i).expandFully scope) os) fun _ => True := by
  induction os with
  | nil => exact .pure True.intro
  | cons o os ih =>
      exact c.bind (descend (expandFully hy o.weight) hscope (Nat.le_refl _)) fun _ _ => ih

end Comparison

namespace Expander

variable {scene : Scene (StateM σ)} {y : Bool → Expander (StateM σ)} {scope scope' : Scope}
  {o : Object} {s s' : σ} {d : Directive}

theorem fails_descend (h : Fails (runEach (fun o => o.descend (y true).expandFully scope)
    (fieldObjects o.fields)) s) (hnone : o.directives = []) :
    Fails (o.descend (y true).expandFully scope) s := by
  rw [runEach_fieldObjects] at h
  rw [Object.descend_of_directives hnone]
  exact h.of_bind_pure.bind

/-- **A failure is passed on**: if a directive fails that the run of an expander comes to, nothing
is expanded, not by another expander either that follows this one. -/
theorem Comes.fails (hy : (Comparison.follows σ).Shares scene y)
    (hplain : ∀ b, (y b).IncludesPlain) (h : (y false).Comes scope o s d scope' s')
    (hscope : Scope.Plain scope)
    (hd : Fails ((y true).effect (Object.descend (y true).expandFully) d scope') s') :
    Fails (o.descend (y true).expandFully scope) s := by
  have heffects := fun {scope : Scope} (hscope : Scope.Plain scope) (ds : List Directive) =>
    Comparison.effects hy (Comparison.expandFully hy (weightDirectives ds)) hscope
      fun d hmem => (weightArgs_lt_of_mem (d := d) hmem).le
  induction h with
  | @here _ o s s' above _ _ es stands ran =>
      have hne : o.directives ≠ [] := by simp [stands]
      rw [Object.descend_of_ne hne, (hplain true).expandFully_eq hscope hne, stands, effects_append]
      refine Fails.bind ?_
      rcases (heffects hscope above s es s' ran).2 with ran | hfails
      · refine Fails.after ?_ ran
        exact hd.bind.bind
      · exact hfails.bind
  | @block _ _ _ _ block _ s₁ s₂ _ definition _ name comes defines read _ ih ihinside =>
      have hseen := comes.plain (hplain false) hscope
      -- the definition fails where its block does, and then what the definition stands in
      refine ih hscope ?_
      have hread : (definition.readDefinition (y true).toScene).run.run s₁ =
          (.ok (name, .block block), s₂) := by
        obtain ⟨source, hscene⟩ := hy.scene false
        obtain ⟨source', hscene'⟩ := hy.scene true
        rw [hscene, readDefinition_source] at read
        rw [hscene', readDefinition_source, read]
      rw [effect, defines]
      dsimp only
      rw [define_eq]
      exact Fails.after (ihinside hseen hd).bind.bind hread
  | @behind _ _ o s s₁ _ _ es some ran _ ih =>
      rw [Object.descend_of_ne some, (hplain true).expandFully_eq hscope some]
      rcases (heffects hscope o.directives s es s₁ ran).2 with hran | hfails
      · exact Fails.after (ih ((hplain false).plain_visible hscope ran) hd) hran
      · exact hfails.bind
  | @inner _ _ _ _ s s₁ _ _ above _ none holds ran _ ih =>
      refine fails_descend ?_ none
      rw [holds, runEach_append]
      rcases (Comparison.runEach hy hscope above s () s₁ ran).2 with ran | hfails
      · exact Fails.after (ih hscope hd).bind ran
      · exact hfails.bind

end Expander

/-! ## Included documents -/

/-- An inclusion in a document in a directory, run in a state, finds another document: it has read
its arguments, content has been fetched from the location, and that has been parsed. -/
inductive Scene.Finds (scene : Scene (StateM σ)) (directory : String) (d : Directive) (s : σ) :
    Draft × σ → Prop
  | intro {i : Include} {content : ByteArray} {level : Nat} {s₁ s₂ : σ} {Y : Draft}
    (includes : d.kind = .inclusion) (read : (d.readInclude scene).run.run s = (.ok i, s₁))
    (fetch : (scene.source.fetch level directory i.location).run s₁ =
      (.ok (content, Y.directory), s₂))
    (parse : i.parse content = .ok Y.tree) : Finds scene directory d s (Y, s₂)

namespace Expander

variable {x : Expander (StateM σ)} {nested : String → Object → Expansion (StateM σ) Object}
  {d : Directive} {scope : Scope} {s : σ}

/-- Where includes are too deep, they all fail. -/
theorem fails_includeDocument (h : x.nested? = none) (d : Directive) (s : σ) :
    Fails (x.includeDocument d) s := by
  unfold includeDocument
  rw [h]
  cases hread : (d.readInclude x.toScene).run.run s with
  | mk r s₁ =>
      cases r with
      | error e => exact ⟨e, s₁, run_bind_error hread⟩
      | ok i => exact ⟨_, s₁, run_bind_ok hread⟩

/-- An inclusion brings what the document that it finds is expanded to. -/
theorem exists_run_of_finds {q : Draft × σ} (hnested : x.nested? = some nested)
    (hlevel : ∀ level location, x.source.fetch level x.directory location =
      x.source.fetch x.level x.directory location)
    (h : x.Finds x.directory d s q) :
    ∃ i : Include, (x.includeDocument d).run.run s = (do
      let document ← nested q.1.directory q.1.tree
      return (⟨i.method, i.fields document, []⟩ : Effect)).run.run q.2 := by
  obtain @⟨i, content, level, s₁, s₂, Y, -, read, fetch, parse⟩ := h
  rw [hlevel] at fetch
  refine ⟨i, ?_⟩
  unfold includeDocument
  rw [run_bind_ok read, hnested]
  dsimp only
  rw [run_bind_ok (run_liftM_eq_ok.mpr fetch)]
  exact run_bind_ok (congrArg (·, s₂) parse)

/-! ## Nothing else fails -/

/-- A directive brings something, where a block is taken as it is. -/
def Brings (x : Expander (StateM σ)) (d : Directive) (scope : Scope) (s : σ) : Prop :=
  Succeeds (x.effect (fun _ block => pure block) d scope) s

/-- An expander that takes included documents as they are. -/
def alone (x : Expander (StateM σ)) : Expander (StateM σ) :=
  { x with nested? := some fun _ document => pure document }

/-- Of what a directive brings, only that of an inclusion depends on included documents. -/
theorem Brings.of_alone (h : x.alone.Brings d scope s)
    (hinclusion : d.kind = .inclusion → Succeeds (x.includeDocument d) s) : x.Brings d scope s := by
  unfold Brings effect at h ⊢
  cases hkind : d.kind with
  | inclusion => exact hinclusion hkind
  | definition =>
      rw [hkind] at h
      exact h
  | application =>
      rw [hkind] at h
      exact h

/-- An inclusion that has something to bring does so, if the document can be expanded that it
finds. -/
theorem succeeds_includeDocument (hnested : x.nested? = some nested)
    (h : x.alone.Brings d scope s) (hkind : d.kind = .inclusion)
    (hfound : ∀ q, x.Finds x.directory d s q → Succeeds (nested q.1.directory q.1.tree) q.2) :
    Succeeds (x.includeDocument d) s := by
  unfold Brings effect at h
  rw [hkind] at h
  obtain ⟨e, s', hrun⟩ := h
  obtain ⟨i, s₁, hread, hrun⟩ := run_bind_eq_ok hrun
  obtain ⟨fetched, s₂, hfetch, hrun⟩ := run_bind_eq_ok hrun
  unfold includeDocument
  refine Succeeds.after ?_ hread
  rw [hnested]
  refine Succeeds.after ?_ hfetch
  rw [run_liftM_eq_ok] at hfetch
  cases fetched with
  | error fault => exact ⟨e, s', hrun⟩
  | ok found =>
      obtain ⟨content, directory⟩ := found
      obtain ⟨document, s₃, hparse, -⟩ := run_bind_eq_ok hrun
      refine Succeeds.after ?_ hparse
      have hparse' := congrArg Prod.fst hparse
      obtain rfl : s₂ = s₃ := congrArg Prod.snd hparse
      have hfinds : x.Finds x.directory d s (⟨directory, document⟩, s₂) :=
        .intro hkind hread hfetch hparse'
      obtain ⟨o, s₄, ho⟩ := hfound _ hfinds
      exact ⟨_, s₄, run_bind_ok ho⟩

theorem Brings.succeeds {expandBlock : Scope → Object → Expansion (StateM σ) Object}
    (h : x.Brings d scope s) (hblock : d.kind = .definition → ∀ name block s₁,
      (d.readDefinition x.toScene).run.run s = (.ok (name, .block block), s₁) →
        Succeeds (expandBlock scope block) s₁) :
    Succeeds (x.effect expandBlock d scope) s := by
  unfold Brings effect at h
  unfold effect
  cases hkind : d.kind with
  | application =>
      rw [hkind] at h
      exact h
  | inclusion =>
      rw [hkind] at h
      exact h
  | definition =>
      rw [hkind] at h
      dsimp only at h ⊢
      rw [define_eq] at h ⊢
      obtain ⟨e, s', hrun⟩ := h
      obtain ⟨⟨name, payload⟩, s₁, hread, hrun⟩ := run_bind_eq_ok hrun
      refine Succeeds.after ?_ hread
      cases payload with
      | expr e => exact ⟨_, _, rfl⟩
      | ident ident => cases hrun
      | block block =>
          obtain ⟨o, s₂, hblock⟩ := hblock hkind name block s₁ hread
          exact ⟨_, s₂, run_bind_ok (run_bind_ok hblock)⟩

/-- Directives bring something if each of them does behind those above it. -/
theorem succeeds_effects {expandBlock : Scope → Object → Expansion (StateM σ) Object}
    {ds : List Directive} (h : ∀ above d below es s₁, ds = above ++ d :: below →
      (x.effects expandBlock scope above).run.run s = (.ok es, s₁) →
        Succeeds (x.effect expandBlock d (Effect.visible scope es)) s₁) :
    Succeeds (x.effects expandBlock scope ds) s := by
  induction ds generalizing scope s with
  | nil => exact ⟨[], s, rfl⟩
  | cons d ds ih =>
      obtain ⟨e, s₁, he⟩ := h [] d ds [] s rfl rfl
      refine Succeeds.after ?_ he
      have hrest : Succeeds (x.effects expandBlock (e.fragments ++ scope) ds) s₁ := by
        refine ih fun above d' below es s₂ hsplit hrun => ?_
        have hran : (x.effects expandBlock scope (d :: above)).run.run s = (.ok (e :: es), s₂) :=
          (run_bind_ok he).trans (run_bind_ok hrun)
        exact h (d :: above) d' below (e :: es) s₂ (congrArg (d :: ·) hsplit) hran
      obtain ⟨es, s₂, hes⟩ := hrest
      exact ⟨e :: es, s₂, run_bind_ok hes⟩

end Expander

/-- Objects are expanded if each of them is behind those before it. -/
theorem succeeds_runEach {f : Object → Expansion (StateM σ) Object} {os : List Object} {s : σ}
    (h : ∀ above o below s₁, os = above ++ o :: below →
      (runEach f above).run.run s = (.ok (), s₁) → Succeeds (f o) s₁) :
    Succeeds (runEach f os) s := by
  induction os generalizing s with
  | nil => exact ⟨(), s, rfl⟩
  | cons o os ih =>
      obtain ⟨o', s₁, ho⟩ := h [] o os s rfl rfl
      refine Succeeds.after (ih fun above within below s₂ hsplit hrun => ?_) ho
      exact h (o :: above) within below s₂ (congrArg (o :: ·) hsplit) ((run_bind_ok ho).trans hrun)

namespace Expander

variable {x : Expander (StateM σ)}

/-- **Nothing else fails**: an object is expanded if each directive that the run comes to brings
something. -/
theorem succeeds_descend (hx : x.IncludesPlain) (scope : Scope) (o : Object) (s : σ)
    (hscope : Scope.Plain scope)
    (h : ∀ d scope' s', x.Comes scope o s d scope' s' → x.Brings d scope' s') :
    Succeeds (o.descend x.expandFully scope) s := by
  by_cases hnone : o.directives = []
  · rw [Object.descend_of_directives hnone]
    have heach : Succeeds (runEach (fun o => o.descend x.expandFully scope)
        (fieldObjects o.fields)) s := by
      refine succeeds_runEach fun above within below s₁ hsplit hrun => ?_
      have hmem : within ∈ fieldObjects o.fields :=
        hsplit ▸ List.mem_append_right _ List.mem_cons_self
      obtain ⟨hweight, hsize⟩ := o.weight_le_of_mem_fields hmem
      exact succeeds_descend hx scope within s₁ hscope fun d scope' s' hcomes =>
        h d scope' s' (.inner hnone hsplit hrun hcomes)
    rw [runEach_fieldObjects] at heach
    obtain ⟨fields, s', hrun⟩ := heach.of_bind
    exact ⟨_, s', run_bind_ok hrun⟩
  · have hlt := o.weightFields_lt hnone
    rw [Object.descend_of_ne hnone, hx.expandFully_eq hscope hnone]
    have heffects : Succeeds (x.effects (Object.descend x.expandFully) scope o.directives) s := by
      refine succeeds_effects fun above d below es s₁ hsplit hrun => ?_
      have hcomes : x.Comes scope o s d (Effect.visible scope es) s₁ := .here hsplit hrun
      refine (h d _ s₁ hcomes).succeeds fun hkind name block s₂ hread => ?_
      have hmem : d ∈ o.directives := hsplit ▸ List.mem_append_right _ List.mem_cons_self
      have hblock : block.weight < o.weight :=
        ((weight_readDefinition x.toScene).of_run hread).trans_lt (o.weightArgs_lt hmem)
      exact succeeds_descend hx _ block s₂ (hx.plain_visible hscope hrun)
        fun d' scope' s' hinside => h d' scope' s' (.block hcomes hkind hread hinside)
    obtain ⟨es, s₁, hrun⟩ := heffects
    have hbehind : (o.behind es).weight < o.weight :=
      (o.weight_combineEach_arrivals_le ((hx.plain_effects hscope _).of_run hrun)).trans_lt hlt
    refine Succeeds.after ?_ hrun
    exact succeeds_descend hx _ (o.behind es) s₁ (hx.plain_visible hscope hrun)
      fun d scope' s' hinside => h d scope' s' (.behind hnone hrun hinside)
termination_by (o.weight, sizeOf o)
decreasing_by
  · exact Prod.lex_def.mpr ((Nat.lt_or_eq_of_le hweight).imp_right fun heq => ⟨heq, hsize⟩)
  · exact Prod.Lex.left _ _ hblock
  · exact Prod.Lex.left _ _ hbehind

end Expander

/-! ## Expanders that include alike -/

namespace Expander

section

variable {m : Type → Type} [Monad m] {x x' : Expander m}

theorem effect_congr (hscene : x.toScene = x'.toScene)
    (hinclude : ∀ d, x.includeDocument d = x'.includeDocument d) : x.effect = x'.effect := by
  funext expandBlock d scope
  unfold effect define apply selectFields
  simp only [hscene, hinclude]

theorem effects_congr (h : x.effect = x'.effect) : x.effects = x'.effects := by
  funext expandBlock scope ds
  induction ds generalizing scope with
  | nil => rfl
  | cons d ds ih => simp only [effects, h, ih]

theorem expandObject_congr [LawfulMonad m] (h : x.effect = x'.effect) :
    x.expandObject = x'.expandObject := by
  funext weight
  induction weight with
  | zero => rfl
  | succ weight ih =>
      funext scope o
      rw [expandObject_eq, expandObject_eq, ih, effects_congr h]

end

variable {x x' : Expander (StateM σ)} {scope scope' : Scope} {o : Object} {s s' : σ} {d : Directive}

theorem Comes.congr (hscene : x.toScene = x'.toScene) (heffect : x.effect = x'.effect)
    (h : x.Comes scope o s d scope' s') : x'.Comes scope o s d scope' s' := by
  have hfully : x.expandFully = x'.expandFully := by
    funext scope o
    rw [expandFully, expandFully, expandObject_congr heffect]
  induction h with
  | here stands ran =>
      rw [effects_congr heffect, hfully] at ran
      exact .here stands ran
  | block _ defines read _ ih inside =>
      rw [hscene] at read
      exact .block ih defines read inside
  | behind some ran _ ih =>
      rw [effects_congr heffect, hfully] at ran
      exact .behind some ran ih
  | inner none holds ran _ ih =>
      rw [hfully] at ran
      exact .inner none holds ran ih

end Expander

end ConfigLang
