import Mathlib
import ConfigLang.Proofs.Expand.Comparison
import ConfigLang.Proofs.Expand.Overlay
import ConfigLang.Proofs.Expand.Tidy
import ConfigLang.Source.FileTree

/-!
# Expansion ends, and leaves no directives

The expander counts down the directives of a tree to show that it ends.  It never runs
out of them: whatever were to happen if it did, documents would be expanded as they are
(`Scene.expandOr_eq`).  For the same reason no directive is left in what it gives, so
there is nothing to expand in it any more (`parse_expand_wellFormed`).

The source of included documents is asked for includes that are nested no deeper than
`includeLimit`; what it would answer to others is of no matter (`Scene.expand_congr`).
-/

namespace ConfigLang

open Running

variable {m : Type → Type}

/-! ## Scenes that answer alike -/

namespace Scene

/-- A scene whose source answers includes down to a level as that of another scene does. -/
structure AgreesTo (level : Nat) (s s' : Scene m) : Prop where
  host : s'.host = s.host
  env : s'.env = s.env
  read : ∀ l ≤ level, s'.source.read l = s.source.read l
  get : ∀ l ≤ level, s'.source.get l = s.source.get l

namespace AgreesTo

variable {level : Nat} {s s' : Scene m}

theorem refl (s : Scene m) : AgreesTo level s s :=
  ⟨rfl, rfl, fun _ _ => rfl, fun _ _ => rfl⟩

theorem exists_source (h : AgreesTo level s s') : ∃ source, s' = { s with source } := by
  obtain ⟨host, source, env⟩ := s'
  obtain ⟨rfl, rfl, -, -⟩ := h
  exact ⟨source, rfl⟩

theorem fetch_eq [Monad m] {l : Nat} (h : AgreesTo level s s') (hl : l ≤ level)
    (directory location : String) :
    s'.source.fetch l directory location = s.source.fetch l directory location := by
  unfold Source.fetch
  rw [h.read l hl, h.get l hl]

end AgreesTo

end Scene

/-! ## Running out of directives -/

variable [Monad m]

namespace Expander

variable (x : Expander m)

/-- The recursion of the expander into the objects inside an object, some calls deep.  What lies
deeper is left to `stuck`. -/
def unfold (stuck : Scope → Object → Expansion m Object) :
    (depth : Nat) → Scope → Object → Expansion m Object
  | 0 => stuck
  | depth + 1 => x.step (unfold stuck depth)

theorem expandObject_eq_unfold (weight : Nat) :
    x.expandObject weight = x.unfold (fun _ o => pure o) weight := by
  induction weight with
  | zero => rfl
  | succ weight ih =>
      rw [unfold, ← ih]
      rfl

/-- Expands a document.  Should there be more directives inside directives than it has, the rest
is left to `stuck`. -/
def expandOr (stuck : Scope → Object → Expansion m Object) (o : Object) : Expansion m Object :=
  o.descend (x.unfold stuck o.weight) []

theorem expand_eq_expandOr (o : Object) : x.expand o = x.expandOr (fun _ o => pure o) o := by
  rw [expand, expandOr, expandObject_eq_unfold]

end Expander

namespace Scene

/-- Expands a document in a directory, where includes may be nested `budget` levels deeper.
Should any of the documents have more directives inside directives than it has directives, the
rest is left to `stuck`. -/
def expandOr (scene : Scene m) (stuck : Scope → Object → Expansion m Object) :
    (budget : Nat) → String → Object → Expansion m Object
  | 0, directory, o =>
    Expander.expandOr ⟨scene, directory, includeLimit + 1, none⟩ stuck o
  | budget + 1, directory, o =>
    Expander.expandOr
      ⟨scene, directory, includeLimit - budget, some (expandOr scene stuck budget)⟩ stuck o

theorem expandWithin_eq_expandOr (scene : Scene m) (budget : Nat) :
    scene.expandWithin budget = scene.expandOr (fun _ o => pure o) budget := by
  induction budget with
  | zero =>
      funext directory o
      exact Expander.expand_eq_expandOr _ o
  | succ budget ih =>
      funext directory o
      rw [expandWithin, expandOr, ih]
      exact Expander.expand_eq_expandOr _ o

end Scene

/-! ## One and the same computation -/

variable [LawfulMonad m]

namespace Comparison

/-- Computations that are all the same. -/
def same (ι : Type) (m : Type → Type) [Monad m] [LawfulMonad m] : Comparison ι m where
  Holds x P := (∀ i j, x i = x j) ∧ ∀ i, Ensures (x i) P
  const h := ⟨fun _ _ => rfl, fun _ => h⟩
  bind hx hf := by
    refine ⟨fun i j => ?_, fun i => (hx.2 i).bind fun a ha => (hf a ha).2 i⟩
    dsimp only
    rw [hx.1 i j]
    exact (hx.2 j).bind_congr fun a ha => (hf a ha).1 i j

theorem expands_unfold {ι : Type} {c : Comparison ι m} {s : Scene m} {x : ι → Expander m}
    (hx : c.Shares s x) (stuck : ι → Scope → Object → Expansion m Object) (depth : Nat) :
    c.Expands depth fun i => (x i).unfold (stuck i) depth := by
  induction depth with
  | zero =>
      -- an object that has directives is not without weight
      intro scope o _ hne hweight
      exact absurd (Object.directives_of_weight (Nat.le_zero.mp hweight)) hne
  | succ depth ih => exact step hx ih

theorem expandOr {ι : Type} {c : Comparison ι m} {s : Scene m} {x : ι → Expander m}
    (hx : c.Shares s x) (stuck : ι → Scope → Object → Expansion m Object) (o : Object) :
    c.Holds (fun i => (x i).expandOr (stuck i) o) fun o' => o'.weight = 0 :=
  descend (expands_unfold hx stuck o.weight) (List.forall_mem_nil _) (Nat.le_refl _)

/-- Expanders that include alike expand alike. -/
theorem expand {ι : Type} {c : Comparison ι m} {s : Scene m} {x : ι → Expander m}
    (hx : c.Shares s x) (o : Object) :
    c.Holds (fun i => (x i).expand o) fun o' => o'.weight = 0 := by
  simp only [Expander.expand_eq_expandOr]
  exact expandOr hx _ o

end Comparison

namespace Scene

theorem same_expandOr {ι : Type} {s : Scene m} {scene : ι → Scene m}
    (h : ∀ i, AgreesTo includeLimit s (scene i)) (stuck : ι → Scope → Object → Expansion m Object)
    (budget : Nat) (directory : String) (o : Object) :
    (Comparison.same ι m).Holds (fun i => (scene i).expandOr (stuck i) budget directory o)
      fun o' => o'.weight = 0 := by
  induction budget generalizing directory o with
  | zero =>
      have hscene := fun i => (h i).exists_source
      exact Comparison.expandOr
        ⟨hscene, fun d => Comparison.includeDocument_none hscene fun _ => rfl⟩ stuck o
  | succ budget ih =>
      have hscene := fun i => (h i).exists_source
      have hfetch : ∀ i location,
          (scene i).source.fetch (includeLimit - budget) directory location =
            s.source.fetch (includeLimit - budget) directory location :=
        fun i location => (h i).fetch_eq (Nat.sub_le _ _) directory location
      exact Comparison.expandOr
        ⟨hscene, fun d => Comparison.includeDocument hscene (fun _ => rfl) hfetch ih⟩ stuck o

/-- **Expansion never runs out of directives**: what were to happen then is of no matter. -/
theorem expandOr_eq (scene : Scene m) (stuck : Scope → Object → Expansion m Object) (budget : Nat)
    (directory : String) (o : Object) :
    scene.expandOr stuck budget directory o = scene.expandWithin budget directory o := by
  have hsame := same_expandOr (ι := Bool) (fun _ => AgreesTo.refl scene)
    (fun b => if b then stuck else fun _ o => pure o) budget directory o
  rw [expandWithin_eq_expandOr]
  exact hsame.1 true false

/-- What a document expands to has no directives. -/
theorem ensures_weight (scene : Scene m) (budget : Nat) (directory : String) (o : Object) :
    Ensures (scene.expandWithin budget directory o) fun o' => o'.weight = 0 := by
  have hsame := same_expandOr (ι := Unit) (fun _ => AgreesTo.refl scene)
    (fun _ _ o => pure o) budget directory o
  rw [expandWithin_eq_expandOr]
  exact hsame.2 ()

/-- **No content is asked for deeper than includes may be nested.** -/
theorem expand_congr {s s' : Scene m} (h : AgreesTo includeLimit s s') (directory : String)
    (o : Object) : s'.expand directory o = s.expand directory o := by
  have hboth : ∀ b : Bool, AgreesTo includeLimit s (if b then s' else s) := by
    intro b
    cases b with
    | false => exact AgreesTo.refl s
    | true => exact h
  have hsame := same_expandOr (ι := Bool) hboth (fun _ _ o => pure o) includeLimit directory o
  rw [expand, expand, expandWithin_eq_expandOr, expandWithin_eq_expandOr]
  exact hsame.1 true false

/-- There is nothing to expand in a document without directives. -/
theorem expand_of_weight (scene : Scene m) (directory : String) {o : Object}
    (h : o.weight = 0) : scene.expand directory o = pure o :=
  Object.descend_of_weight h

end Scene

/-! ## From the text to the expanded tree -/

/-- **What is parsed has the shape of a text, and so has what it expands to.**  There are no
directives in the latter, so that expanding it again, in whatever scene, gives it back. -/
theorem parse_expand_wellFormed {text : String} {root : Object}
    (hparse : parseDocument text = .ok root) :
    root.Tidy ∧ ∀ (σ : Type) (scene : Scene (StateM σ)) (directory : String) (before after : σ)
      (o : Object), (scene.expand directory root).run.run before = (.ok o, after) →
        o.Tidy ∧ o.weight = 0 ∧
          ∀ (m : Type → Type) [Monad m] [LawfulMonad m] (scene' : Scene m) (directory' : String),
            scene'.expand directory' o = pure o := by
  have htidy := tidy_parseDocument hparse
  refine ⟨htidy, fun σ scene directory before after o hrun => ?_⟩
  have hweight : o.weight = 0 := (scene.ensures_weight includeLimit directory root).of_run hrun
  refine ⟨(scene.tidy_expand directory htidy).of_run hrun, hweight, ?_⟩
  intro m _ _ scene' directory'
  exact scene'.expand_of_weight directory' hweight

/-- A list, a fragment and its application in a block. -/
theorem parse_expand_wellFormed_of_apply :
    ∃ (root o : Object) (scene : Scene (StateM Unit)),
      parseDocument "a = 1\na = 2\n.define(f, { b = 3 })\nc { .apply(f) }\n" = .ok root ∧
        (scene.expand "" root).run.run () = (.ok o, ()) ∧ root.Tidy ∧ o.Tidy ∧ o.weight = 0 := by
  let scene : Scene (StateM Unit) :=
    ⟨(FileTree.mk [] []).host, (FileTree.mk [] []).source, .ofBase .empty⟩
  have hfound : (parseDocument
      "a = 1\na = 2\n.define(f, { b = 3 })\nc { .apply(f) }\n").toOption.any
        (fun root => ((scene.expand "" root).run.run ()).1.toOption.any fun _ => true) = true := by
    decide +kernel
  obtain ⟨root, hparse, hexpands⟩ := exists_of_any hfound
  obtain ⟨o, after, hrun, -⟩ := exists_of_any_run hexpands
  obtain ⟨hroot, hexpanded⟩ := parse_expand_wellFormed hparse
  obtain ⟨ho, hweight, -⟩ := hexpanded Unit scene "" () after o hrun
  exact ⟨root, o, scene, hparse, hrun, hroot, ho, hweight⟩

end ConfigLang
