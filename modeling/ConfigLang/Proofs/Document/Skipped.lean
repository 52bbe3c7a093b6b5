import Mathlib
import ConfigLang.Document.Basic
import ConfigLang.Proofs.Expand.Pruned
import ConfigLang.Proofs.Parse.Ordered

/-!
# Includes that are skipped

An include that is not fatal is skipped where its location has no content
(`Scene.Skips`).  A document is then built as if the directive were not in it, wherever
it stands; the same goes for the documents that are included
(`Document.ofText_skipped`).

A skipped include is an idle directive, so that this is a case of
`Expander.expand_pruned`.  For included documents it is used once for each level.
-/

namespace ConfigLang

open Running

variable {m : Type → Type} [Monad m]

/-! ## Skipped includes -/

namespace Scene

/-- What an include asks for, and what is found there. -/
def attempt (scene : Scene m) (level : Nat) (directory : String) (d : Directive) :
    Expansion m (Include × Except FetchError (ByteArray × String)) := do
  let i ← d.readInclude scene
  let found ← scene.source.fetch level directory i.location
  return (i, found)

/-- An include is skipped in the documents of a directory that are included at some level. -/
structure Skips (scene : Scene m) (level : Nat) (directory : String) (d : Directive) : Prop where
  inclusion : d.kind = .inclusion
  /-- There is no content, which is not fatal. -/
  misses : Ensures (scene.attempt level directory d) fun out =>
    out.1.fatal = false ∧ ∃ e, out.2 = .error e
  /-- The arguments are valid.  Nothing is left behind by reading them and asking for content. -/
  silent : (scene.attempt level directory d >>= fun _ => pure ()) = pure ()

/-- In a world that always gives the same answers, what is left behind is of no concern. -/
theorem skips_iff {scene : Scene Id} {level : Nat} {directory : String} {d : Directive} :
    scene.Skips level directory d ↔ d.kind = .inclusion ∧ ∃ i e,
      (d.readInclude scene).run.run = .ok i ∧ i.fatal = false ∧
        (scene.source.fetch level directory i.location).run = .error e := by
  have hrun : (scene.attempt level directory d).run.run = (d.readInclude scene).run.run >>=
      fun i => .ok (i, (scene.source.fetch level directory i.location).run) := by
    rw [attempt, run_bind_id]
    rfl
  constructor
  · intro h
    have hsilent := congrArg (fun x : Expansion Id Unit => x.run.run) h.silent
    rw [run_bind_id] at hsilent
    obtain ⟨out, hout, -⟩ := bind_eq_ok hsilent
    obtain ⟨hfatal, e, he⟩ := h.misses.of_run_id hout
    rw [hrun] at hout
    obtain ⟨i, hi, hout⟩ := bind_eq_ok hout
    cases hout
    exact ⟨h.inclusion, i, e, hi, hfatal, he⟩
  · rintro ⟨hkind, i, e, hi, hfatal, he⟩
    have hpure : scene.attempt level directory d = pure (i, .error e) := by
      apply ExceptT.ext
      change (scene.attempt level directory d).run.run = _
      rw [hrun, hi, ok_bind, he]
      rfl
    exact ⟨hkind, hpure ▸ .pure ⟨hfatal, e, rfl⟩, by rw [hpure, pure_bind]⟩

/-- Tells whether an include is skipped. -/
def skips (scene : Scene Id) (level : Nat) (directory : String) (d : Directive) : Bool :=
  d.kind = .inclusion &&
    (d.readInclude scene).run.run.toOption.any fun i =>
      !i.fatal && (scene.source.fetch level directory i.location).run.toOption.isNone

theorem skips_of_test {scene : Scene Id} {level : Nat} {directory : String} {d : Directive}
    (h : scene.skips level directory d = true) : scene.Skips level directory d := by
  rw [skips, Bool.and_eq_true, decide_eq_true_eq] at h
  obtain ⟨hkind, hread⟩ := h
  obtain ⟨i, hi, hread⟩ := exists_of_any hread
  rw [Bool.and_eq_true, Bool.not_eq_true'] at hread
  obtain ⟨hfatal, hfetch⟩ := hread
  cases hfound : (scene.source.fetch level directory i.location).run with
  | ok found =>
      rw [hfound] at hfetch
      cases hfetch
  | error e => exact skips_iff.mpr ⟨hkind, i, e, hi, hfatal, hfound⟩

variable {scene : Scene m} {level : Nat} {directory : String} {d : Directive}

theorem anyOffset_skips : AnyOffset (scene.Skips level directory) :=
  fun _ _ h => ⟨h.inclusion, h.misses, h.silent⟩

variable [LawfulMonad m]

/-- What is done about a skipped include is done in any case. -/
theorem Skips.bind_eq (h : scene.Skips level directory d) {α : Type} {a : α}
    {f : Include → Except FetchError (ByteArray × String) → Expansion m α}
    (hf : ∀ i e, i.fatal = false → f i (.error e) = pure a) :
    (do
      let i ← d.readInclude scene
      let found ← scene.source.fetch level directory i.location
      f i found) = pure a := by
  calc _ = scene.attempt level directory d >>= fun out => f out.1 out.2 := by
        simp only [attempt, bind_assoc, pure_bind]
    _ = scene.attempt level directory d >>= fun _ => pure a := by
        refine h.misses.bind_congr fun out hout => ?_
        obtain ⟨hfatal, e, he⟩ := hout
        rw [he, hf out.1 e hfatal]
    _ = (scene.attempt level directory d >>= fun _ => pure ()) >>= fun _ => pure a := by
        simp only [bind_assoc, pure_bind]
    _ = pure a := by rw [h.silent, pure_bind]

/-- A skipped include brings nothing. -/
theorem idle_expander (scene : Scene m) (directory : String) (budget : Nat) :
    (scene.expander directory (budget + 1)).Idle
      (scene.Skips (includeLimit - budget) directory) := by
  intro d h expandBlock scope
  rw [Expander.effect, h.inclusion]
  refine h.bind_eq fun i e hfatal => ?_
  dsimp only
  rw [hfatal]
  rfl

theorem expandWithin_pruned (scene : Scene m) (budget : Nat) (directory : String) {text : String}
    {root root' : Object} (hparse : parseDocument text = .ok root)
    (h : root.Pruned (scene.Skips (includeLimit - budget) directory) root') :
    scene.expandWithin (budget + 1) directory root =
      scene.expandWithin (budget + 1) directory root' := by
  rw [expandWithin_eq, expandWithin_eq]
  exact Expander.expand_pruned (scene.includesPlain_expander directory (budget + 1))
    (scene.nestedTidy_expander directory (budget + 1)) anyOffset_skips
    (scene.idle_expander directory budget) (tidy_parseDocument hparse)
    (ordered_parseDocument hparse) h

end Scene

/-! ## Included documents -/

variable [LawfulMonad m]

namespace Expander

variable {x : Expander m} {nested nested' : String → Object → Expansion m Object}

/-- What is included has been parsed, so that nothing else need be expanded alike. -/
theorem includeDocument_nested (hnested : x.nested? = some nested)
    (h : ∀ directory text document, parseDocument text = .ok document →
      nested directory document = nested' directory document) (d : Directive) :
    x.includeDocument d =
      ({ x with nested? := some nested' } : Expander m).includeDocument d := by
  unfold includeDocument
  rw [hnested]
  refine bind_congr fun i => bind_congr fun found => ?_
  split
  · rfl
  · rename_i content directory
    have hparsed : Ensures (ExceptT.mk (pure (i.parse content)) : Expansion m Object)
        fun document => ∃ text, parseDocument text = .ok document :=
      .of_except fun document hdocument => (Include.exists_text hdocument).imp fun _ h => h.2
    refine hparsed.bind_congr fun document hdocument => ?_
    obtain ⟨text, hparse⟩ := hdocument
    rw [h directory text document hparse]

theorem expand_nested (hx : x.IncludesPlain) (hnested : x.nested? = some nested)
    (h : ∀ directory text document, parseDocument text = .ok document →
      nested directory document = nested' directory document) (o : Object) :
    x.expand o = ({ x with nested? := some nested' } : Expander m).expand o := by
  let either (b : Bool) : Expander m := if b then { x with nested? := some nested' } else x
  have hscene (b : Bool) : ∃ source, (either b).toScene = { x.toScene with source } := by
    cases b <;> exact ⟨x.source, rfl⟩
  have hincludes (b : Bool) (d : Directive) :
      (either b).includeDocument d = x.includeDocument d := by
    cases b with
    | false => rfl
    | true => exact (includeDocument_nested hnested h d).symm
  have hshares : (Comparison.same Bool m).Shares x.toScene either := by
    refine ⟨hscene, fun d => ?_⟩
    simp only [hincludes]
    exact (Comparison.same Bool m).const (hx d)
  exact (Comparison.expand hshares o).1 false true

end Expander

namespace Scene

/-- Expands a document in a directory, where includes may be nested `budget` levels deeper.  Each
document that has includes is edited before it is expanded. -/
def expandEdited (scene : Scene m) (edit : (level : Nat) → (directory : String) → Object → Object) :
    (budget : Nat) → String → Object → Expansion m Object
  | 0, directory, o => scene.expandWithin 0 directory o
  | budget + 1, directory, o =>
    Expander.expand
      ⟨scene, directory, includeLimit - budget, some (expandEdited scene edit budget)⟩
      (edit (includeLimit - budget) directory o)

/-- An edit leaves out includes that are skipped, of any document. -/
def LeavesOut (scene : Scene m) (edit : (level : Nat) → (directory : String) → Object → Object) :
    Prop :=
  ∀ level directory text root, parseDocument text = .ok root →
    root.Pruned (scene.Skips level directory) (edit level directory root)

omit [LawfulMonad m] in
theorem leavesOut_prune {scene : Scene m} {p : Nat → String → Directive → Bool}
    (h : ∀ level directory d, p level directory d = true → scene.Skips level directory d) :
    scene.LeavesOut fun level directory root => root.prune (p level directory) :=
  fun level directory _ root _ => root.pruned_prune (h level directory)

theorem expandEdited_eq {scene : Scene m} {edit : Nat → String → Object → Object}
    (hedit : scene.LeavesOut edit) (budget : Nat) (directory : String) {text : String}
    {root : Object} (hparse : parseDocument text = .ok root) :
    scene.expandWithin budget directory root = scene.expandEdited edit budget directory root := by
  induction budget generalizing directory text root with
  | zero => rfl
  | succ budget ih =>
      rw [scene.expandWithin_pruned budget directory hparse (hedit _ directory text root hparse),
        expandWithin_eq]
      exact Expander.expand_nested (scene.includesPlain_expander directory (budget + 1)) rfl
        (fun directory text document hparse => ih directory hparse) _

end Scene

/-! ## Documents -/

/-- The scene that the directives of a document are run in. -/
def Setting.scene (s : Setting m) : Scene m :=
  ⟨s.host, s.source, .ofBase s.vars⟩

namespace Document

/-- Builds the document of a tree. -/
def ofTree (s : Setting m) (tree : Object) : ExceptT BuildError m Document := do
  let root ← (s.scene.expand (s.directory?.getD "") tree).adapt .expand
  return ⟨root, s.vars, []⟩

/-- Builds the document of a text.  It is edited before it is expanded, as are all documents that it
includes. -/
def ofEdited (s : Setting m) (edit : (level : Nat) → (directory : String) → Object → Object)
    (text : String) : ExceptT BuildError m Document := do
  let tree ← ExceptT.mk (pure ((parseDocument text).mapError .parse))
  let root ← (s.scene.expandEdited edit includeLimit (s.directory?.getD "") tree).adapt .expand
  return ⟨root, s.vars, []⟩

/-- **An include that is skipped may as well be left out.**  Leaving out any of those in a document
makes no difference to what is built or how that fails, and neither does leaving out those in the
documents that are included. -/
theorem ofText_skipped (s : Setting m) (text : String) :
    (∀ root root', parseDocument text = .ok root →
      root.Pruned (s.scene.Skips 1 (s.directory?.getD "")) root' →
        ofText s text = ofTree s root') ∧
    ∀ edit, s.scene.LeavesOut edit → ofText s text = ofEdited s edit text := by
  have hbuilt {root : Object} (hparse : parseDocument text = .ok root) :
      ofText s text = ofTree s root := by
    rw [ofText, hparse]
    exact pure_bind _ _
  constructor
  · intro root root' hparse h
    have hexpand : s.scene.expand (s.directory?.getD "") root =
        s.scene.expand (s.directory?.getD "") root' :=
      s.scene.expandWithin_pruned 31 _ hparse h
    rw [hbuilt hparse, ofTree, ofTree, hexpand]
  · intro edit hedit
    cases hparse : parseDocument text with
    | error e =>
        rw [ofText, ofEdited, hparse]
        change (throw (.parse e) : ExceptT BuildError m Object) >>= _ = throw (.parse e) >>= _
        rw [throw_bind, throw_bind]
    | ok root =>
        have hexpand : s.scene.expand (s.directory?.getD "") root =
            s.scene.expandEdited edit includeLimit (s.directory?.getD "") root :=
          Scene.expandEdited_eq hedit includeLimit _ hparse
        rw [hbuilt hparse, ofTree, hexpand, ofEdited, hparse]
        change _ = (pure root : ExceptT BuildError m Object) >>= _
        rw [pure_bind]

/-- Two files are missing.  One is asked for in an object, and the other by the file `c.fig`. -/
theorem ofText_skipped_of_missing :
    ∃ (s : Setting Id) (text : String) (root : Object),
      text = "a \x7b .include('b.fig')\n b = 1 \x7d\n.include('c.fig')\n" ∧
      parseDocument text = .ok root ∧ root.weight = 2 ∧
      (root.prune (s.scene.skips 1 "")).weight = 1 ∧
      ofText s text = ofTree s (root.prune (s.scene.skips 1 "")) ∧
      ofText s text =
        ofEdited s (fun level directory root => root.prune (s.scene.skips level directory)) text ∧
      ∃ d, (ofText s text).run.run = .ok d ∧ Keyed.keys d.root.fields = ["a", "c"] := by
  let files := (FileTree.mk [] []).addFile "c.fig" ".include('d.fig')\nd = 1\n".toUTF8
  let s : Setting Id := ⟨files.host, files.source, .empty, none⟩
  let text := "a \x7b .include('b.fig')\n b = 1 \x7d\n.include('c.fig')\n"
  have hparse : (parseDocument text).toOption.any (fun root =>
      root.weight = 2 ∧ (root.prune (s.scene.skips 1 "")).weight = 1) = true := by
    decide +kernel
  have hbuilt : (ofText s text).run.run.toOption.any
      (fun d => Keyed.keys d.root.fields = ["a", "c"]) = true := by
    decide +kernel
  obtain ⟨root, hparse, hweight⟩ := exists_of_any hparse
  obtain ⟨d, hd, hkeys⟩ := exists_of_any hbuilt
  obtain ⟨hbefore, hafter⟩ := of_decide_eq_true hweight
  obtain ⟨hpruned, hedited⟩ := ofText_skipped s text
  exact ⟨s, text, root, rfl, hparse, hbefore, hafter,
    hpruned root _ hparse (root.pruned_prune fun _ => Scene.skips_of_test),
    hedited _ (Scene.leavesOut_prune fun _ _ _ => Scene.skips_of_test), d, hd,
    of_decide_eq_true hkeys⟩

end Document

end ConfigLang
