import Mathlib
import ConfigLang.Command
import ConfigLang.Proofs.Document.Built
import ConfigLang.Proofs.Document.Skipped
import ConfigLang.Proofs.Expand.Spelled
import ConfigLang.Source.Bundle

/-!
# What the command line reaches

The command line splits each part of a path at its points, so that an option is reached if no name
on the way to it has a point in it.  The names of a text have none; those that directives give may
have, by default the name of a file that is included.

## Strategy

* **Splitting.**  A text without points is not split, and parts that are joined by points are split
  as each of them is (`splitAt_append`, `segments_pathText`).
* **Names on the way.**  A path that leads somewhere is made of names, labels and places of the tree
  (`undivided_of_locateFrom`).  Those of an expanded tree are known from `Scene.spelled_expand`: the
  identifiers of texts, which have no points (`undivided_of_isNameChar`), and what directives give
  (`Scene.GivesUndivided`).
* **Answers.**  `answer_eq` says what the command answers for a path that is not split, and
  `Document.locate_of_value` that the path of a value leads somewhere.
-/

namespace ConfigLang

open Running

/-! ## Splitting at points -/

namespace Text

variable {part cs ds : List Char}

theorem splitFrom_of_not_mem (h : '.' ∉ cs) :
    splitFrom ['.'] part cs = [part.reverse ++ cs] := by
  induction cs generalizing part with
  | nil => rw [splitFrom, List.append_nil]
  | cons c cs ih =>
      obtain ⟨hc, hcs⟩ := not_or.mp (List.mem_cons.not.mp h)
      rw [splitFrom, if_neg (by simp [hc]), ih hcs]
      simp

theorem splitFrom_append :
    splitFrom ['.'] part (cs ++ '.' :: ds) = splitFrom ['.'] part cs ++ splitFrom ['.'] [] ds := by
  induction cs generalizing part with
  | nil => simp [splitFrom]
  | cons c cs ih =>
      rw [List.cons_append, splitFrom, splitFrom]
      by_cases hc : c = '.'
      · simp [hc, ih]
      · simp [Ne.symm hc, ih]

end Text

/-- No point is in a text. -/
def Undivided (text : String) : Prop :=
  '.' ∉ text.toList

instance (text : String) : Decidable (Undivided text) :=
  inferInstanceAs (Decidable (¬ _))

theorem splitAt_of_undivided {text : String} (h : Undivided text) :
    Text.splitAt "." text = [text] := by
  have hpoint : ".".toList = ['.'] := rfl
  rw [Text.splitAt, hpoint, Text.splitFrom_of_not_mem h]
  simp

theorem splitAt_append (a b : String) :
    Text.splitAt "." (a ++ "." ++ b) = Text.splitAt "." a ++ Text.splitAt "." b := by
  have hpoint : ".".toList = ['.'] := rfl
  simp [Text.splitAt, hpoint, Text.splitFrom_append]

namespace Command

theorem segments_of_undivided {path : List String} (h : ∀ s ∈ path, Undivided s) :
    segments path = path := by
  induction path with
  | nil => rfl
  | cons s path ih =>
      obtain ⟨hs, hpath⟩ := List.forall_mem_cons.mp h
      rw [segments, List.flatMap_cons, splitAt_of_undivided hs]
      exact congrArg (s :: ·) (ih hpath)

/-- A path is split alike, in parts and joined. -/
theorem segments_pathText {path : List String} (h : path ≠ []) :
    segments [pathText path] = segments path := by
  induction path with
  | nil => exact absurd rfl h
  | cons s path ih =>
      cases path with
      | nil => simp [pathText]
      | cons t path =>
          have ih := ih (List.cons_ne_nil t path)
          simp only [segments, List.flatMap_cons, List.flatMap_nil, List.append_nil] at ih ⊢
          rw [pathText, String.intercalate_cons_cons, splitAt_append]
          exact congrArg (_ ++ ·) ih

end Command

/-! ## The names on the way to an option -/

theorem undivided_of_placeOfText? {key : String} {place : Nat} (h : placeOfText? key = some place) :
    Undivided key := by
  have hdigits {cs : List Char} {n : Nat}
      (h : (if cs.isEmpty || !cs.all Char.isDigit then none else some n) = some place) :
      '.' ∉ cs := by
    split at h
    · cases h
    · rename_i hcs
      intro hmem
      have hall : cs.all Char.isDigit = true := by simp_all
      exact absurd (List.all_eq_true.mp hall '.' hmem) (by decide)
  simp only [placeOfText?] at h
  split at h
  · rename_i cs hkey
    rw [Undivided, hkey]
    exact List.not_mem_cons_of_ne_of_not_mem (by decide) (hdigits h)
  · exact hdigits h

namespace Document

variable {Q : Directive → Prop} {items : List Node} {key : String} {node : Node}

theorem undivided_of_selectItem? (hitems : ∀ item ∈ items, item.Spelled Undivided Q)
    (h : selectItem? items key = some node) : Undivided key := by
  rcases Option.or_eq_some_iff.mp h with h | ⟨-, h⟩
  · have hlabel := List.find?_some h
    have hspelled := hitems node (List.mem_of_find?_eq_some h)
    cases hspelled with
    | option | list => cases hlabel
    | object _ ho => exact ho.label key (by simpa [Node.hasLabel] using hlabel)
  · obtain ⟨place, hplace, -⟩ := Option.bind_eq_some_iff.mp h
    exact undivided_of_placeOfText? hplace

/-- A path that leads somewhere is made of names, labels and places. -/
theorem undivided_of_locateFrom {chain : List Object} {walked path : List String} {o : Object}
    {place : Place} (ho : o.Spelled Undivided Q)
    (h : locateFrom chain walked o path = .ok place) : ∀ s ∈ path, Undivided s := by
  fun_induction locateFrom chain walked o path with
  | case1 => cases h
  | case2 => cases h
  | case3 chain walked o key field hget =>
      exact List.forall_mem_singleton.mpr (ho.fields.of_get? hget).1
  | case4 => cases h
  | case5 chain walked o key next rest here inner hget ih =>
      obtain ⟨hkey, hinner⟩ := ho.fields.of_get? hget
      exact List.forall_mem_cons.mpr ⟨hkey, ih hinner.of_object h⟩
  | case6 => cases h
  | case7 => cases h
  | case8 chain walked o key next name items hget item hselect =>
      obtain ⟨hkey, hlist⟩ := ho.fields.of_get? hget
      have hnext := undivided_of_selectItem? hlist.items hselect
      exact List.forall_mem_cons.mpr ⟨hkey, List.forall_mem_singleton.mpr hnext⟩
  | case9 chain walked o key next here name items hget here' inner rest _ hselect ih =>
      obtain ⟨hkey, hlist⟩ := ho.fields.of_get? hget
      have hnext := undivided_of_selectItem? hlist.items hselect
      have hinner := hlist.items _ (mem_of_selectItem? hselect)
      exact List.forall_mem_cons.mpr ⟨hkey, List.forall_mem_cons.mpr ⟨hnext,
        ih hinner.of_object h⟩⟩
  | case10 => cases h

end Document

/-! ## Getting a value -/

theorem undivided_of_isNameChar {name : String}
    (h : ∀ c ∈ name.toList, Lexeme.isNameChar c = true) : Undivided name :=
  fun hmem => absurd (h '.' hmem) (by decide)

/-- The names that the directives in a text give have no points in them. -/
def Scene.GivesUndivided (scene : Scene Id) (text : String) : Prop :=
  ∀ root, parseDocument text = .ok root →
    ∀ d, root.Mentions d → ∀ name, d.Gives scene name → Undivided name

theorem Scene.GivesUndivided.spells {scene : Scene Id} {text : String} {root : Object}
    (h : scene.GivesUndivided text) (hparse : parseDocument text = .ok root) :
    scene.Spells Undivided root :=
  (spelled_parseDocument (fun _ => undivided_of_isNameChar) hparse).of_mentions
    fun d hd => h root hparse d hd

/-- The names in a document have no points in them if those that directives give have none. -/
theorem Document.undivided_ofText {s : Setting Id} {text : String} {d : Document}
    (hbuild : (ofText s text).run.run = .ok d)
    (hinput : s.scene.GivesUndivided text)
    (hserved : ∀ served, s.source.Serves served → s.scene.GivesUndivided served) :
    ∃ Q, d.root.Spelled Undivided Q := by
  have hbuilt : Ensures (ofText s text) fun d => s.scene.Spells Undivided d.root := by
    unfold ofText
    refine (ensures_run _).bind fun tree htree => ?_
    have htree : (parseDocument text).mapError BuildError.parse = .ok tree := htree
    have hspells : s.scene.Spells Undivided tree := by
      cases hparse : parseDocument text with
      | error e =>
          rw [hparse] at htree
          cases htree
      | ok root =>
          rw [hparse] at htree
          cases htree
          exact hinput.spells hparse
    have hscene : s.scene.ServesSpelled Undivided :=
      fun served hserves root hparse => (hserved served hserves).spells hparse
    exact ((Scene.spelled_expand hscene _ hspells).adapt _).bind fun root hroot => .pure hroot
  exact ⟨_, hbuilt.of_run_id hbuild⟩

theorem Document.locate_of_value {host : Host Id} {d : Document} {p : List String} {v : Value}
    (h : (d.value host p).run.run = .ok v) : ∃ place, d.locate p = .ok place := by
  cases hlocate : d.locate p with
  | error e =>
      have herror : (d.value host p).run.run = .error e := by
        rw [Document.value, hlocate]
        rfl
      rw [herror] at h
      cases h
  | ok place => exact ⟨place, rfl⟩

namespace Command

variable {c : Command} {host : Host Id} {source : Source Id} {process : List (String × String)}
  {vars : Frame} {d : Document} {v : Value}

/-- What the command that asks for the value at a path answers. -/
def answer (c : Command) (host : Host Id) (source : Source Id) (process : List (String × String))
    (path : List String) : Except CommandError Outcome :=
  (({ c with action := .get path } : Command).run host source process).run.run

theorem answer_eq (hvars : c.baseFrame process = .ok vars)
    (hbuild : (Document.ofText ⟨host, source, vars, c.directory?⟩ c.input).run.run = .ok d)
    (path : List String) : c.answer host source process path =
      ((d.value host (segments path)).run.run.mapError .query).map .value := by
  have hframe : (ExceptT.mk (pure (({ c with action := .get path } : Command).baseFrame process)) :
      ExceptT CommandError Id Frame).run.run = .ok vars := hvars
  have hbuilt : ((Document.ofText ⟨host, source, vars, c.directory?⟩ c.input).adapt
      CommandError.build).run.run = .ok d := by
    rw [run_adapt_id, hbuild]
    rfl
  rw [answer, run, run_bind_id_ok hframe, run_bind_id_ok hbuilt]
  change (_ >>= fun v => pure (Outcome.value v) : ExceptT CommandError Id Outcome).run.run = _
  rw [run_bind_id, run_adapt_id]
  cases (d.value host (segments path)).run.run <;> rfl

/-- What the command line answers where a document has the value `v` at the path `p`. -/
structure Reaches (c : Command) (host : Host Id) (source : Source Id)
    (process : List (String × String)) (vars : Frame) (p : List String) (v : Value) : Prop where
  /-- The path is asked for alike in parts and joined. -/
  joined : c.answer host source process [pathText p] = c.answer host source process p
  /-- A path without points in its parts is followed to the value. -/
  found : (∀ s ∈ p, Undivided s) → c.answer host source process p = .ok (.value v)
  /-- There are none if there are none in the names that directives give, in the document and in
  those that it may include. -/
  undivided : let scene : Scene Id := ⟨host, source, .ofBase vars⟩
    scene.GivesUndivided c.input → (∀ served, source.Serves served → scene.GivesUndivided served) →
      ∀ s ∈ p, Undivided s

/-- **The command line reaches every option** that no directive has given a name with a point in
it. -/
theorem reaches_of_value {p : List String} (hvars : c.baseFrame process = .ok vars)
    (hbuild : (Document.ofText ⟨host, source, vars, c.directory?⟩ c.input).run.run = .ok d)
    (hvalue : (d.value host p).run.run = .ok v) : c.Reaches host source process vars p v := by
  obtain ⟨place, hlocate⟩ := Document.locate_of_value hvalue
  constructor
  case joined =>
    have hne : p ≠ [] := by
      rintro rfl
      cases hlocate
    rw [answer_eq hvars hbuild, answer_eq hvars hbuild, segments_pathText hne]
  case found =>
    intro hp
    rw [answer_eq hvars hbuild, segments_of_undivided hp, hvalue]
    rfl
  case undivided =>
    intro scene hinput hserved
    obtain ⟨Q, hroot⟩ := Document.undivided_ofText hbuild hinput hserved
    exact Document.undivided_of_locateFrom hroot hlocate

/-- An option of a file that is included under its own name is reached by the path joined with
points. -/
theorem reaches_included :
    let c : Command := ⟨".include(\"conf/db.fig\")\n", none, [], false, .validate⟩
    let host : Host Id := ⟨fun _ => .error .notFound, fun _ => false, fun _ => false, fun _ => 0⟩
    let source : Source Id := (Bundle.empty.addFile "conf/db.fig" "k = 1\n".toUTF8).source
    ∃ d v, c.baseFrame [] = .ok .empty ∧
      (Document.ofText ⟨host, source, .empty, c.directory?⟩ c.input).run.run = .ok d ∧
      (d.value host ["db", "k"]).run.run = .ok v ∧
      c.answer host source [] ["db.k"] = .ok (.value v) ∧
      c.answer host source [] ["db", "k"] = .ok (.value v) := by
  intro c host source
  have hvars : c.baseFrame [] = .ok .empty := rfl
  have hfound : (Document.ofText ⟨host, source, .empty, c.directory?⟩ c.input).run.run.toOption.any
      (fun d => (d.value host ["db", "k"]).run.run.toOption.any fun _ => true) = true := by
    decide +kernel
  obtain ⟨d, hbuild, hfound⟩ := exists_of_any hfound
  obtain ⟨v, hvalue, -⟩ := exists_of_any hfound
  have hreaches := reaches_of_value hvars hbuild hvalue
  have hfound := hreaches.found (by decide)
  exact ⟨d, v, hvars, hbuild, hvalue, hreaches.joined.trans hfound, hfound⟩

/-- A file whose name has a point in it becomes an object that no path of the command line leads
to. -/
theorem answer_of_divided :
    let c : Command := ⟨".include(\"a.b.fig\")\n", none, [], false, .validate⟩
    let host : Host Id := ⟨fun _ => .error .notFound, fun _ => false, fun _ => false, fun _ => 0⟩
    let source : Source Id := (Bundle.empty.addFile "a.b.fig" "k = 1\n".toUTF8).source
    ∃ d v, c.baseFrame [] = .ok .empty ∧
      (Document.ofText ⟨host, source, .empty, c.directory?⟩ c.input).run.run = .ok d ∧
      (d.value host ["a.b", "k"]).run.run = .ok v ∧
      (c.answer host source [] ["a.b.k"]).toOption.isSome = false ∧
      (c.answer host source [] ["a.b", "k"]).toOption.isSome = false := by
  intro c host source
  have hfound : (Document.ofText ⟨host, source, .empty, c.directory?⟩ c.input).run.run.toOption.any
      (fun d => (d.value host ["a.b", "k"]).run.run.toOption.any fun _ => true) = true := by
    decide +kernel
  obtain ⟨d, hbuild, hfound⟩ := exists_of_any hfound
  obtain ⟨v, hvalue, -⟩ := exists_of_any hfound
  exact ⟨d, v, rfl, hbuild, hvalue, by decide +kernel, by decide +kernel⟩

end Command

end ConfigLang
