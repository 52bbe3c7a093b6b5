import Mathlib
import ConfigLang.Proofs.Eval.Effects
import ConfigLang.Proofs.Expand.Course
import ConfigLang.Proofs.Tree.Mention
import ConfigLang.Source.Bundle

/-!
# What the source is asked for

The source of a scene is asked for what the directives of a document include, and for
what is included by the documents that it gives, in the order of the text
(`Scene.expand_requests`).  A `Trail` says which request is made for which directive.
Relative locations are looked for in the directory of the document: that of its own
path if it comes from a file, and that of the document which asked for it if it comes
from the web (`Request.directory`).

## Strategy

To see the requests, a record of them is supposed to be part of the state
(`Scene.Records`).  Nothing but a request changes it.

* **Arguments make no request.**  They are evaluated against the host, which is why
  `Discipline.evaluate` applies: evaluation is `Quiet`, and so are the binding of the
  arguments, the reading of an `include` and the directives that bring fragments.
* **Inclusions make one.**  What is fetched is what has been asked for (`run_fetch`), and
  then the document that is given is expanded in its own directory
  (`follows_includeDocument`).
* **Runs follow a trail.**  `Scene.Follows` says that every run of a computation makes
  the requests of a trail, and all that are due if it ends in a result rather than in an
  error.  Computations in sequence follow trails that are joined (`Follows.bind`), and
  one that makes no request leaves the trail as it is (`Follows.after`,
  `Follows.before`).
* **The recursion.**  The expander handles the directives of an object first and descends
  then.  `FollowsTo` is about objects of up to `n` directives, the measure by which it
  recurs, and `follows_expandWithin` goes down the levels of inclusion.
-/

namespace ConfigLang

open Running

/-! ## Requests -/

/-- What the source of a scene is asked for. -/
inductive Request where
  | file (path : String)
  | page (url : String)
deriving DecidableEq

namespace Request

/-- What is asked for when a document in a directory includes a location. -/
def of? (directory location : String) : Option Request :=
  match Location.ofText location with
  | .file path => some (.file (Path.join directory path))
  | .web url => some (.page url)
  | .other _ => none

/-- The directory of the document that is given to a request of a document in the directory
`around`. -/
def directory (around : String) : Request → String
  | file path => (Path.parent? path).getD ""
  | page _ => around

end Request

variable {σ : Type}

/-- A source gives some content to a request, at some time. -/
def Source.Gives (source : Source (StateM σ)) (content : ByteArray) : Request → Prop
  | .file path => ∃ level s s', (source.read level path).run s = (.ok content, s')
  | .page url => ∃ level s s' status, status < 400 ∧
      (source.get level url).run s = (.ok ⟨status, content⟩, s')

/-- The requests to the source of a scene are recorded in the state, and nothing else is. -/
structure Scene.Records (scene : Scene (StateM σ)) (asked : σ → List Request) : Prop where
  read : ∀ level path s, asked ((scene.source.read level path).run s).2 = asked s ++ [.file path]
  get : ∀ level url s, asked ((scene.source.get level url).run s).2 = asked s ++ [.page url]
  readText : ∀ path s, asked ((scene.host.readText path).run s).2 = asked s
  isFile : ∀ path s, asked ((scene.host.isFile path).run s).2 = asked s
  isDirectory : ∀ path s, asked ((scene.host.isDirectory path).run s).2 = asked s
  random : ∀ bound s, asked ((scene.host.random bound).run s).2 = asked s

/-- The requests that are made when a draft is expanded, with the directives that they are made
for. If the `whole` draft is expanded, no inclusion of a document is left out. -/
inductive Scene.Trail (scene : Scene (StateM σ)) (whole : Prop) :
    Draft → List Directive → List Request → Prop
  | done {X : Draft} : Trail scene whole X [] []
  /-- A directive of the draft includes a location. Whether a document is found there is left open;
  nothing is asked for on its behalf. -/
  | asked {X : Draft} {d : Directive} {i : Include} {s s' : σ} {served : List Directive}
    {requests : List Request} (stands : X.tree.Mentions d) (includes : d.kind = .inclusion)
    (read : (d.readInclude scene).run.run s = (.ok i, s'))
    (rest : Trail scene whole X served requests) :
    Trail scene whole X (d :: served)
      ((Request.of? X.directory i.location).toList ++ requests)
  /-- A directive of the draft includes a location, and the document that is found there is
  expanded in its own directory before anything else is asked for. -/
  | opened {X : Draft} {d : Directive} {i : Include} {s s' : σ} {r : Request}
    {content : ByteArray} {tree : Object} {served inner : List Directive}
    {requests within : List Request} (stands : X.tree.Mentions d) (includes : d.kind = .inclusion)
    (read : (d.readInclude scene).run.run s = (.ok i, s'))
    (request : Request.of? X.directory i.location = some r)
    (gives : scene.source.Gives content r) (parses : i.parse content = .ok tree)
    (inside : Trail scene whole ⟨r.directory X.directory, tree⟩ inner within)
    (complete : whole → ∀ d ∈ tree.directives, d.kind = .inclusion → d ∈ inner)
    (rest : Trail scene whole X served requests) :
    Trail scene whole X (d :: served) (r :: within ++ requests)

namespace Scene.Trail

variable {scene : Scene (StateM σ)} {whole whole' : Prop} {X : Draft}
  {served served' : List Directive} {requests requests' : List Request}

theorem weaken (h : scene.Trail whole X served requests) (himp : whole' → whole) :
    scene.Trail whole' X served requests := by
  induction h with
  | done => exact .done
  | asked stands includes read _ ih => exact .asked stands includes read ih
  | opened stands includes read request gives parses _ complete _ inside rest =>
      exact .opened stands includes read request gives parses inside
        (fun h => complete (himp h)) rest

theorem append (h : scene.Trail whole X served requests)
    (h' : scene.Trail whole X served' requests') :
    scene.Trail whole X (served ++ served') (requests ++ requests') := by
  induction h with
  | done => exact h'
  | asked stands includes read _ ih =>
      rw [List.append_assoc]
      exact .asked stands includes read (ih h')
  | opened stands includes read request gives parses inside complete _ _ rest =>
      rw [List.cons_append, List.append_assoc]
      exact .opened stands includes read request gives parses inside complete (rest h')

end Scene.Trail

/-! ## Arguments -/

/-- A computation makes no request. -/
def Quiet {ε α : Type} (asked : σ → List Request) (x : ExceptT ε (StateM σ) α) : Prop :=
  ∀ s, asked (x.run.run s).2 = asked s

namespace Quiet

variable {ε ε' α β : Type} {asked : σ → List Request} {x : ExceptT ε (StateM σ) α}

theorem pure (a : α) : Quiet asked (Pure.pure a : ExceptT ε (StateM σ) α) :=
  fun _ => rfl

theorem throw (e : ε) : Quiet asked (throw e : ExceptT ε (StateM σ) α) :=
  fun _ => rfl

theorem bind {f : α → ExceptT ε (StateM σ) β} (hx : Quiet asked x) (hf : ∀ a, Quiet asked (f a)) :
    Quiet asked (x >>= f) := by
  intro s
  have hs := hx s
  cases hrun : x.run.run s with
  | mk r s' =>
      rw [hrun] at hs
      cases r with
      | error e => rwa [run_bind_error hrun]
      | ok a =>
          rw [run_bind_ok hrun]
          exact (hf a s').trans hs

theorem adapt (f : ε → ε') (hx : Quiet asked x) : Quiet asked (x.adapt f) := by
  intro s
  rw [run_adapt]
  exact hx s

end Quiet

namespace Scene.Records

variable {scene : Scene (StateM σ)} {asked : σ → List Request}

/-- What evaluation asks the host is not recorded. -/
def quiet (h : scene.Records asked) : Discipline scene.host where
  Holds x := Quiet asked x
  settled _ _ := rfl
  bind := Quiet.bind
  readText := h.readText
  isFile := h.isFile
  isDirectory := h.isDirectory
  random := h.random

variable (h : scene.Records asked) (d : Directive) (parameter : String)
include h

theorem evaluate (payload : Payload) : Quiet asked (d.evaluate scene parameter payload) := by
  cases payload with
  | expr e => exact (h.quiet.evaluate e scene.env).adapt ExpansionError.eval
  | ident name => exact .throw _
  | block o => exact .throw _

theorem nameOf (payload : Payload) : Quiet asked (d.nameOf scene parameter payload) := by
  cases payload with
  | ident name => exact .pure name
  | block o => exact .throw _
  | expr e =>
      refine (h.evaluate d parameter (.expr e)).bind fun v => ?_
      split
      · exact .pure _
      · exact .throw _

theorem textOf (payload : Payload) : Quiet asked (d.textOf scene parameter payload) := by
  refine (h.evaluate d parameter payload).bind fun v => ?_
  split
  · exact .pure _
  · exact .throw _

theorem flagOf (payload? : Option Payload) : Quiet asked (d.flagOf scene parameter payload?) := by
  cases payload? with
  | none => exact .pure false
  | some payload =>
      refine (h.evaluate d parameter payload).bind fun v => ?_
      split
      · exact .pure _
      · exact .throw _

theorem methodOf (payload? : Option Payload) : Quiet asked (d.methodOf scene payload?) := by
  cases payload? with
  | none => exact .pure Method.merge
  | some payload =>
      refine (h.nameOf d "method" payload).bind fun name => ?_
      split
      · exact .pure _
      · exact .throw _

theorem textsOf (payload : Payload) : Quiet asked (d.textsOf scene parameter payload) := by
  refine (h.evaluate d parameter payload).bind fun v => ?_
  split
  · split
    · exact .pure _
    · exact .throw _
  · exact .throw _

theorem depthOf (payload : Payload) : Quiet asked (d.depthOf scene parameter payload) := by
  refine (h.evaluate d parameter payload).bind fun v => ?_
  split
  · split
    · exact .throw _
    · exact .pure _
  · exact .throw _

omit h in
theorem bind (params : List String) :
    Quiet asked (d.bind params : Expansion (StateM σ) _) :=
  fun _ => rfl

omit h in
theorem required (bound : List (String × Payload)) :
    Quiet asked (d.required bound parameter : Expansion (StateM σ) _) := by
  unfold Directive.required
  split
  · exact .pure _
  · exact .throw _

theorem readInclude : Quiet asked (d.readInclude scene) := by
  refine (bind d _).bind fun args => ?_
  refine (required d _ args).bind fun payload => ?_
  refine (h.textOf d _ payload).bind fun location => ?_
  have hrest : ∀ name, Quiet asked (do
      let fatal ← d.flagOf scene "fatal" (Keyed.get? args "fatal")
      let method ← d.methodOf scene (Keyed.get? args "method")
      return (⟨location, name, fatal, method⟩ : Include)) := fun name =>
    (h.flagOf d _ _).bind fun fatal => (h.methodOf d _).bind fun method => .pure _
  dsimp only
  split
  · exact (h.nameOf d _ _).bind hrest
  · exact (Quiet.pure _).bind hrest

theorem selectFields {x : Expander (StateM σ)} (hx : x.toScene = scene)
    (args : List (String × Payload)) (block : Object) :
    Quiet asked (x.selectFields d args block) := by
  unfold Expander.selectFields
  rw [hx]
  extract_lets cut
  have hcut : ∀ block, Quiet asked (cut block) := by
    intro block
    simp only [cut]
    split
    · exact .pure _
    · exact (h.depthOf d _ _).bind fun depth => .pure _
  split
  · exact (Quiet.pure _).bind hcut
  · exact (h.textsOf d _ _).bind fun keys => (Quiet.pure _).bind hcut

theorem apply {x : Expander (StateM σ)} (hx : x.toScene = scene) (scope : Scope) :
    Quiet asked (x.apply d scope) := by
  unfold Expander.apply
  rw [hx]
  refine (bind d _).bind fun args => (required d _ args).bind fun payload =>
    (h.nameOf d _ payload).bind fun name => (h.methodOf d _).bind fun method => ?_
  split
  · exact .throw _
  · exact .pure _
  · exact (h.selectFields d hx args _).bind fun block => .pure _

/-- What is fetched is what has been asked for. -/
theorem run_fetch (level : Nat) (directory location : String) (s : σ) :
    asked ((scene.source.fetch level directory location).run s).2 =
        asked s ++ (Request.of? directory location).toList ∧
      ∀ content directory', ((scene.source.fetch level directory location).run s).1 =
        .ok (content, directory') → ∃ r, Request.of? directory location = some r ∧
          scene.source.Gives content r ∧ directory' = r.directory directory := by
  unfold Source.fetch Request.of?
  cases Location.ofText location with
  | other scheme => exact ⟨(List.append_nil _).symm, nofun⟩
  | file path =>
      dsimp only
      have hread := h.read level (Path.join directory path) s
      cases hrun : (scene.source.read level (Path.join directory path)).run s with
      | mk r s' =>
          rw [hrun] at hread
          rw [StateT.run_bind, hrun]
          refine ⟨hread, fun content directory' hok => ⟨_, rfl, ?_⟩⟩
          cases r with
          | error e => cases hok
          | ok found =>
              cases hok
              exact ⟨⟨level, s, s', hrun⟩, rfl⟩
  | web url =>
      dsimp only
      have hget := h.get level url s
      cases hrun : (scene.source.get level url).run s with
      | mk r s' =>
          rw [hrun] at hget
          rw [StateT.run_bind, hrun]
          refine ⟨hget, fun content directory' hok => ⟨_, rfl, ?_⟩⟩
          cases r with
          | error e => cases hok
          | ok response =>
              obtain ⟨status, body⟩ := response
              change (if 400 ≤ status then Except.error (FetchError.status status)
                else Except.ok (body, directory)) = _ at hok
              split at hok
              · cases hok
              · rename_i hstatus
                cases hok
                exact ⟨⟨level, s, s', status, Nat.lt_of_not_le hstatus, hrun⟩, rfl⟩

end Scene.Records

/-! ## Runs -/

/-- Every run of a computation that is part of expanding a draft makes the requests of a trail. If
it has a result, it has made those for `due`. -/
def Scene.Follows {α : Type} (scene : Scene (StateM σ)) (asked : σ → List Request) (X : Draft)
    (due : List Directive) (x : Expansion (StateM σ) α) : Prop :=
  ∀ s, ∃ served requests, asked (x.run.run s).2 = asked s ++ requests ∧
    scene.Trail (∃ a, (x.run.run s).1 = .ok a) X served requests ∧
    ((∃ a, (x.run.run s).1 = .ok a) → ∀ d ∈ due, d.kind = .inclusion → d ∈ served)

namespace Scene.Follows

variable {scene : Scene (StateM σ)} {asked : σ → List Request} {X : Draft} {α β : Type}
  {due due' : List Directive}

theorem quiet {x : Expansion (StateM σ) α} (h : Quiet asked x) : scene.Follows asked X [] x :=
  fun s => ⟨[], [], (h s).trans (List.append_nil _).symm, .done, fun _ => nofun⟩

theorem weaken {x : Expansion (StateM σ) α} (h : scene.Follows asked X due x)
    (hdue : ∀ d ∈ due', d.kind = .inclusion → d ∈ due) : scene.Follows asked X due' x := by
  intro s
  obtain ⟨served, requests, hasked, htrail, hserved⟩ := h s
  exact ⟨served, requests, hasked, htrail,
    fun hok d hmem hkind => hserved hok d (hdue d hmem hkind) hkind⟩

theorem bind {x : Expansion (StateM σ) α} {f : α → Expansion (StateM σ) β} {P : α → Prop}
    (hx : scene.Follows asked X due x) (hP : Ensures x P)
    (hf : ∀ a, P a → scene.Follows asked X due' (f a)) :
    scene.Follows asked X (due ++ due') (x >>= f) := by
  intro s
  obtain ⟨served, requests, hasked, htrail, hserved⟩ := hx s
  cases hrun : x.run.run s with
  | mk r s' =>
      rw [hrun] at hasked htrail hserved
      cases r with
      | error e =>
          rw [run_bind_error hrun]
          exact ⟨served, requests, hasked, htrail.weaken nofun, nofun⟩
      | ok a =>
          rw [run_bind_ok hrun]
          obtain ⟨served', requests', hasked', htrail', hserved'⟩ :=
            hf a (hP.of_run hrun) s'
          refine ⟨served ++ served', requests ++ requests', ?_, ?_, ?_⟩
          · rw [hasked', hasked, List.append_assoc]
          · exact (htrail.weaken fun _ => ⟨a, rfl⟩).append htrail'
          · intro hok d hmem hkind
            rcases List.mem_append.mp hmem with hmem | hmem
            · exact List.mem_append_left _ (hserved ⟨a, rfl⟩ d hmem hkind)
            · exact List.mem_append_right _ (hserved' hok d hmem hkind)

/-- What comes first makes no request. -/
theorem after {x : Expansion (StateM σ) α} {f : α → Expansion (StateM σ) β} {P : α → Prop}
    (hx : Quiet asked x) (hP : Ensures x P) (hf : ∀ a, P a → scene.Follows asked X due (f a)) :
    scene.Follows asked X due (x >>= f) :=
  (quiet hx).bind hP hf

/-- What follows has no request to make. -/
theorem followed {x : Expansion (StateM σ) α} {f : α → Expansion (StateM σ) β} {P : α → Prop}
    (hx : scene.Follows asked X due x) (hP : Ensures x P)
    (hf : ∀ a, P a → scene.Follows asked X [] (f a)) : scene.Follows asked X due (x >>= f) := by
  have h := hx.bind hP hf
  rwa [List.append_nil] at h

/-- What follows makes no request. -/
theorem before {x : Expansion (StateM σ) α} {f : α → Expansion (StateM σ) β}
    (hx : scene.Follows asked X due x) (hf : ∀ a, Quiet asked (f a)) :
    scene.Follows asked X due (x >>= f) :=
  hx.followed (.intro fun _ => True.intro) fun a _ => quiet (hf a)

end Scene.Follows

/-! ## Expansion -/

/-- An object has no other directives than a draft. -/
def Draft.Holds (X : Draft) (o : Object) : Prop :=
  ∀ d, o.Mentions d → X.tree.Mentions d

/-- A way to expand objects of up to `n` directives follows a draft. -/
def Scene.FollowsTo (scene : Scene (StateM σ)) (asked : σ → List Request) (X : Draft) (n : Nat)
    (expand : Scope → Object → Expansion (StateM σ) Object) : Prop :=
  ∀ scope o, Scope.Plain scope → o.directives ≠ [] → o.weight ≤ n → X.Holds o →
    scene.Follows asked X o.directives (expand scope o)

namespace Scene.FollowsTo

variable {scene : Scene (StateM σ)} {asked : σ → List Request} {X : Draft} {n : Nat}
  {expand : Scope → Object → Expansion (StateM σ) Object} {scope : Scope}

section Descend

mutual

theorem descend (hexpand : scene.FollowsTo asked X n expand) (hscope : Scope.Plain scope) :
    ∀ {o : Object}, o.weight ≤ n → X.Holds o →
      scene.Follows asked X o.directives (o.descend expand scope)
  | ⟨_, _, fields, [], _, _, _⟩, h, hX => by
    rw [Object.weight] at h
    rw [Object.descend]
    have hweight : weightFields fields ≤ n := by omega
    have hfields := descendFields hexpand hscope hweight
      fun d ⟨field, hmem, inside⟩ => hX d (.field hmem inside)
    exact hfields.before fun fields' => .pure _
  | ⟨_, _, _, d :: ds, _, _, _⟩, h, hX => by
    rw [Object.descend]
    · exact hexpand scope _ hscope (List.cons_ne_nil d ds) h hX
    · exact List.cons_ne_nil d ds

theorem descendFields (hexpand : scene.FollowsTo asked X n expand) (hscope : Scope.Plain scope) :
    ∀ {fields : Fields}, weightFields fields ≤ n →
      (∀ d, Fields.Mentions d fields → X.tree.Mentions d) →
        scene.Follows asked X [] (ConfigLang.descendFields expand scope fields)
  | [], _, _ => by
    rw [ConfigLang.descendFields]
    exact .quiet (.pure _)
  | (key, node) :: fields, h, hX => by
    rw [weightFields] at h
    rw [ConfigLang.descendFields]
    have hweight : node.weight ≤ n ∧ weightFields fields ≤ n := by omega
    have hnode := descendNode hexpand hscope hweight.1 fun d inside =>
      hX d ⟨_, List.mem_cons_self, inside⟩
    have hfields := descendFields hexpand hscope hweight.2
      fun d ⟨field, hmem, inside⟩ => hX d ⟨field, List.mem_cons_of_mem _ hmem, inside⟩
    exact hnode.bind (.intro fun _ => True.intro) fun node' _ => hfields.before fun _ => .pure _

theorem descendNode (hexpand : scene.FollowsTo asked X n expand) (hscope : Scope.Plain scope) :
    ∀ {node : Node}, node.weight ≤ n → (∀ d, node.Mentions d → X.tree.Mentions d) →
      scene.Follows asked X [] (node.descend expand scope)
  | .option binding, _, _ => by
    rw [Node.descend]
    exact .quiet (.pure _)
  | .object o, h, hX => by
    rw [Node.weight] at h
    rw [Node.descend]
    have ho := descend hexpand hscope h fun d inside => hX d (.object inside)
    exact (ho.before fun o' => .pure _).weaken (List.forall_mem_nil _)
  | .list name items, h, hX => by
    rw [Node.weight] at h
    rw [Node.descend]
    have hitems := descendItems hexpand hscope h fun d item hmem inside => hX d (.item hmem inside)
    exact hitems.before fun items' => .pure _

theorem descendItems (hexpand : scene.FollowsTo asked X n expand) (hscope : Scope.Plain scope) :
    ∀ {items : List Node}, weightItems items ≤ n →
      (∀ d, ∀ item ∈ items, item.Mentions d → X.tree.Mentions d) →
        scene.Follows asked X [] (ConfigLang.descendItems expand scope items)
  | [], _, _ => by
    rw [ConfigLang.descendItems]
    exact .quiet (.pure _)
  | item :: items, h, hX => by
    rw [weightItems] at h
    rw [ConfigLang.descendItems]
    have hweight : item.weight ≤ n ∧ weightItems items ≤ n := by omega
    have hitem := descendNode hexpand hscope hweight.1 fun d inside =>
      hX d item List.mem_cons_self inside
    have hitems := descendItems hexpand hscope hweight.2
      fun d item hmem inside => hX d item (List.mem_cons_of_mem _ hmem) inside
    exact hitem.bind (.intro fun _ => True.intro) fun item' _ => hitems.before fun _ => .pure _

end

end Descend

end Scene.FollowsTo

namespace Expander

variable {x : Expander (StateM σ)} {scene : Scene (StateM σ)} {asked : σ → List Request}
  {X : Draft} {n : Nat} {expand : Scope → Object → Expansion (StateM σ) Object} {scope : Scope}
  {d : Directive}

theorem follows_define (h : scene.Records asked) (hx : x.toScene = scene)
    (hexpand : scene.FollowsTo asked X n expand) (hscope : Scope.Plain scope)
    (hargs : weightArgs d.args ≤ n)
    (hX : ∀ arg ∈ d.args, ∀ block, arg.value = .block block → X.Holds block) :
    scene.Follows asked X [] (x.define (Object.descend expand) d scope) := by
  -- a block among the bound arguments is one among the arguments
  let given : Payload → Prop := fun payload => ∃ arg ∈ d.args, arg.value = payload
  have hbind := Directive.ensures_bind (m := StateM σ) (P := given)
    (fun arg hmem => ⟨arg, hmem, rfl⟩) ["name", "fragment"]
  unfold define
  rw [hx]
  refine .after (Scene.Records.bind d _) hbind fun args hgiven => ?_
  refine .after (Scene.Records.required d _ args) (.intro fun _ => True.intro) fun payload _ => ?_
  refine .after (h.nameOf d _ payload) (.intro fun _ => True.intro) fun name _ => ?_
  refine .after (Scene.Records.required d _ args) (d.ensures_required hgiven "fragment")
    fun payload hpayload => ?_
  obtain ⟨arg, hmem, rfl⟩ := hpayload
  cases hvalue : arg.value with
  | expr e => exact .quiet ((Quiet.pure _).bind fun _ => .pure _)
  | ident ident => exact .quiet ((Quiet.throw _).bind fun _ => .pure _)
  | block o =>
      have hweight : o.weight ≤ n := by
        have hle := weight_le_of_mem_args hmem
        rw [hvalue, Payload.weight] at hle
        exact hle.trans hargs
      have ho := hexpand.descend hscope hweight (hX arg hmem o hvalue)
      have hdefined := ho.before (f := fun o' => Pure.pure (Fragment.block o') >>= fun fragment =>
        Pure.pure { Effect.none with fragments := [(name, fragment)] }) fun o' =>
          (Quiet.pure (Fragment.block o')).bind fun _ => .pure _
      exact hdefined.weaken (List.forall_mem_nil _)

/-- A document that has been found is expanded in its own directory. -/
theorem follows_found {nested : String → Object → Expansion (StateM σ) Object} {i : Include}
    {r : Request} {content : ByteArray} {s s₀ s₁ s₂ : σ}
    (hkind : d.kind = .inclusion) (hX : X.tree.Mentions d)
    (hread : (d.readInclude scene).run.run s₀ = (.ok i, s₁))
    (hrequest : Request.of? X.directory i.location = some r)
    (hgives : scene.source.Gives content r) (hasked : asked s₂ = asked s ++ [r])
    (hnested : ∀ Y : Draft, scene.Follows asked Y Y.tree.directives (nested Y.directory Y.tree)) :
    let x : Expansion (StateM σ) Effect := do
      let document ← ExceptT.mk (pure (i.parse content))
      let document ← nested (r.directory X.directory) document
      return ⟨i.method, i.fields document, []⟩
    ∃ requests, asked (x.run.run s₂).2 = asked s ++ requests ∧
      scene.Trail (∃ e, (x.run.run s₂).1 = .ok e) X [d] requests := by
  intro x
  have hparse {result : Except ExpansionError Object} (h : i.parse content = result) :
      (ExceptT.mk (pure (i.parse content)) : Expansion (StateM σ) Object).run.run s₂ =
        (result, s₂) := congrArg (·, s₂) h
  cases htree : i.parse content with
  | error e =>
      have hx : x.run.run s₂ = (.error e, s₂) := run_bind_error (hparse htree)
      rw [hx]
      have hone : (Request.of? X.directory i.location).toList ++ [] = [r] := by rw [hrequest]; rfl
      exact ⟨_, hasked.trans (congrArg _ hone.symm), .asked hX hkind hread .done⟩
  | ok tree =>
      have hx : x.run.run s₂ = (do
          let document ← nested (r.directory X.directory) tree
          return (⟨i.method, i.fields document, []⟩ : Effect)).run.run s₂ :=
        run_bind_ok (hparse htree)
      obtain ⟨inner, within, hwithin, htrail, hall⟩ :=
        hnested ⟨r.directory X.directory, tree⟩ s₂
      cases hinside : (nested (r.directory X.directory) tree).run.run s₂ with
      | mk result s₃ =>
          rw [hinside] at hwithin htrail hall
          -- the include has a result if and only if the document has been expanded
          obtain ⟨hstate, hwhole⟩ : (x.run.run s₂).2 = s₃ ∧
              ((∃ e, (x.run.run s₂).1 = .ok e) → ∃ a, result = .ok a) := by
            rw [hx]
            cases result with
            | error e =>
                rw [run_bind_error hinside]
                exact ⟨rfl, nofun⟩
            | ok document =>
                rw [run_bind_ok hinside]
                exact ⟨rfl, fun _ => ⟨document, rfl⟩⟩
          refine ⟨r :: within ++ [], ?_, .opened hX hkind hread hrequest hgives htree
            (htrail.weaken hwhole) (fun hok => hall (hwhole hok)) .done⟩
          rw [hstate, hwithin, hasked, List.append_assoc, List.append_nil]
          rfl

theorem follows_includeDocument (h : scene.Records asked) (hx : x.toScene = scene)
    (hdirectory : x.directory = X.directory) (hkind : d.kind = .inclusion)
    (hX : X.tree.Mentions d)
    (hnested : ∀ nested ∈ x.nested?, ∀ Y : Draft,
      scene.Follows asked Y Y.tree.directives (nested Y.directory Y.tree)) :
    scene.Follows asked X [d] (x.includeDocument d) := by
  intro s
  unfold includeDocument
  rw [hx, hdirectory]
  have hquiet := h.readInclude d s
  cases hread : (d.readInclude scene).run.run s with
  | mk r s₁ =>
      rw [hread] at hquiet
      cases r with
      | error e =>
          rw [run_bind_error hread]
          exact ⟨[], [], hquiet.trans (List.append_nil _).symm, .done, nofun⟩
      | ok i =>
          rw [run_bind_ok hread]
          cases hdeep : x.nested? with
          | none => exact ⟨[], [], hquiet.trans (List.append_nil _).symm, .done, nofun⟩
          | some nested =>
              obtain ⟨hasked, hfound⟩ := h.run_fetch x.level X.directory i.location s₁
              cases hfetch : (scene.source.fetch x.level X.directory i.location).run s₁ with
              | mk fetched s₂ =>
                  rw [hfetch, hquiet] at hasked
                  rw [hfetch] at hfound
                  dsimp only
                  rw [run_bind_ok (run_liftM_eq_ok.mpr hfetch)]
                  cases fetched with
                  | error e =>
                      rw [← List.append_nil (Request.of? _ _).toList] at hasked
                      refine ⟨[d], _, ?_, .asked hX hkind hread .done, fun _ _ hmem _ => hmem⟩
                      dsimp only
                      split <;> exact hasked
                  | ok found =>
                      obtain ⟨content, directory⟩ := found
                      obtain ⟨r, hrequest, hgives, rfl⟩ := hfound content directory rfl
                      rw [hrequest] at hasked
                      obtain ⟨requests, hrequests, htrail⟩ := follows_found hkind hX hread hrequest
                        hgives hasked (hnested nested hdeep)
                      exact ⟨[d], requests, hrequests, htrail, fun _ _ hmem _ => hmem⟩

theorem follows_effect (h : scene.Records asked) (hx : x.toScene = scene)
    (hdirectory : x.directory = X.directory)
    (hnested : ∀ nested ∈ x.nested?, ∀ Y : Draft,
      scene.Follows asked Y Y.tree.directives (nested Y.directory Y.tree))
    (hexpand : scene.FollowsTo asked X n expand) (hscope : Scope.Plain scope)
    (hargs : weightArgs d.args ≤ n) {o : Object} (hd : d ∈ o.directives) (hX : X.Holds o) :
    scene.Follows asked X [d] (x.effect (Object.descend expand) d scope) := by
  unfold effect
  split
  · rename_i hkind
    have hdefine := follows_define h hx hexpand hscope hargs
      fun arg harg block hblock other inside => hX other (.argument hd harg hblock inside)
    refine hdefine.weaken (List.forall_mem_singleton.mpr fun hinclusion => ?_)
    cases hkind.symm.trans hinclusion
  · rename_i hkind
    refine (Scene.Follows.quiet (h.apply d hx scope)).weaken
      (List.forall_mem_singleton.mpr fun hinclusion => ?_)
    cases hkind.symm.trans hinclusion
  · rename_i hkind
    exact follows_includeDocument h hx hdirectory hkind (hX d (.of_mem hd)) hnested

theorem follows_effects (h : scene.Records asked) (hx : x.toScene = scene)
    (hdirectory : x.directory = X.directory)
    (hnested : ∀ nested ∈ x.nested?, ∀ Y : Draft,
      scene.Follows asked Y Y.tree.directives (nested Y.directory Y.tree))
    (hplain : (Comparison.same Unit (StateM σ)).Shares scene fun _ => x)
    (hexpand : scene.FollowsTo asked X n expand)
    (hexpands : (Comparison.same Unit (StateM σ)).Expands n fun _ => expand)
    {o : Object} (hX : X.Holds o) {ds : List Directive} (hds : ds ⊆ o.directives)
    (hscope : Scope.Plain scope) (hargs : ∀ d ∈ ds, weightArgs d.args ≤ n) :
    scene.Follows asked X ds (x.effects (Object.descend expand) scope ds) := by
  induction ds generalizing scope with
  | nil => exact .quiet (.pure _)
  | cons d ds ih =>
      obtain ⟨hd, hrest⟩ := List.cons_subset.mp hds
      obtain ⟨harg, hargs⟩ := List.forall_mem_cons.mp hargs
      have hfirst := follows_effect h hx hdirectory hnested hexpand hscope harg hd hX
      have heffect := (Comparison.effect hplain hexpands hscope harg).2 ()
      rw [effects]
      refine hfirst.bind heffect fun e he => ?_
      have hvisible : Scope.Plain (e.fragments ++ scope) :=
        Effect.plain_visible hscope (List.forall_mem_singleton.mpr he)
      exact (ih hrest hvisible hargs).before fun es => .pure _

theorem follows_expandObject (h : scene.Records asked) (hx : x.toScene = scene)
    (hdirectory : x.directory = X.directory)
    (hnested : ∀ nested ∈ x.nested?, ∀ Y : Draft,
      scene.Follows asked Y Y.tree.directives (nested Y.directory Y.tree))
    (hplain : (Comparison.same Unit (StateM σ)).Shares scene fun _ => x) (n : Nat) :
    scene.FollowsTo asked X n (x.expandObject n) := by
  induction n with
  | zero =>
      intro scope o _ hne hweight _
      exact absurd (Object.directives_of_weight (Nat.le_zero.mp hweight)) hne
  | succ n ih =>
      intro scope o hscope hne hweight hX
      have hexpands : (Comparison.same Unit (StateM σ)).Expands n fun _ => x.expandObject n := by
        simp only [expandObject_eq_unfold]
        exact Comparison.expands_unfold hplain (fun _ _ o => pure o) n
      have hargs : ∀ d ∈ o.directives, weightArgs d.args ≤ n :=
        fun d hmem => Nat.le_of_lt_succ ((o.weightArgs_lt hmem).trans_le hweight)
      have hfields : weightFields o.fields ≤ n :=
        Nat.le_of_lt_succ ((o.weightFields_lt hne).trans_le hweight)
      have heffects := (Comparison.effects hplain hexpands hscope hargs).2 ()
      have hfollows := follows_effects h hx hdirectory hnested hplain ih hexpands hX
        (List.Subset.refl _) hscope hargs
      rw [expandObject_eq]
      refine hfollows.followed heffects fun es hes => ?_
      have hholds : X.Holds _ := fun d inside =>
        hX d (.of_arrivals (fun e he => (hes e he).fields) inside)
      have hinside := ih.descend (Effect.plain_visible hscope hes)
        ((o.weight_combineEach_arrivals_le hes).trans hfields) hholds
      exact hinside.weaken (List.forall_mem_nil _)

theorem follows_expand (h : scene.Records asked) (hx : x.toScene = scene)
    (hdirectory : x.directory = X.directory)
    (hnested : ∀ nested ∈ x.nested?, ∀ Y : Draft,
      scene.Follows asked Y Y.tree.directives (nested Y.directory Y.tree))
    (hplain : (Comparison.same Unit (StateM σ)).Shares scene fun _ => x) :
    scene.Follows asked X X.tree.directives (x.expand X.tree) :=
  (follows_expandObject h hx hdirectory hnested hplain X.tree.weight).descend
    (List.forall_mem_nil _) (Nat.le_refl _) fun _ => id

end Expander

namespace Scene

variable {scene : Scene (StateM σ)} {asked : σ → List Request}

theorem follows_expandWithin (h : scene.Records asked) (budget : Nat) (X : Draft) :
    scene.Follows asked X X.tree.directives (scene.expandWithin budget X.directory X.tree) := by
  induction budget generalizing X with
  | zero =>
      exact Expander.follows_expand h rfl rfl nofun
        (scene.includesPlain_expander X.directory 0).shares
  | succ budget ih =>
      refine Expander.follows_expand h rfl rfl ?_
        (scene.includesPlain_expander X.directory (budget + 1)).shares
      rintro nested ⟨⟩ Y
      exact ih Y

/-- **Every request is made for an include of the document at hand**, and a relative location is
looked for in the directory of that document. -/
theorem expand_requests (h : scene.Records asked) (X : Draft) (s : σ) :
    ∃ served requests,
      asked ((scene.expand X.directory X.tree).run.run s).2 = asked s ++ requests ∧
      scene.Trail (∃ o, ((scene.expand X.directory X.tree).run.run s).1 = .ok o) X served
        requests ∧
      ((∃ o, ((scene.expand X.directory X.tree).run.run s).1 = .ok o) →
        ∀ d ∈ X.tree.directives, d.kind = .inclusion → d ∈ served) :=
  follows_expandWithin h includeLimit X s

end Scene

/-! ## A bundle with a record -/

/-- The source that gives the content of a bundle and records what it is asked for. -/
def Bundle.recorded (b : Bundle) : Source (StateM (List Request)) where
  read _ path := modifyGet fun asked => (b.read path, asked ++ [.file path])
  get _ url := modifyGet fun asked => (b.get url, asked ++ [.page url])

/-- A scene with the content of a bundle, and nothing else. -/
def Scene.ofBundle (b : Bundle) : Scene (StateM (List Request)) :=
  ⟨(FileTree.mk [] []).host, b.recorded, .ofBase .empty⟩

theorem Scene.records_ofBundle (b : Bundle) : (Scene.ofBundle b).Records id where
  read _ _ _ := rfl
  get _ _ _ := rfl
  readText _ _ := rfl
  isFile _ _ := rfl
  isDirectory _ _ := rfl
  random _ _ := rfl

/-- A file that includes a file next to itself, which is looked for in its own directory. -/
theorem Scene.expand_requests_of_files :
    ∃ (scene : Scene (StateM (List Request))) (root : Object) (served : List Directive),
      parseDocument ".include(\"conf/app.fig\")\n" = .ok root ∧ scene.Records id ∧
        ((scene.expand "" root).run.run []).2 = [.file "conf/app.fig", .file "conf/db.fig"] ∧
        scene.Trail (∃ o, ((scene.expand "" root).run.run []).1 = .ok o) ⟨"", root⟩ served
          [.file "conf/app.fig", .file "conf/db.fig"] := by
  let bundle := (Bundle.empty.addFile "conf/app.fig" ".include(\"db.fig\")\n".toUTF8).addFile
    "conf/db.fig" "k = 1\n".toUTF8
  let scene := Scene.ofBundle bundle
  have hfound : (parseDocument ".include(\"conf/app.fig\")\n").toOption.any (fun root =>
      ((scene.expand "" root).run.run []).2 = [.file "conf/app.fig", .file "conf/db.fig"]) =
        true := by
    decide +kernel
  obtain ⟨root, hparse, hrun⟩ := exists_of_any hfound
  have hasked := of_decide_eq_true hrun
  obtain ⟨served, requests, hrequests, htrail, -⟩ :=
    Scene.expand_requests (Scene.records_ofBundle bundle) ⟨"", root⟩ []
  obtain rfl : requests = [.file "conf/app.fig", .file "conf/db.fig"] :=
    hrequests.symm.trans hasked
  exact ⟨scene, root, served, hparse, Scene.records_ofBundle bundle, hasked, htrail⟩

/-- A page has no directory of its own: when a document in the directory `conf` includes it, a local
file in `conf` is read for it. -/
theorem Scene.expand_page_reads_file :
    ∃ (scene : Scene (StateM (List Request))) (root page : Object),
      parseDocument ".include(\"http://h/a.fig\")\n" = .ok root ∧
      scene.source.Gives ".include(\"secret.fig\")\n".toUTF8 (.page "http://h/a.fig") ∧
      parseDocument ".include(\"secret.fig\")\n" = .ok page ∧ scene.Records id ∧
        ((scene.expand "conf" root).run.run []).2 =
          [.page "http://h/a.fig", .file "conf/secret.fig"] := by
  let bundle := (Bundle.empty.addPage "http://h/a.fig"
    ⟨200, ".include(\"secret.fig\")\n".toUTF8⟩).addFile "conf/secret.fig" "k = 1\n".toUTF8
  let scene := Scene.ofBundle bundle
  have hfound : (parseDocument ".include(\"http://h/a.fig\")\n").toOption.any (fun root =>
      ((scene.expand "conf" root).run.run []).2 =
        [.page "http://h/a.fig", .file "conf/secret.fig"]) = true := by
    decide +kernel
  have hpage : (parseDocument ".include(\"secret.fig\")\n").toOption.any (fun _ => true) =
      true := by
    decide +kernel
  obtain ⟨root, hparse, hrun⟩ := exists_of_any hfound
  obtain ⟨page, hparse', -⟩ := exists_of_any hpage
  exact ⟨scene, root, page, hparse, ⟨0, [], _, 200, by decide, rfl⟩, hparse',
    Scene.records_ofBundle bundle, of_decide_eq_true hrun⟩

end ConfigLang
