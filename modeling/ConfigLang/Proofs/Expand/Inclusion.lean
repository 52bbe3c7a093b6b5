import Mathlib
import ConfigLang.Proofs.Expand.Course

/-!
# Chains and cycles of includes

A document opens another one if its expansion comes to an inclusion that finds it: the
arguments are read, content is fetched from the location, and that is parsed
(`Scene.Opens`).  Whether the other one can be expanded is not asked.

* `Scene.Leads` counts how many documents are opened one inside the other.  What leads
  deeper than the includes to go is not expanded (`Scene.Leads.fails`), since a failure
  is passed on.
* A `Scene.Chain` leads as deep as its length, and nothing is wrong with the directives
  of its documents (`Scene.Fine`).  It is expanded with as many includes to go
  (`Scene.Chain.succeeds`), since nothing else fails.
* A cycle leads to any depth (`Scene.leads_of_cycle`).  It comes back to a document in a
  directory that the source does not tell from the first one (`Source.Alike`); the texts
  of the two may differ, as `d` and `d/../d` do.

Together these make `expand_bounded`.

## Strategy

* **Any number of includes to go.**  An expander with more or fewer includes to go than another
  gives the same, or it fails (`Scene.follows_expander`).  So it does not matter which one comes to
  an inclusion: where the inclusion fails, every expander fails (`Scene.Opens.fails`).
* **Depth.**  `Scene.Leads.fails` and `Scene.Chain.succeeds` are by induction on what leads on, one
  include less to go with every document.
* **Directories.**  In directories that are alike the same content is found, and its includes are
  looked for in directories that are alike again (`Source.Alike.fetch`).  So all directives bring
  the same (`Scene.effect_alike`), and what is opened is alike (`Scene.Opens.alike`).
* **Single includes.**  A document whose only directive is an inclusion opens nothing but what that
  finds (`Scene.Single.eq_of_opens`).  This makes it a chain, or a step of a cycle.
-/

namespace ConfigLang

open Running Relation

variable {σ : Type}

/-- A source that is a map from locations to contents. -/
def Source.ofMaps {m : Type → Type} [Monad m] (files : String → Except FetchError ByteArray)
    (web : String → Except FetchError Response) : Source m :=
  ⟨fun _ path => pure (files path), fun _ url => pure (web url)⟩

namespace Scene

variable {scene : Scene (StateM σ)} {files : String → Except FetchError ByteArray}
  {web : String → Except FetchError Response} {p q : Draft × σ} {budget : Nat}

/-! ## With more or fewer includes to go -/

theorem toScene_expander (scene : Scene (StateM σ)) (directory : String) (budget : Nat) :
    (scene.expander directory budget).toScene = scene := by
  cases budget <;> rfl

theorem fetch_eq_of_maps (hsource : scene.source = .ofMaps files web) (level level' : Nat)
    (directory location : String) :
    scene.source.fetch level directory location =
      scene.source.fetch level' directory location := by
  unfold Source.fetch
  rw [hsource]
  rfl

/-- The expanders of a document follow each other: one with more or fewer includes to go than
another gives the same, or it fails. -/
theorem follows_expander (hsource : scene.source = .ofMaps files web) (first second : Nat)
    (directory : String) : (Comparison.follows σ).Shares scene
      fun b => scene.expander directory (if b then second else first) := by
  induction first generalizing second directory with
  | zero =>
      refine ⟨fun b => ⟨scene.source, scene.toScene_expander directory _⟩, fun d s e s' hrun => ?_⟩
      -- the first one includes nothing at all
      obtain ⟨fault, after, hfails⟩ :=
        Expander.fails_includeDocument (x := scene.expander directory 0) rfl d s
      cases hrun.symm.trans hfails
  | succ first ih =>
      refine ⟨fun b => ⟨scene.source, scene.toScene_expander directory _⟩, fun d => ?_⟩
      cases second with
      | zero =>
          intro s e s' hrun
          have hplain := scene.includesPlain_expander directory (first + 1) d
          exact ⟨hplain.of_run hrun, .inr (Expander.fails_includeDocument rfl d s)⟩
      | succ second =>
          let nested (b : Bool) := scene.expandWithin (if b then second else first)
          let x (b : Bool) := scene.expander directory (if b then second + 1 else first + 1)
          have hnested : ∀ b, (x b).nested? = some (nested b) := by
            rintro (_ | _) <;> rfl
          have hfetch : ∀ b location, (x b).source.fetch (x b).level (x b).directory location =
              scene.source.fetch 1 directory location := by
            rintro (_ | _) location <;> exact fetch_eq_of_maps hsource _ 1 directory location
          have hplain : ∀ directory o, (Comparison.follows σ).Holds
              (fun b => nested b directory o) fun o' => o'.weight = 0 := by
            intro directory o
            simp only [nested, expandWithin_eq]
            exact Comparison.expand (ih second directory) o
          exact Comparison.includeDocument
            (fun b => ⟨scene.source, scene.toScene_expander directory _⟩) hnested hfetch hplain

/-! ## Opening documents -/

/-- The expansion of a draft from a state comes to an inclusion that finds another draft. -/
inductive Opens (scene : Scene (StateM σ)) : Draft × σ → Draft × σ → Prop
  | intro {p q : Draft × σ} {budget : Nat} {d : Directive} {scope : Scope} {s : σ}
    (comes : (scene.expander p.1.directory budget).Comes [] p.1.tree p.2 d scope s)
    (finds : scene.Finds p.1.directory d s q) : Opens scene p q

theorem Finds.kind {directory : String} {d : Directive} {s : σ}
    (h : scene.Finds directory d s q) : d.kind = .inclusion := by
  obtain ⟨includes, -, -, -⟩ := h
  exact includes

/-- An inclusion finds one document. -/
theorem Finds.unique (hsource : scene.source = .ofMaps files web) {directory : String}
    {d : Directive} {s : σ} {r : Draft × σ} (h : scene.Finds directory d s q)
    (h' : scene.Finds directory d s r) : q = r := by
  obtain @⟨i, content, level, s₁, s₂, ⟨inner, tree⟩, -, read, fetch, parse⟩ := h
  obtain @⟨i', content', level', s₁', s₂', ⟨inner', tree'⟩, -, read', fetch', parse'⟩ := h'
  cases read.symm.trans read'
  rw [fetch_eq_of_maps hsource level level'] at fetch
  cases fetch.symm.trans fetch'
  cases parse.symm.trans parse'
  rfl

/-- The expansion of a draft, where includes may be nested `budget` levels deeper. -/
def expansion (scene : Scene (StateM σ)) (budget : Nat) (X : Draft) : Expansion (StateM σ) Object :=
  scene.expandWithin budget X.directory X.tree

theorem expansion_eq (scene : Scene (StateM σ)) (budget : Nat) (X : Draft) :
    scene.expansion budget X =
      X.tree.descend (scene.expander X.directory budget).expandFully [] := by
  rw [expansion, expandWithin_eq]
  exact (scene.includesPlain_expander X.directory budget).expand_eq X.tree

/-- What opens a document cannot be expanded if that cannot, or if it may include nothing. -/
theorem Opens.fails (hsource : scene.source = .ofMaps files web) (h : scene.Opens p q)
    (hq : ∀ n, budget = n + 1 → Fails (scene.expansion n q.1) q.2) :
    Fails (scene.expansion budget p.1) p.2 := by
  obtain @⟨given, d, scope, s, comes, finds⟩ := h
  have hinclude : Fails ((scene.expander p.1.directory budget).includeDocument d) s := by
    cases budget with
    | zero => exact Expander.fails_includeDocument rfl d s
    | succ n =>
        obtain ⟨i, hrun⟩ := Expander.exists_run_of_finds
          (x := scene.expander p.1.directory (n + 1)) rfl
          (fun level location => fetch_eq_of_maps hsource level _ _ location) finds
        unfold Fails
        rw [hrun]
        exact (hq n rfl).bind
  rw [expansion_eq]
  refine Expander.Comes.fails (follows_expander hsource given budget p.1.directory)
    (fun b => scene.includesPlain_expander _ _) comes (List.forall_mem_nil _) ?_
  unfold Expander.effect
  rw [finds.kind]
  exact hinclude

/-! ## Depth -/

/-- A draft leads to others, each of which is opened by the one before it. -/
inductive Leads (scene : Scene (StateM σ)) : Nat → Draft × σ → Prop
  | nowhere (p : Draft × σ) : Leads scene 0 p
  | deeper {p q : Draft × σ} {depth : Nat} (h : scene.Opens p q) (rest : Leads scene depth q) :
    Leads scene (depth + 1) p

theorem Leads.le {depth less : Nat} (h : scene.Leads depth p) (hle : less ≤ depth) :
    scene.Leads less p := by
  induction h generalizing less with
  | nowhere p =>
      obtain rfl := Nat.le_zero.mp hle
      exact .nowhere p
  | deeper hopens _ ih =>
      cases less with
      | zero => exact .nowhere _
      | succ less => exact .deeper hopens (ih (Nat.le_of_succ_le_succ hle))

/-- **What leads deeper than includes may be nested is not expanded.** -/
theorem Leads.fails (hsource : scene.source = .ofMaps files web) {depth : Nat}
    (h : scene.Leads depth p) (hlt : budget < depth) : Fails (scene.expansion budget p.1) p.2 := by
  induction h generalizing budget with
  | nowhere p => exact absurd hlt (Nat.not_lt_zero _)
  | deeper hopens _ ih =>
      refine hopens.fails hsource fun n hn => ih ?_
      omega

/-! ## Chains -/

/-- There is nothing wrong with the directives of a draft: each that its expansion comes to brings
something, if blocks and included documents are taken as they are. -/
def Fine (scene : Scene (StateM σ)) (p : Draft × σ) : Prop :=
  ∀ budget d scope s, (scene.expander p.1.directory budget).Comes [] p.1.tree p.2 d scope s →
    (scene.expander p.1.directory budget).alone.Brings d scope s

/-- A chain of includes. Each draft opens the next one, and the last one includes nothing; there is
nothing wrong with any of them. What else they open leads to chains that are no longer. -/
inductive Chain (scene : Scene (StateM σ)) : Nat → Draft × σ → Prop
  | last {p : Draft × σ} (fine : scene.Fine p) (none : ∀ budget d scope s,
      (scene.expander p.1.directory budget).Comes [] p.1.tree p.2 d scope s → d.kind ≠ .inclusion) :
    Chain scene 0 p
  | link {p q : Draft × σ} (length : Draft × σ → Nat) (fine : scene.Fine p)
    (next : scene.Opens p q) (longest : ∀ r, scene.Opens p r → length r ≤ length q)
    (rest : ∀ r, scene.Opens p r → Chain scene (length r) r) : Chain scene (length q + 1) p

theorem Chain.leads {length : Nat} (h : scene.Chain length p) : scene.Leads length p := by
  induction h with
  | last => exact .nowhere _
  | link _ _ next _ _ ih => exact .deeper next (ih _ next)

/-- **A chain is expanded where includes may be nested as deep.** -/
theorem Chain.succeeds {length : Nat} (h : scene.Chain length p) (hle : length ≤ budget) :
    Succeeds (scene.expansion budget p.1) p.2 := by
  induction h generalizing budget with
  | @last p fine none =>
      rw [expansion_eq]
      refine Expander.succeeds_descend (scene.includesPlain_expander _ _) _ _ _
        (List.forall_mem_nil _) fun d scope s hcomes => ?_
      exact (fine budget d scope s hcomes).of_alone fun hkind =>
        absurd hkind (none budget d scope s hcomes)
  | @link p q length fine next longest _ ih =>
      obtain ⟨budget, rfl⟩ := Nat.exists_eq_add_of_le' (Nat.one_le_of_lt hle)
      rw [expansion_eq]
      refine Expander.succeeds_descend (scene.includesPlain_expander _ _) _ _ _
        (List.forall_mem_nil _) fun d scope s hcomes => ?_
      have hfine := fine (budget + 1) d scope s hcomes
      refine hfine.of_alone fun hkind => ?_
      refine Expander.succeeds_includeDocument rfl hfine hkind fun r hfinds => ?_
      have hopens : scene.Opens p r := .intro hcomes hfinds
      exact ih r hopens ((longest r hopens).trans (Nat.le_of_succ_le_succ hle))

end Scene

/-! ## Directories that are alike -/

/-- The directory that includes of some paths lead to, one inside the other. -/
def Path.follow (directory : String) (paths : List String) : String :=
  paths.foldl (fun directory path => (parent? (join directory path)).getD "") directory

/-- A source does not tell two directories from each other: the same is read in both of them,
whatever paths are included one inside the other. -/
def Source.Alike (source : Source (StateM σ)) (directory directory' : String) : Prop :=
  ∀ (paths : List String) (level : Nat) (path : String),
    source.read level (Path.join (Path.follow directory paths) path) =
      source.read level (Path.join (Path.follow directory' paths) path)

/-- Two drafts are of one document, in directories that a source does not tell from each other. -/
structure Draft.Alike (source : Source (StateM σ)) (X X' : Draft) : Prop where
  tree : X.tree = X'.tree
  directory : source.Alike X.directory X'.directory

namespace Source.Alike

variable {source : Source (StateM σ)} {directory directory' : String}

theorem inside (h : source.Alike directory directory') (path : String) :
    source.Alike ((Path.parent? (Path.join directory path)).getD "")
      ((Path.parent? (Path.join directory' path)).getD "") :=
  fun paths => h (path :: paths)

/-- What is fetched from directories that are alike is the same, in directories that are alike. -/
theorem fetch (h : source.Alike directory directory') (level : Nat) (location : String) (s : σ) :
    (∃ e s', (source.fetch level directory location).run s = (.error e, s') ∧
        (source.fetch level directory' location).run s = (.error e, s')) ∨
      ∃ content inner inner' s', source.Alike inner inner' ∧
        (source.fetch level directory location).run s = (.ok (content, inner), s') ∧
        (source.fetch level directory' location).run s = (.ok (content, inner'), s') := by
  unfold Source.fetch
  cases Location.ofText location with
  | other scheme => exact .inl ⟨_, s, rfl, rfl⟩
  | file path =>
      have hread : source.read level (Path.join directory path) =
          source.read level (Path.join directory' path) := h [] level path
      dsimp only
      rw [← hread, StateT.run_bind, StateT.run_bind]
      cases (source.read level (Path.join directory path)).run s with
      | mk r s' =>
          cases r with
          | error e => exact .inl ⟨e, s', rfl, rfl⟩
          | ok content => exact .inr ⟨content, _, _, s', h.inside path, rfl, rfl⟩
  | web url =>
      dsimp only
      rw [StateT.run_bind, StateT.run_bind]
      cases (source.get level url).run s with
      | mk r s' =>
          cases r with
          | error e => exact .inl ⟨e, s', rfl, rfl⟩
          | ok response =>
              by_cases hstatus : 400 ≤ response.status
              · exact .inl ⟨.status response.status, s', congrArg (·, s') (if_pos hstatus),
                  congrArg (·, s') (if_pos hstatus)⟩
              · exact .inr ⟨response.body, directory, directory', s', h,
                  congrArg (·, s') (if_neg hstatus), congrArg (·, s') (if_neg hstatus)⟩

end Source.Alike

namespace Scene

variable {scene : Scene (StateM σ)} {directory directory' : String} {budget : Nat} {X X' : Draft}

/-- Documents are included alike in directories that are alike, if they are expanded alike. -/
theorem includeDocument_alike (halike : scene.source.Alike directory directory')
    (hnested : ∀ n, budget = n + 1 → ∀ inner inner' tree, scene.source.Alike inner inner' →
      scene.expandWithin n inner tree = scene.expandWithin n inner' tree) (d : Directive) :
    (scene.expander directory budget).includeDocument d =
      (scene.expander directory' budget).includeDocument d := by
  cases budget with
  | zero => rfl
  | succ n =>
      unfold Expander.includeDocument
      refine bind_congr fun i => run_ext fun s => ?_
      dsimp only [expander]
      rcases halike.fetch (includeLimit - n) i.location s with
        ⟨e, s', hrun, hrun'⟩ | ⟨content, inner, inner', s', hinner, hrun, hrun'⟩
      · rw [run_bind_ok (run_liftM_eq_ok.mpr hrun), run_bind_ok (run_liftM_eq_ok.mpr hrun')]
      · rw [run_bind_ok (run_liftM_eq_ok.mpr hrun), run_bind_ok (run_liftM_eq_ok.mpr hrun')]
        simp only [hnested n rfl inner inner' _ hinner]

theorem effect_alike (halike : scene.source.Alike directory directory') (budget : Nat) :
    (scene.expander directory budget).effect = (scene.expander directory' budget).effect := by
  have hscene (budget : Nat) (directory directory' : String) :
      (scene.expander directory budget).toScene = (scene.expander directory' budget).toScene := by
    rw [toScene_expander, toScene_expander]
  induction budget generalizing directory directory' with
  | zero =>
      exact Expander.effect_congr (hscene 0 _ _) (includeDocument_alike halike nofun)
  | succ budget ih =>
      refine Expander.effect_congr (hscene _ _ _) (includeDocument_alike halike ?_)
      rintro n ⟨⟩ inner inner' tree hinner
      rw [expandWithin_eq, expandWithin_eq, Expander.expand, Expander.expand,
        Expander.expandObject_congr (ih hinner)]

/-- A document opens others in directories that are alike. -/
theorem Opens.alike {q : Draft × σ} {s : σ} (h : scene.Opens (X, s) q)
    (halike : X.Alike scene.source X') :
    ∃ Y, scene.Opens (X', s) (Y, q.2) ∧ q.1.Alike scene.source Y := by
  obtain @⟨budget, d, scope, s₁, comes, finds⟩ := h
  obtain @⟨i, content, level, s₂, s₃, Y, includes, read, fetch, parse⟩ := finds
  have hcomes : (scene.expander X'.directory budget).Comes [] X'.tree s d scope s₁ := by
    rw [← halike.tree]
    refine comes.congr ?_ (effect_alike halike.directory budget)
    rw [toScene_expander, toScene_expander]
  rcases halike.directory.fetch level i.location s₂ with
    ⟨e, s', hrun, -⟩ | ⟨found, inner, inner', s', hinner, hrun, hrun'⟩
  · cases hrun.symm.trans fetch
  · cases hrun.symm.trans fetch
    exact ⟨⟨inner', Y.tree⟩, .intro hcomes (.intro includes read hrun' parse), rfl, hinner⟩

theorem Leads.alike {depth : Nat} {s : σ} (h : scene.Leads depth (X, s))
    (halike : X.Alike scene.source X') : scene.Leads depth (X', s) := by
  induction depth generalizing X X' s with
  | zero => exact .nowhere _
  | succ depth ih =>
      obtain _ | ⟨hopens, rest⟩ := h
      obtain ⟨Y, hopens', hY⟩ := hopens.alike halike
      exact .deeper hopens' (ih rest hY)

/-! ## Cycles -/

/-- A draft includes another one: its expansion opens that from every state. -/
def Includes (scene : Scene (StateM σ)) (X Y : Draft) : Prop :=
  ∀ s, ∃ s', scene.Opens (X, s) (Y, s')

theorem leads_of_reaches {Y : Draft} {depth : Nat} (h : ReflTransGen scene.Includes X Y)
    (hY : ∀ s, scene.Leads depth (Y, s)) (s : σ) : scene.Leads depth (X, s) := by
  induction h using ReflTransGen.head_induction_on generalizing s with
  | refl => exact hY s
  | head hincludes _ ih =>
      obtain ⟨s', hopens⟩ := hincludes s
      exact (Leads.deeper hopens (ih s')).le (Nat.le_succ depth)

/-- **A cycle of includes leads to any depth.** -/
theorem leads_of_cycle (h : TransGen scene.Includes X X') (halike : X.Alike scene.source X')
    (depth : Nat) (s : σ) : scene.Leads depth (X, s) := by
  induction depth generalizing s with
  | zero => exact .nowhere _
  | succ depth ih =>
      obtain ⟨Y, hincludes, hreach⟩ := TransGen.head'_iff.mp h
      obtain ⟨s', hopens⟩ := hincludes s
      -- one turn further on it is the same document again
      exact .deeper hopens (leads_of_reaches hreach (fun s => (ih s).alike halike) s')

end Scene

/-! ## Expansion -/

/-- Expansion ends, and the nesting of includes is bounded. -/
structure Scene.ExpansionBounded (scene : Scene (StateM σ)) (root : Draft) : Prop where
  /-- No document has directives in directives deeper than it has directives: what were to happen
  if one had is of no matter. -/
  ends : ∀ stuck : Scope → Object → Expansion (StateM σ) Object,
    scene.expandOr stuck 32 root.directory root.tree = scene.expand root.directory root.tree
  /-- No content is asked for by includes nested deeper: what the source would answer to them is
  of no matter. -/
  shallow : ∀ scene' : Scene (StateM σ), scene.AgreesTo 32 scene' →
    scene'.expand root.directory root.tree = scene.expand root.directory root.tree
  /-- What leads deeper is not expanded. -/
  deep : ∀ depth before, 32 < depth → scene.Leads depth (root, before) →
    ∃ e after, (scene.expand root.directory root.tree).run.run before = (.error e, after)
  /-- A chain of includes is expanded if and only if it is no longer. -/
  chain : ∀ length before, scene.Chain length (root, before) →
    ((∃ o after, (scene.expand root.directory root.tree).run.run before = (.ok o, after)) ↔
      length ≤ 32)
  /-- What leads into a cycle of includes is not expanded. The cycle ends with the document that it
  starts with, in a directory that the source does not tell from that of the first. -/
  cycle : ∀ X X', ReflTransGen scene.Includes root X → TransGen scene.Includes X X' →
    X.Alike scene.source X' → ∀ before : σ, ∃ e after,
      (scene.expand root.directory root.tree).run.run before = (.error e, after)

/-- **Expansion ends, and the nesting of includes is bounded**, whatever the content of the
locations. -/
theorem expand_bounded (host : Host (StateM σ)) (files : String → Except FetchError ByteArray)
    (web : String → Except FetchError Response) (env : Environment) (root : Draft) :
    Scene.ExpansionBounded ⟨host, .ofMaps files web, env⟩ root where
  ends stuck := Scene.expandOr_eq _ stuck includeLimit root.directory root.tree
  shallow scene' h := Scene.expand_congr h root.directory root.tree
  deep depth before hdeep h := h.fails rfl hdeep
  chain length before h := by
    constructor
    · rintro ⟨o, after, hok⟩
      by_contra hlong
      have hlt : includeLimit < length := Nat.lt_of_not_le hlong
      obtain ⟨e, after', herror⟩ := h.leads.fails rfl hlt
      exact nomatch hok.symm.trans herror
    · intro (hle : length ≤ includeLimit)
      exact h.succeeds hle
  cycle X X' hreach hcycle halike before :=
    (Scene.leads_of_reaches hreach (Scene.leads_of_cycle hcycle halike (includeLimit + 1))
      before).fails rfl (Nat.lt_succ_self includeLimit)

/-! ## A single include -/

theorem Expander.Comes.eq_of_single {x : Expander (StateM σ)} {scope scope' : Scope} {o : Object}
    {d d' : Directive} {s s' : σ} (hx : x.IncludesPlain) (hscope : Scope.Plain scope)
    (h : x.Comes scope o s d' scope' s') (hdirectives : o.directives = [d])
    (hfields : weightFields o.fields = 0) (hkind : d.kind = .inclusion) :
    d' = d ∧ s' = s := by
  induction h with
  | here stands ran =>
      have hsplit := List.append_eq_singleton_iff.mp (stands.symm.trans hdirectives)
      obtain ⟨rfl, hcons⟩ := hsplit.resolve_right fun h => nomatch h.2
      cases hcons
      cases ran
      exact ⟨rfl, rfl⟩
  | block _ defines _ _ ih _ =>
      obtain ⟨rfl, -⟩ := ih hscope hdirectives hfields
      cases defines.symm.trans hkind
  | @behind scope _ o _ _ _ _ es some ran inside _ =>
      have hle := o.weight_combineEach_arrivals_le ((hx.plain_effects hscope _).of_run ran)
      have hpos := inside.weight_pos
      rw [Object.behind] at hpos
      omega
  | inner none _ _ _ _ => cases none.symm.trans hdirectives

/-- A text is read back from its bytes. -/
theorem fromUTF8?_toUTF8 (text : String) : String.fromUTF8? text.toUTF8 = some text := by
  unfold String.fromUTF8?
  rw [String.toUTF8_eq_toByteArray, dif_pos text.isValidUTF8]
  rfl

namespace Scene

/-- A draft whose only directive is an inclusion that finds another one. -/
structure Single (scene : Scene (StateM σ)) (d : Directive) (X Y : Draft) : Prop where
  directives : X.tree.directives = [d]
  fields : weightFields X.tree.fields = 0
  found : ∀ s, ∃ s', scene.Finds X.directory d s (Y, s')

variable {scene : Scene (StateM σ)} {files : String → Except FetchError ByteArray}
  {web : String → Except FetchError Response} {d : Directive} {X Y : Draft}

theorem Single.comes (h : scene.Single d X Y) (budget : Nat) (s : σ) :
    (scene.expander X.directory budget).Comes [] X.tree s d [] s := by
  have hstands : X.tree.directives = [] ++ d :: [] := h.directives
  exact .here hstands rfl

/-- Its directive is all that the expansion of such a draft comes to. -/
theorem Single.eq_of_comes (h : scene.Single d X Y) {budget : Nat} {d' : Directive} {scope : Scope}
    {s s' : σ} (hcomes : (scene.expander X.directory budget).Comes [] X.tree s d' scope s') :
    d' = d ∧ s' = s := by
  obtain ⟨_, hfound⟩ := h.found s
  exact hcomes.eq_of_single (scene.includesPlain_expander _ _) (List.forall_mem_nil _) h.directives
    h.fields hfound.kind

/-- What its inclusion finds is all that such a draft opens. -/
theorem Single.eq_of_opens (hsource : scene.source = .ofMaps files web) (h : scene.Single d X Y)
    {s s' : σ} (hfound : scene.Finds X.directory d s (Y, s')) {q : Draft × σ}
    (hopens : scene.Opens (X, s) q) : q = (Y, s') := by
  obtain @⟨budget, d', scope, s₁, comes, finds⟩ := hopens
  obtain ⟨rfl, rfl⟩ := h.eq_of_comes comes
  exact finds.unique hsource hfound

/-- Such a draft makes a chain, if there are no directives in what it finds. -/
theorem Single.chain (hsource : scene.source = .ofMaps files web) (h : scene.Single d X Y)
    (hY : Y.tree.weight = 0) (s : σ) : scene.Chain 1 (X, s) := by
  obtain ⟨s', hfound⟩ := h.found s
  have hlast : scene.Chain 0 (Y, s') := by
    have hnone : ∀ budget d scope s, ¬ (scene.expander Y.directory budget).Comes [] Y.tree s' d
        scope s := fun _ _ _ _ hcomes => absurd hY hcomes.weight_pos.ne'
    exact .last (fun budget d scope s hcomes => absurd hcomes (hnone budget d scope s))
      fun budget d scope s hcomes => absurd hcomes (hnone budget d scope s)
  have hfine : scene.Fine (X, s) := by
    intro budget d' scope s₁ hcomes
    obtain ⟨rfl, rfl⟩ := h.eq_of_comes hcomes
    let x := (scene.expander X.directory budget).alone
    have hlevel : ∀ level location, x.source.fetch level x.directory location =
        x.source.fetch x.level x.directory location := by
      cases budget <;> exact fun level location => fetch_eq_of_maps hsource level _ _ location
    have hfinds : x.Finds x.directory d' s₁ (Y, s') := by
      cases budget <;> exact hfound
    obtain ⟨i, hrun⟩ := x.exists_run_of_finds rfl hlevel hfinds
    unfold Expander.Brings Expander.effect
    rw [hfound.kind]
    exact ⟨_, _, hrun⟩
  have hopens : scene.Opens (X, s) (Y, s') := .intro (h.comes 0 s) hfound
  have honly : ∀ r, scene.Opens (X, s) r → r = (Y, s') :=
    fun r hr => h.eq_of_opens hsource hfound hr
  exact .link (fun _ => 0) hfine hopens (fun _ _ => Nat.le_refl 0)
    fun r hr => honly r hr ▸ hlast

theorem Single.includes (h : scene.Single d X Y) : scene.Includes X Y := by
  intro s
  obtain ⟨s', hfinds⟩ := h.found s
  exact ⟨s', .intro (h.comes 0 s) hfinds⟩

/-- Whether an object has a single directive, which includes a location. -/
def includesOnly (scene : Scene (StateM Unit)) (location : String) (o : Object) : Bool :=
  match o.directives with
  | [d] =>
    weightFields o.fields = 0 && d.kind = .inclusion &&
      match (d.readInclude scene).run.run () with
      | (.ok i, _) => i.location = location
      | (.error _, _) => false
  | _ => false

theorem exists_single_of_includesOnly {scene : Scene (StateM Unit)}
    {files : String → Except FetchError ByteArray} {web : String → Except FetchError Response}
    {location path text : String} {X Y : Draft} (hsource : scene.source = .ofMaps files web)
    (h : scene.includesOnly location X.tree = true)
    (hlocation : Location.ofText location = .file path)
    (hdirectory : (Path.parent? (Path.join X.directory path)).getD "" = Y.directory)
    (hfile : files (Path.join X.directory path) = .ok text.toUTF8)
    (htext : parseDocument text = .ok Y.tree) :
    ∃ d, scene.Single d X Y := by
  unfold includesOnly at h
  split at h
  · rename_i d hdirectives
    simp only [Bool.and_eq_true, decide_eq_true_eq] at h
    obtain ⟨⟨hfields, hkind⟩, h⟩ := h
    split at h
    · rename_i i after hread
      obtain rfl : i.location = location := of_decide_eq_true h
      have hfetch : (scene.source.fetch 1 X.directory i.location).run () =
          (.ok (text.toUTF8, Y.directory), ()) := by
        unfold Source.fetch
        rw [hlocation, hsource, Source.ofMaps]
        dsimp only
        rw [hfile, hdirectory, pure_bind]
        rfl
      have hparse : i.parse text.toUTF8 = .ok Y.tree := by
        unfold Include.parse
        rw [fromUTF8?_toUTF8]
        dsimp only
        rw [htext]
        rfl
      exact ⟨d, hdirectives, hfields, fun _ => ⟨(), .intro hkind hread hfetch hparse⟩⟩
    · cases h
  · cases h

end Scene

/-- A file that includes another one is expanded. One that includes itself by a path out of its
directory and back is not, though the text of the directory is another one each time. -/
theorem expand_bounded_of_files :
    ∃ (scene scene' : Scene (StateM Unit)) (short loop again : Draft),
      parseDocument "k = 1\n.include(\"a.fig\")\n" = .ok short.tree ∧
        scene.Chain 1 (short, ()) ∧
        (∃ o after, (scene.expand short.directory short.tree).run.run () = (.ok o, after)) ∧
      parseDocument "k = 1\n.include(\"../d/a.fig\", fatal = false)\n" = .ok loop.tree ∧
        scene'.Includes loop again ∧ loop.directory ≠ again.directory ∧
        loop.Alike scene'.source again ∧
        ∃ e after, (scene'.expand loop.directory loop.tree).run.run () = (.error e, after) := by
  let inner := "x = 1\n"
  let text := "k = 1\n.include(\"../d/a.fig\", fatal = false)\n"
  let files : String → Except FetchError ByteArray := fun path =>
    if path = "a.fig" then .ok inner.toUTF8 else .error (.notFound path)
  let same : String → Except FetchError ByteArray := fun _ => .ok text.toUTF8
  let web : String → Except FetchError Response := fun url => .error (.noRoute url)
  let scene (files : String → Except FetchError ByteArray) : Scene (StateM Unit) :=
    ⟨(FileTree.mk [] []).host, .ofMaps files web, .ofBase .empty⟩
  have hnear : Location.ofText "a.fig" = .file "a.fig" ∧
      (Path.parent? (Path.join "" "a.fig")).getD "" = "" := by decide +kernel
  have haway : Location.ofText "../d/a.fig" = .file "../d/a.fig" ∧
      (Path.parent? (Path.join "d" "../d/a.fig")).getD "" = "d/../d" := by decide +kernel
  have hshort : (match parseDocument "k = 1\n.include(\"a.fig\")\n", parseDocument inner with
      | .ok tree, .ok found => (scene files).includesOnly "a.fig" tree && found.weight = 0
      | _, _ => false) = true := by decide +kernel
  have hloop : (match parseDocument text with
      | .ok tree => (scene same).includesOnly "../d/a.fig" tree
      | .error _ => false) = true := by decide +kernel
  split at hshort
  · rename_i tree found htree hfound
    simp only [Bool.and_eq_true, decide_eq_true_eq] at hshort
    split at hloop
    · rename_i around haround
      obtain ⟨d, hsingle⟩ : ∃ d, (scene files).Single d ⟨"", tree⟩ ⟨"", found⟩ :=
        Scene.exists_single_of_includesOnly rfl hshort.1 hnear.1 hnear.2 rfl hfound
      obtain ⟨d', hself⟩ : ∃ d, (scene same).Single d ⟨"d", around⟩ ⟨"d/../d", around⟩ :=
        Scene.exists_single_of_includesOnly rfl hloop haway.1 haway.2 rfl haround
      have hchain := hsingle.chain rfl hshort.2 ()
      have hdirectories : "d" ≠ "d/../d" := by decide
      have halike : Draft.Alike (scene same).source ⟨"d", around⟩ ⟨"d/../d", around⟩ :=
        ⟨rfl, fun _ _ _ => rfl⟩
      refine ⟨scene files, scene same, ⟨"", tree⟩, ⟨"d", around⟩, ⟨"d/../d", around⟩, htree, hchain,
        ?_, haround, hself.includes, hdirectories, halike, ?_⟩
      · exact ((expand_bounded _ files web _ _).chain 1 () hchain).mpr (by decide)
      · exact (expand_bounded _ same web _ _).cycle _ _ .refl (.single hself.includes) halike ()
    · cases hloop
  · cases hshort

end ConfigLang
