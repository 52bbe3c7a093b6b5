import Mathlib
import ConfigLang.Proofs.Expand.Arguments
import ConfigLang.Proofs.Expand.Reading
import ConfigLang.Proofs.Tree.Weight

/-!
# Comparing expansions

The same document may be expanded by expanders that differ in where their content comes
from and in what becomes of an included document.  A `Comparison` is a way to say how
the runs of a family of computations are related, such as by being equal; all that it has
to know is how it goes through a sequence of computations.  Whatever holds of including a
document then holds of all directives, and of the objects that they stand in
(`Comparison.step`).

On the way it is shown that expansion leaves no directives: what a directive brings is
plain (`Effect.Plain`), and so the objects inside an object have fewer directives left
than the object had.
-/

namespace ConfigLang

open Running

variable {m : Type → Type} [Monad m]

/-! ## Plain scopes and effects -/

/-- There is no directive in the blocks that a scope makes visible. -/
def Scope.Plain (scope : Scope) : Prop :=
  ∀ entry ∈ scope, ∀ block, entry.2 = .block block → block.weight = 0

/-- There is no directive in what a directive brings. -/
structure Effect.Plain (e : Effect) : Prop where
  fields : weightFields e.fields = 0
  fragments : Scope.Plain e.fragments

/-- The directives in what arrives in an object. -/
def Arrival.weights (arrivals : List Arrival) : Nat :=
  (arrivals.map (·.node.weight)).sum

theorem Arrival.weights_append (arrivals others : List Arrival) :
    weights (arrivals ++ others) = weights arrivals + weights others := by
  unfold weights
  rw [List.map_append, List.sum_append]

theorem Arrival.weights_fields (method : Method) (fields : Fields) :
    weights (fields.map fun field => ⟨method, field.2⟩) = weightFields fields := by
  induction fields with
  | nil => rfl
  | cons field fields ih =>
      rw [weightFields, ← ih]
      rfl

namespace Effect

theorem plain_none : none.Plain :=
  ⟨rfl, nofun⟩

theorem weights_flatMap {effects : List Effect} (h : ∀ e ∈ effects, e.Plain) :
    Arrival.weights (effects.flatMap arrivals) = 0 := by
  induction effects with
  | nil => rfl
  | cons e effects ih =>
      obtain ⟨he, heffects⟩ := List.forall_mem_cons.mp h
      rw [List.flatMap_cons, Arrival.weights_append, ih heffects, arrivals,
        Arrival.weights_fields, he.fields]

theorem plain_visible {scope : Scope} {effects : List Effect} (hscope : Scope.Plain scope)
    (h : ∀ e ∈ effects, e.Plain) : Scope.Plain (visible scope effects) := by
  induction effects generalizing scope with
  | nil => exact hscope
  | cons e effects ih =>
      obtain ⟨he, heffects⟩ := List.forall_mem_cons.mp h
      refine ih (fun entry hmem => ?_) heffects
      rcases List.mem_append.mp hmem with hmem | hmem
      · exact he.fragments entry hmem
      · exact hscope entry hmem

/-- Only the fields that stand in an object come with directives. -/
theorem weights_arrivals_interleave {effects : List Effect} (h : ∀ e ∈ effects, e.Plain)
    (placed : Nat) (fields : Fields) (ds : List Directive) :
    Arrival.weights (Item.arrivals (Item.interleave placed fields ds) effects) =
      weightFields fields := by
  induction ds generalizing placed fields effects with
  | nil =>
      rw [Item.arrivals_interleave_last, Arrival.weights_append, Arrival.weights_fields,
        weights_flatMap h, Nat.add_zero]
  | cons d ds ih =>
      cases effects with
      | nil => rw [Item.arrivals_interleave_nil, Arrival.weights_fields]
      | cons e effects =>
          obtain ⟨he, heffects⟩ := List.forall_mem_cons.mp h
          rw [Item.arrivals_interleave_cons, Arrival.weights_append, Arrival.weights_append, ih heffects, Arrival.weights_fields,
            arrivals, Arrival.weights_fields, he.fields, Nat.zero_add, ← weightFields_append,
            List.take_append_drop]

end Effect

/-- When the directives of an object have run, those of its fields are left. -/
theorem Object.weight_combineEach_arrivals_le (o : Object) {effects : List Effect}
    (h : ∀ e ∈ effects, e.Plain) :
    (({ o with fields := [], directives := [] } : Object).combineEach
      (Item.arrivals o.items effects)).weight ≤ weightFields o.fields := by
  have hcombine := Object.weight_combineEach_le
    { o with fields := [], directives := [] } (Item.arrivals o.items effects)
  have hbare : ({ o with fields := [], directives := [] } : Object).weight = 0 := by
    rw [Object.weight_eq, weightFields, weightDirectives]
  have harrivals : Arrival.weights (Item.arrivals o.items effects) = weightFields o.fields :=
    Effect.weights_arrivals_interleave h 0 o.fields o.directives
  unfold Arrival.weights at harrivals
  omega

/-! ## Comparisons -/

/-- A way to compare the runs of a family of computations, and to say what all their results have
in common. -/
structure Comparison (ι : Type) (m : Type → Type) [Monad m] where
  Holds {α : Type} (x : ι → Expansion m α) (P : α → Prop) : Prop
  /-- One computation is like itself. -/
  const {α : Type} {x : Expansion m α} {P : α → Prop} (h : Ensures x P) : Holds (fun _ => x) P
  bind {α β : Type} {x : ι → Expansion m α} {f : ι → α → Expansion m β} {P : α → Prop}
    {Q : β → Prop} (hx : Holds x P) (hf : ∀ a, P a → Holds (fun i => f i a) Q) :
    Holds (fun i => x i >>= f i) Q

namespace Comparison

variable [LawfulMonad m] {ι : Type} (c : Comparison ι m)

/-- A family of ways to expand objects that clears objects of up to `n` directives. -/
def Expands (n : Nat) (expand : ι → Scope → Object → Expansion m Object) : Prop :=
  ∀ scope o, Scope.Plain scope → o.directives ≠ [] → o.weight ≤ n →
    c.Holds (fun i => expand i scope o) fun o' => o'.weight = 0

/-- Expanders that differ at most in how they include documents, which do so alike. -/
structure Shares (s : Scene m) (x : ι → Expander m) : Prop where
  scene : ∀ i, ∃ source, (x i).toScene = { s with source }
  includes : ∀ d, c.Holds (fun i => (x i).includeDocument d) Effect.Plain

variable {c} {n : Nat} {expand : ι → Scope → Object → Expansion m Object} {scope : Scope}

theorem Holds.pure {α : Type} {a : α} {P : α → Prop} (h : P a) : c.Holds (fun _ => Pure.pure a) P :=
  c.const (.pure h)

/-! ## Objects inside a tree -/

section Descend

mutual

theorem descend (hexpand : c.Expands n expand) (hscope : Scope.Plain scope) : ∀ {o : Object},
    o.weight ≤ n → c.Holds (fun i => o.descend (expand i) scope) fun o' => o'.weight = 0
  | ⟨_, _, fields, [], _, _, _⟩, h => by
    rw [Object.weight] at h
    simp only [Object.descend]
    refine c.bind (descendFields hexpand hscope (by omega)) fun fields' hfields => ?_
    apply Holds.pure
    rw [Object.weight, hfields, weightDirectives]
  | ⟨_, _, _, d :: ds, _, _, _⟩, h => by
    simp only [Object.descend]
    exact hexpand scope _ hscope (List.cons_ne_nil d ds) h

theorem descendFields (hexpand : c.Expands n expand) (hscope : Scope.Plain scope) :
    ∀ {fields : Fields}, weightFields fields ≤ n →
      c.Holds (fun i => ConfigLang.descendFields (expand i) scope fields)
        fun fields' => weightFields fields' = 0
  | [], _ => by
    simp only [ConfigLang.descendFields]
    exact .pure rfl
  | (key, node) :: fields, h => by
    rw [weightFields] at h
    simp only [ConfigLang.descendFields]
    refine c.bind (descendNode hexpand hscope (by omega)) fun node' hnode => ?_
    refine c.bind (descendFields hexpand hscope (by omega)) fun fields' hfields => ?_
    apply Holds.pure
    rw [weightFields, hnode, hfields]

theorem descendNode (hexpand : c.Expands n expand) (hscope : Scope.Plain scope) :
    ∀ {node : Node}, node.weight ≤ n →
      c.Holds (fun i => node.descend (expand i) scope) fun node' => node'.weight = 0
  | .option binding, _ => by
    simp only [Node.descend]
    exact .pure rfl
  | .object o, h => by
    simp only [Node.descend]
    exact c.bind (descend hexpand hscope h) fun o' ho => .pure ho
  | .list name items, h => by
    simp only [Node.descend]
    exact c.bind (descendItems hexpand hscope h) fun items' hitems => .pure hitems

theorem descendItems (hexpand : c.Expands n expand) (hscope : Scope.Plain scope) :
    ∀ {items : List Node}, weightItems items ≤ n →
      c.Holds (fun i => ConfigLang.descendItems (expand i) scope items)
        fun items' => weightItems items' = 0
  | [], _ => by
    simp only [ConfigLang.descendItems]
    exact .pure rfl
  | item :: items, h => by
    rw [weightItems] at h
    simp only [ConfigLang.descendItems]
    refine c.bind (descendNode hexpand hscope (by omega)) fun item' hitem => ?_
    refine c.bind (descendItems hexpand hscope (by omega)) fun items' hitems => ?_
    apply Holds.pure
    rw [weightItems, hitem, hitems]

end

end Descend

/-! ## Directives -/

variable {s : Scene m} {x : ι → Expander m} {d : Directive}

theorem define (hx : c.Shares s x) (hexpand : c.Expands n expand) (hscope : Scope.Plain scope)
    (hargs : weightArgs d.args ≤ n) :
    c.Holds (fun i => (x i).define (Object.descend (expand i)) d scope) Effect.Plain := by
  have hname : ∀ i payload, d.nameOf (x i).toScene "name" payload = d.nameOf s "name" payload := by
    intro i payload
    obtain ⟨source, h⟩ := hx.scene i
    rw [h, Directive.nameOf_source]
  have hblocks : ∀ arg ∈ d.args, arg.value.weight ≤ n :=
    fun arg hmem => (weight_le_of_mem_args hmem).trans hargs
  have hrequired : ∀ {bound : List (String × Payload)} (parameter : String),
      (∀ entry ∈ bound, entry.2.weight ≤ n) →
        Ensures (d.required bound parameter : Expansion m _) (·.weight ≤ n) :=
    fun parameter h => d.ensures_required (P := (·.weight ≤ n)) h parameter
  have hdefined : ∀ (name : String) (fragment : Fragment),
      (∀ block, fragment = .block block → block.weight = 0) →
        ({ Effect.none with fragments := [(name, fragment)] } : Effect).Plain :=
    fun name fragment h => ⟨rfl, List.forall_mem_singleton.mpr h⟩
  simp only [Expander.define, hname]
  refine c.bind (c.const (Directive.ensures_bind (P := (·.weight ≤ n)) hblocks _))
    fun args hbound => ?_
  refine c.bind (c.const (hrequired _ hbound)) fun payload _ => ?_
  refine c.bind (c.const (.intro fun _ => True.intro)) fun name _ => ?_
  refine c.bind (c.const (hrequired _ hbound)) fun payload hpayload => ?_
  cases payload with
  | expr e =>
      simp only [pure_bind]
      exact .pure (hdefined name _ nofun)
  | ident ident =>
      exact c.const ((Ensures.throw _).bind (P := fun _ => False) fun _ hfalse => hfalse.elim)
  | block o =>
      simp only [pure_bind]
      refine c.bind (descend hexpand hscope hpayload) fun o' ho => .pure (hdefined name _ ?_)
      rintro block ⟨⟩
      exact ho

end Comparison

namespace Expander

variable {x : Expander m} {d : Directive} {scope : Scope}

/-- What an application brings is decided by the host and the base variables of the scene. -/
theorem apply_scene {s : Scene m} {source : Source m} (h : x.toScene = { s with source }) :
    x.apply d scope = Expander.apply ⟨s, "", 0, none⟩ d scope := by
  unfold apply selectFields
  simp only [h, Directive.nameOf_source, Directive.methodOf_source, Directive.textsOf_source,
    Directive.depthOf_source]

variable [LawfulMonad m]

theorem plain_selectFields {args : List (String × Payload)} {block : Object}
    (h : weightFields block.fields = 0) :
    Ensures (x.selectFields d args block) fun block' => weightFields block'.fields = 0 := by
  refine x.ensures_selectFields d args (P := fun o => weightFields o.fields = 0)
    (fun o keep ho => ?_) (fun o depth ho => ?_) h
  · exact Nat.eq_zero_of_le_zero ((weightFields_filter_le keep o.fields).trans_eq ho)
  · exact Nat.eq_zero_of_le_zero ((o.weightFields_truncate_le depth).trans_eq ho)

theorem plain_apply (hscope : Scope.Plain scope) : Ensures (x.apply d scope) Effect.Plain := by
  unfold apply
  refine .bind_of fun args => .bind_of fun _ => .bind_of fun name => .bind_of fun method => ?_
  split
  · exact .throw _
  · exact .pure ⟨rfl, nofun⟩
  · rename_i block hlookup
    have hget : Keyed.get? scope name = some (.block block) := hlookup
    have hweight := hscope _ (Keyed.mem_of_get? hget) block rfl
    rw [block.weight_eq] at hweight
    refine (plain_selectFields (by omega)).bind fun block' hblock => ?_
    exact .pure ⟨hblock, nofun⟩

end Expander

namespace Comparison

variable [LawfulMonad m] {ι : Type} {c : Comparison ι m} {n : Nat}
  {expand : ι → Scope → Object → Expansion m Object} {s : Scene m} {x : ι → Expander m}
  {scope : Scope}

omit [LawfulMonad m] in
theorem readInclude_eq (hscene : ∀ i, ∃ source, (x i).toScene = { s with source })
    (d : Directive) (i : ι) : d.readInclude (x i).toScene = d.readInclude s := by
  obtain ⟨source, h⟩ := hscene i
  rw [h, Directive.readInclude_source]

/-- If an included document is expanded alike, including it is alike. -/
theorem includeDocument {nested : ι → String → Object → Expansion m Object}
    {fetch : String → m (Except FetchError (ByteArray × String))} {d : Directive}
    (hscene : ∀ i, ∃ source, (x i).toScene = { s with source })
    (hnested? : ∀ i, (x i).nested? = some (nested i))
    (hfetch : ∀ i location, (x i).source.fetch (x i).level (x i).directory location =
      fetch location)
    (hnested : ∀ directory o, c.Holds (fun i => nested i directory o) fun o' => o'.weight = 0) :
    c.Holds (fun i => (x i).includeDocument d) Effect.Plain := by
  simp only [Expander.includeDocument, readInclude_eq hscene, hnested?, hfetch]
  refine c.bind (c.const (.intro fun _ => True.intro)) fun i _ => ?_
  refine c.bind (c.const (.intro fun _ => True.intro)) fun fetched _ => ?_
  split
  · split
    · exact c.const (.throw _)
    · exact .pure Effect.plain_none
  · refine c.bind (c.const (.intro fun _ => True.intro)) fun document _ => ?_
    refine c.bind (hnested _ document) fun document' hdocument => .pure ⟨?_, nofun⟩
    rw [document'.weight_eq] at hdocument
    unfold Include.fields
    split
    · dsimp only
      omega
    · rw [weightFields, Node.weight, Object.weight_eq, weightFields]
      dsimp only
      omega

/-- Where includes are too deep, they all fail alike. -/
theorem includeDocument_none {d : Directive}
    (hscene : ∀ i, ∃ source, (x i).toScene = { s with source })
    (hnested? : ∀ i, (x i).nested? = none) :
    c.Holds (fun i => (x i).includeDocument d) Effect.Plain := by
  simp only [Expander.includeDocument, readInclude_eq hscene, hnested?]
  exact c.const (.bind_of fun _ => .throw _)

theorem effect {d : Directive} (hx : c.Shares s x) (hexpand : c.Expands n expand)
    (hscope : Scope.Plain scope) (hargs : weightArgs d.args ≤ n) :
    c.Holds (fun i => (x i).effect (Object.descend (expand i)) d scope) Effect.Plain := by
  simp only [Expander.effect]
  split
  · exact define hx hexpand hscope hargs
  · have happly : ∀ i, (x i).apply d scope = Expander.apply ⟨s, "", 0, none⟩ d scope := by
      intro i
      obtain ⟨source, h⟩ := hx.scene i
      exact Expander.apply_scene h
    simp only [happly]
    exact c.const (Expander.plain_apply hscope)
  · exact hx.includes d

theorem effects (hx : c.Shares s x) (hexpand : c.Expands n expand) {ds : List Directive}
    (hscope : Scope.Plain scope) (hargs : ∀ d ∈ ds, weightArgs d.args ≤ n) :
    c.Holds (fun i => (x i).effects (Object.descend (expand i)) scope ds)
      fun es => ∀ e ∈ es, e.Plain := by
  induction ds generalizing scope with
  | nil => exact .pure nofun
  | cons d ds ih =>
      obtain ⟨hd, hds⟩ := List.forall_mem_cons.mp hargs
      simp only [Expander.effects]
      refine c.bind (effect hx hexpand hscope hd) fun e he => ?_
      have hvisible : Scope.Plain (e.fragments ++ scope) :=
        Effect.plain_visible hscope (List.forall_mem_singleton.mpr he)
      refine c.bind (ih hvisible hds) fun es hes => ?_
      exact .pure (List.forall_mem_cons.mpr ⟨he, hes⟩)

/-- **Expanding an object takes one of its directives away**: what is inside it has fewer left
than the object had. -/
theorem step (hx : c.Shares s x) (hexpand : c.Expands n expand) :
    c.Expands (n + 1) fun i => (x i).step (expand i) := by
  intro scope o hscope hne hweight
  have hargs : ∀ d ∈ o.directives, weightArgs d.args ≤ n :=
    fun d hmem => Nat.le_of_lt_succ ((o.weightArgs_lt hmem).trans_le hweight)
  have hfields : weightFields o.fields ≤ n :=
    Nat.le_of_lt_succ ((o.weightFields_lt hne).trans_le hweight)
  simp only [Expander.step_eq]
  refine c.bind (effects hx hexpand hscope hargs) fun es hes => ?_
  apply descend hexpand (Effect.plain_visible hscope hes)
  exact (Object.weight_combineEach_arrivals_le o hes).trans hfields

end Comparison

end ConfigLang
