import Mathlib
import ConfigLang.Proofs.Expand.Alike
import ConfigLang.Proofs.Expand.Frame
import ConfigLang.Proofs.Tree.Ordered
import ConfigLang.Proofs.Tree.Pruned

/-!
# Expansion without idle directives

A directive that brings nothing may as well be left out of a tree whose directives stand in
order (`Expander.expand_pruned`).

An object with directives is taken apart and put together again, field by field, in step with
them.  Where one directive is left out, the next takes over the fields that it waited for
(`Item.interleave_skip`); where all are, the fields come back as they were
(`Expander.IncludesPlain.descend_eq_effects`).  The objects inside have lost directives too, so this
goes by induction on the number of directives.
-/

namespace ConfigLang

open Running

/-! ## What arrives -/

namespace Item

/-- Fields that are due anyway may be read before the directives. -/
theorem interleave_skip {placed due : Nat} (fields : Fields) {ds : List Directive}
    (h : ∀ d ∈ ds, due ≤ d.offset - placed) :
    ofFields (fields.take due) ++ interleave (placed + due) (fields.drop due) ds =
      interleave placed fields ds := by
  cases ds with
  | nil =>
      rw [interleave, interleave, ← ofFields_append, List.take_append_drop]
  | cons d ds =>
      obtain ⟨more, hmore⟩ := Nat.exists_eq_add_of_le (h d List.mem_cons_self)
      have hrest : d.offset - (placed + due) = more := by omega
      rw [interleave, interleave, hrest, hmore, List.take_add, ofFields_append, List.append_assoc,
        List.drop_drop, Nat.add_assoc]

/-- What arrives in two objects with the same directives. -/
theorem arrivals_pruned {skip : Directive → Prop} {fields fields' : Fields}
    (h : List.Forall₂ (fun field field' => field.2.Pruned skip field'.2) fields fields')
    (effects : List Effect) (placed : Nat) (ds : List Directive) :
    List.Forall₂ (Arrival.Pruned skip) (arrivals (interleave placed fields ds) effects)
      (arrivals (interleave placed fields' ds) effects) :=
  forall₂_arrivals (h.imp fun _ _ hnode => ⟨rfl, hnode⟩)
    (fun _ _ a _ => ⟨rfl, .refl skip a.node⟩) placed ds

end Item

variable {m : Type → Type} [Monad m]

/-- What follows a computation matters for results that have both of two properties. -/
theorem Running.Ensures.bind_congr_both [LawfulMonad m] {ε α β : Type} {x : ExceptT ε m α}
    {P Q : α → Prop} {f g : α → ExceptT ε m β} (hP : Ensures x P) (hQ : Ensures x Q)
    (h : ∀ a, P a → Q a → f a = g a) : x >>= f = x >>= g := by
  classical
  let mixed (a : α) : ExceptT ε m β := if Q a then f a else g a
  have hfirst : x >>= f = x >>= mixed := hQ.bind_congr fun a ha => (if_pos ha).symm
  have hsecond : x >>= mixed = x >>= g := by
    refine hP.bind_congr fun a ha => ?_
    by_cases hq : Q a
    · exact (if_pos hq).trans (h a ha hq)
    · exact if_neg hq
  exact hfirst.trans hsecond

namespace Expander

/-- The directives that `skip` holds of bring nothing. -/
def Idle (x : Expander m) (skip : Directive → Prop) : Prop :=
  ∀ d, skip d → ∀ expandBlock scope, x.effect expandBlock d scope = pure .none

/-- Objects with at most `n` directives expand the same if idle directives are left out. -/
def Prunes (x : Expander m) (skip : Directive → Prop) (n : Nat) : Prop :=
  ∀ ⦃scope : Scope⦄ ⦃o o' : Object⦄, Scope.Plain scope → Scope.Tidy scope → o.directives ≠ [] →
    o.weight ≤ n → o.Tidy → o.Ordered → o.Pruned skip o' →
      x.expandFully scope o = o'.descend x.expandFully scope

variable {x : Expander m} {skip : Directive → Prop} {n : Nat} {scope : Scope}

/-! ## Objects inside a tree -/

namespace Prunes

mutual

theorem descend (h : x.Prunes skip n) (hplain : Scope.Plain scope) (hscope : Scope.Tidy scope) :
    ∀ {o o' : Object}, o.Pruned skip o' → o.weight ≤ n → o.Tidy → o.Ordered →
      o.descend x.expandFully scope = o'.descend x.expandFully scope
  | o, _, .intro inner own, hweight, htidy, hordered => by
    by_cases hne : o.directives = []
    · rw [hne] at own
      cases own
      rw [o.weight_eq] at hweight
      have hfields := descendFields h hplain hscope inner (by omega) htidy.fields.nodes
        hordered.nodes
      rw [Object.descend_of_directives hne, Object.descend_of_directives rfl, hfields]
      refine congrArg (_ >>= ·) (funext fun expanded => ?_)
      rw [← hne]
    · rw [Object.descend_of_ne hne]
      exact h hplain hscope hne hweight htidy hordered (.intro inner own)

theorem descendFields (h : x.Prunes skip n) (hplain : Scope.Plain scope)
    (hscope : Scope.Tidy scope) : ∀ {fields fields' : Fields}, FieldsPruned skip fields fields' →
      weightFields fields ≤ n → (∀ field ∈ fields, field.2.Tidy) →
        (∀ field ∈ fields, field.2.Ordered) →
          eachField (fun o => o.descend x.expandFully scope) fields =
            eachField (fun o => o.descend x.expandFully scope) fields'
  | _, _, .nil, _, _, _ => rfl
  | _, _, .cons _ hnode hfields, hweight, htidy, hordered => by
    obtain ⟨hone, htidy⟩ := List.forall_mem_cons.mp htidy
    obtain ⟨hordered₁, hordered⟩ := List.forall_mem_cons.mp hordered
    rw [weightFields] at hweight
    rw [eachField, eachField, descendNode h hplain hscope hnode (by omega) hone hordered₁,
      descendFields h hplain hscope hfields (by omega) htidy hordered]

theorem descendNode (h : x.Prunes skip n) (hplain : Scope.Plain scope)
    (hscope : Scope.Tidy scope) : ∀ {node node' : Node}, node.Pruned skip node' →
      node.weight ≤ n → node.Tidy → node.Ordered →
        node.eachObject (fun o => o.descend x.expandFully scope) =
          node'.eachObject (fun o => o.descend x.expandFully scope)
  | _, _, .option _, _, _, _ => rfl
  | _, _, .object ho, hweight, htidy, hordered => by
    rw [Node.eachObject, Node.eachObject,
      descend h hplain hscope ho hweight htidy.of_object hordered.of_object]
  | _, _, .list _ hitems, hweight, htidy, hordered => by
    rw [Node.eachObject, Node.eachObject, descendItems h hplain hscope hitems hweight
      (fun item hmem => (htidy.items item hmem).tidy) hordered.flatten]

theorem descendItems (h : x.Prunes skip n) (hplain : Scope.Plain scope)
    (hscope : Scope.Tidy scope) : ∀ {items items' : List Node}, ItemsPruned skip items items' →
      weightItems items ≤ n → (∀ item ∈ items, item.Tidy) → (∀ item ∈ items, item.Ordered) →
        eachItem (fun o => o.descend x.expandFully scope) items =
          eachItem (fun o => o.descend x.expandFully scope) items'
  | _, _, .nil, _, _, _ => rfl
  | _, _, .cons hitem hitems, hweight, htidy, hordered => by
    obtain ⟨hone, htidy⟩ := List.forall_mem_cons.mp htidy
    obtain ⟨hordered₁, hordered⟩ := List.forall_mem_cons.mp hordered
    rw [weightItems] at hweight
    rw [eachItem, eachItem, descendNode h hplain hscope hitem (by omega) hone hordered₁,
      descendItems h hplain hscope hitems (by omega) htidy hordered]

end

theorem args (h : x.Prunes skip n) (hplain : Scope.Plain scope) (hscope : Scope.Tidy scope)
    {args args' : List (Argument Payload)} (hargs : ArgsPruned skip args args')
    (hweight : weightArgs args ≤ n) (htidy : ∀ arg ∈ args, arg.value.Tidy)
    (hordered : ∀ arg ∈ args, ∀ block, arg.value = .block block → block.Ordered) :
    List.Forall₂ (Argument.Alike (Object.descend x.expandFully scope)) args args' := by
  induction args generalizing args' with
  | nil =>
      cases hargs
      exact .nil
  | cons arg args ih =>
      cases hargs with
      | cons _ head tail =>
          obtain ⟨hone, htidy⟩ := List.forall_mem_cons.mp htidy
          obtain ⟨hordered₁, hordered⟩ := List.forall_mem_cons.mp hordered
          rw [weightArgs] at hweight
          refine .cons ⟨rfl, ?_⟩ (ih tail (by omega) htidy hordered)
          cases head with
          | expr e => exact .expr e
          | ident name => exact .ident name
          | block ho =>
              rw [Payload.weight] at hweight
              exact .block (h.descend hplain hscope ho (by omega) (hone _ rfl) (hordered₁ _ rfl))

end Prunes

/-! ## Directives -/

theorem tidy_expandFully [LawfulMonad m] (hnested : x.NestedTidy) :
    KeepsTidy (Object.descend x.expandFully) :=
  fun _ _ hscope ho =>
    tidy_descend (fun scope o => tidy_expandObject hnested o.weight scope o) hscope ho

variable [LawfulMonad m]

theorem IncludesPlain.plain_effect (hx : x.IncludesPlain) (hplain : Scope.Plain scope)
    (d : Directive) : Ensures (x.effect (Object.descend x.expandFully) d scope) Effect.Plain :=
  (Comparison.effect (x := fun _ => x) hx.shares (hx.expands (weightArgs d.args)) hplain
    (Nat.le_refl _)).2 false

/-- What arrives in an object, and what is visible then, is the same without idle directives. -/
theorem Prunes.effects (h : x.Prunes skip n) (hx : x.IncludesPlain) (hnested : x.NestedTidy)
    (hidle : x.Idle skip) {ds ds' : List Directive} (hds : DirectivesPruned skip ds ds')
    (hsorted : ds.Pairwise fun d d' => d.offset ≤ d'.offset)
    (hweight : ∀ d ∈ ds, weightArgs d.args ≤ n) (htidy : ∀ d ∈ ds, d.Tidy)
    (hordered : ∀ d ∈ ds, ∀ arg ∈ d.args, ∀ block, arg.value = .block block → block.Ordered)
    (hplain : Scope.Plain scope) (hscope : Scope.Tidy scope) (placed : Nat) (fields : Fields)
    {α : Type} (k : List Arrival → Scope → Expansion m α) :
    (x.effects (Object.descend x.expandFully) scope ds >>= fun es =>
        k (Item.arrivals (Item.interleave placed fields ds) es) (Effect.visible scope es)) =
      (x.effects (Object.descend x.expandFully) scope ds' >>= fun es =>
        k (Item.arrivals (Item.interleave placed fields ds') es) (Effect.visible scope es)) := by
  induction ds generalizing ds' scope placed fields k with
  | nil =>
      cases hds
      rfl
  | cons d ds ih =>
      obtain ⟨hfirst, hsorted⟩ := List.pairwise_cons.mp hsorted
      obtain ⟨hweight₁, hweight⟩ := List.forall_mem_cons.mp hweight
      obtain ⟨htidy₁, htidy⟩ := List.forall_mem_cons.mp htidy
      obtain ⟨hordered₁, hordered⟩ := List.forall_mem_cons.mp hordered
      cases hds with
      | drop hskip hds =>
          have harrivals (es : List Effect) :
              Item.arrivals (Item.interleave placed fields (d :: ds)) (.none :: es) =
                Item.arrivals (Item.interleave placed fields ds) es := by
            have hdue : ∀ d' ∈ ds, d.offset - placed ≤ d'.offset - placed :=
              fun d' hmem => Nat.sub_le_sub_right (hfirst d' hmem) placed
            rw [Item.arrivals_interleave_cons, ← Item.interleave_skip fields hdue,
              Item.arrivals_ofFields_append]
            rfl
          rw [Expander.effects, hidle d hskip]
          simp only [pure_bind, bind_assoc, harrivals]
          exact ih hds hsorted hweight htidy hordered hplain hscope placed fields k
      | @keep _ args' _ ds' inner hds =>
          have heffect := effect_alike (x := x)
            (h.args hplain hscope inner hweight₁ htidy₁ hordered₁)
          rw [Expander.effects, Expander.effects, ← heffect]
          simp only [bind_assoc, pure_bind, Item.arrivals_interleave_cons]
          refine (hx.plain_effect hplain d).bind_congr_both
            (tidy_effect (tidy_expandFully hnested) hnested htidy₁ hscope) fun e he he' => ?_
          -- the rest is put behind what has arrived so far
          exact ih hds hsorted hweight htidy hordered
            (List.forall_mem_append.mpr ⟨he.fragments, hplain⟩)
            (List.forall_mem_append.mpr ⟨he'.fragments, hscope⟩) _ _ fun arrivals scope =>
              k ((fields.take (d.offset - placed)).map (fun entry => ⟨.merge, entry.2⟩) ++
                (e.arrivals ++ arrivals)) scope

/-! ## Expansion -/

/-- With or without directives, an object is put together from what arrives. -/
theorem IncludesPlain.descend_eq_effects (hx : x.IncludesPlain) (hplain : Scope.Plain scope)
    {o : Object} (ho : Fields.Proper o.fields) :
    o.descend x.expandFully scope = (do
      let es ← x.effects (Object.descend x.expandFully) scope o.directives
      (({ o with fields := [], directives := [] } : Object).combineEach
        (Item.arrivals o.items es)).descend x.expandFully (Effect.visible scope es)) := by
  by_cases hne : o.directives = []
  · -- the fields come back as they were
    have hnone : ({ o with directives := [] } : Object) = o := by
      rw [← hne]
      cases o
      rfl
    have hcombine : ({ o with fields := [], directives := [] } : Object).combineEach
        (Item.arrivals o.items []) = o := by
      rw [Object.items, Item.arrivals_interleave_nil, ← Object.combineAll_eq]
      exact (combineAll_merge_empty { o with directives := [] } ho).trans hnone
    rw [hne, Expander.effects, pure_bind, hcombine]
    rfl
  · rw [Object.descend_of_ne hne, hx.expandFully_eq hplain hne]

theorem Prunes.succ (h : x.Prunes skip n) (hx : x.IncludesPlain) (hnested : x.NestedTidy)
    (hskip : AnyOffset skip) (hidle : x.Idle skip) : x.Prunes skip (n + 1) := by
  intro scope o o' hplain hscope hne hweight htidy hordered hpruned
  have hargs : ∀ d ∈ o.directives, weightArgs d.args ≤ n :=
    fun d hmem => Nat.le_of_lt_succ ((o.weightArgs_lt hmem).trans_le hweight)
  have hfields : weightFields o.fields ≤ n :=
    Nat.le_of_lt_succ ((o.weightFields_lt hne).trans_le hweight)
  have hproper := hpruned.inner.proper htidy.fields.proper
  rw [hx.expandFully_eq hplain hne, hx.descend_eq_effects hplain hproper, hpruned.bare_eq]
  -- first the fields are pruned, then the directives
  refine Eq.trans (b := x.effects (Object.descend x.expandFully) scope o.directives >>= fun es =>
    (({ o with fields := [], directives := [] } : Object).combineEach
      (Item.arrivals (Item.interleave 0 o'.fields o.directives) es)).descend x.expandFully
        (Effect.visible scope es)) ?_ ?_
  · have htidy_effects := tidy_effects (tidy_expandFully hnested) hnested hscope htidy.directives
    refine (hx.plain_effects hplain o.directives).bind_congr_both htidy_effects
      fun es hes hes' => ?_
    have hbrought : ∀ e ∈ es, ∀ entry ∈ e.fields, entry.2.Tidy := fun e he => (hes' e he).fields
    have harrivals : ∀ a ∈ Item.arrivals o.items es, a.node.Tidy ∧ a.node.Ordered := by
      intro a hmem
      rcases Item.mem_arrivals hmem with hmem | ⟨e, he, entry, hentry, hnode⟩
      · obtain ⟨entry, hentry, hnode⟩ := Item.mem_interleave.mp hmem
        exact hnode ▸ ⟨htidy.fields.nodes entry hentry, hordered.nodes entry hentry⟩
      · exact hnode ▸ ⟨hbrought e he entry hentry,
          Node.Ordered.of_weightFields (hes e he).fields entry hentry⟩
    have hcombined := Object.Pruned.combineEach hskip
      (.refl skip { o with fields := [], directives := [] })
      (Item.arrivals_pruned hpruned.inner.nodes es 0 o.directives)
    exact h.descend (Effect.plain_visible hplain hes) (Effect.tidy_visible hscope hes') hcombined
      ((o.weight_combineEach_arrivals_le hes).trans hfields)
      (htidy.combineEach_arrivals hbrought) (.combineEach (.of_fields rfl nofun) harrivals)
  · exact h.effects hx hnested hidle hpruned.own hordered.sorted hargs htidy.directives
      hordered.blocks hplain hscope 0 o'.fields fun arrivals scope =>
        (({ o with fields := [], directives := [] } : Object).combineEach arrivals).descend
          x.expandFully scope

theorem prunes (hx : x.IncludesPlain) (hnested : x.NestedTidy) (hskip : AnyOffset skip)
    (hidle : x.Idle skip) (n : Nat) : x.Prunes skip n := by
  induction n with
  | zero =>
      intro scope o o' _ _ hne hweight
      exact absurd (Object.directives_of_weight (Nat.eq_zero_of_le_zero hweight)) hne
  | succ n ih => exact ih.succ hx hnested hskip hidle

/-- **Idle directives may be left out** of a tree, wherever in it they are. -/
theorem expand_pruned (hx : x.IncludesPlain) (hnested : x.NestedTidy) (hskip : AnyOffset skip)
    (hidle : x.Idle skip) {o o' : Object} (htidy : o.Tidy) (hordered : o.Ordered)
    (h : o.Pruned skip o') : x.expand o = x.expand o' := by
  have hprunes := prunes hx hnested hskip hidle o.weight
  rw [hx.expand_eq, hx.expand_eq]
  exact Prunes.descend hprunes (List.forall_mem_nil _) (List.forall_mem_nil _) h (Nat.le_refl _)
    htidy hordered

end Expander

end ConfigLang
