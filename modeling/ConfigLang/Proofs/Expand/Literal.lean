import Mathlib
import ConfigLang.Proofs.Expand.Declared
import ConfigLang.Proofs.Parse.Listing
import ConfigLang.Source.FileTree

/-!
# Literal options among directives

An option that is written in a body is merged where its name is declared first.  What
a directive brings under the name above that place is overwritten, and what one brings
below it is combined with the option, even if the option itself is written further
down (`expandObject_body`).

So an option below a directive stands if its name is declared there for the first time
and no directive further down brings it.  If its name is declared above the directive
already, the option is lost as soon as the directive brings the name in another way
than by appending.
-/

namespace ConfigLang

open Running

/-! ## Expanding the objects inside keeps the options -/

/-- If one of two nodes is an option, the other is the same. -/
def Node.SameOption (node node' : Node) : Prop :=
  ∀ b, node = .option b ↔ node' = .option b

/-- A node in which the objects inside are expanded: its options stay where they are. -/
def Node.Settled (node node' : Node) : Prop :=
  node'.isList = node.isList ∧ List.Forall₂ Node.SameOption node.flatten node'.flatten

theorem Node.sameOption_object (o o' : Object) : Node.SameOption (.object o) (.object o') :=
  fun _ => ⟨by rintro ⟨⟩, by rintro ⟨⟩⟩

theorem Node.sameOption_list (name name' : String) (items items' : List Node) :
    Node.SameOption (.list name items) (.list name' items') :=
  fun _ => ⟨by rintro ⟨⟩, by rintro ⟨⟩⟩

theorem Node.Settled.option_mem_iff {node node' : Node} (h : node.Settled node') {b : Binding} :
    .option b ∈ node.flatten ↔ .option b ∈ node'.flatten := by
  have hitems := h.2
  generalize node.flatten = items at hitems
  generalize node'.flatten = items' at hitems
  induction hitems with
  | nil => exact Iff.rfl
  | cons hitem _ ih =>
      rw [List.mem_cons, List.mem_cons, eq_comm, hitem b, eq_comm]
      exact or_congr_right ih

section Descend

variable {m : Type → Type} [Monad m] [LawfulMonad m]
  {expand : Scope → Object → Expansion m Object} {scope : Scope}

theorem settled_descendItem (item : Node) :
    Ensures (item.descend expand scope) item.SameOption := by
  cases item with
  | option c =>
      rw [Node.descend]
      exact .pure fun _ => Iff.rfl
  | object o =>
      rw [Node.descend]
      exact .bind_of fun o' => .pure (Node.sameOption_object o o')
  | list name items =>
      rw [Node.descend]
      exact .bind_of fun items' => .pure (Node.sameOption_list name name items items')

theorem settled_descendItems (items : List Node) :
    Ensures (descendItems expand scope items) (List.Forall₂ Node.SameOption items) := by
  induction items with
  | nil =>
      rw [descendItems]
      exact .pure .nil
  | cons item items ih =>
      rw [descendItems]
      exact (settled_descendItem item).bind fun _ hitem =>
        ih.bind fun _ hitems => .pure (.cons hitem hitems)

theorem settled_descendNode (node : Node) :
    Ensures (node.descend expand scope) node.Settled := by
  cases node with
  | option c =>
      rw [Node.descend]
      exact .pure ⟨rfl, .cons (fun _ => Iff.rfl) .nil⟩
  | object o =>
      rw [Node.descend]
      exact .bind_of fun o' => .pure ⟨rfl, .cons (Node.sameOption_object o o') .nil⟩
  | list name items =>
      rw [Node.descend]
      exact (settled_descendItems items).bind fun _ hitems => .pure ⟨rfl, hitems⟩

/-- The fields keep their names, and each of them settles. -/
theorem settled_descendFields (fields : Fields) :
    Ensures (descendFields expand scope fields) fun fields' => ∀ name node,
      Keyed.get? fields name = some node →
        ∃ node', Keyed.get? fields' name = some node' ∧ node.Settled node' := by
  induction fields with
  | nil =>
      rw [descendFields]
      exact .pure fun name node h => by cases h
  | cons field fields ih =>
      obtain ⟨key, node⟩ := field
      rw [descendFields]
      refine (settled_descendNode node).bind fun node' hnode =>
        ih.bind fun fields' hfields => .pure fun name found h => ?_
      rw [Keyed.get?_cons] at h ⊢
      split at h
      · rename_i hkey
        cases h
        exact ⟨node', if_pos hkey, hnode⟩
      · rename_i hkey
        obtain ⟨settled, hget, hsettled⟩ := hfields name found h
        exact ⟨settled, (if_neg hkey).trans hget, hsettled⟩

theorem Object.settled_descend {o : Object} (h : o.directives = []) :
    Ensures (o.descend expand scope) fun o' => ∀ name node, o.get? name = some node →
      ∃ node', o'.get? name = some node' ∧ node.Settled node' := by
  obtain ⟨_, _, fields, directives, _, _, _⟩ := o
  obtain rfl : directives = [] := h
  rw [descend]
  exact (settled_descendFields fields).bind fun fields' hfields => .pure hfields

end Descend

/-! ## What comes behind the first declaration -/

namespace Item

/-- The effects of the directives below the first field of a name. -/
def since (name : String) : List Item → List Effect → List Effect
  | [], _ => []
  | field node :: items, es => if node.name = name then es else since name items es
  | directive _ :: items, es => since name items es.tail

variable {name : String}

theorem since_append {above : List Item} {node : Node} (habove : node.name ∉ names above)
    (below : List Item) (es : List Effect) :
    since node.name (above ++ field node :: below) es = es.drop (directives above).length := by
  induction above generalizing es with
  | nil =>
      rw [List.nil_append, since, if_pos rfl]
      rfl
  | cons item above ih =>
      cases item with
      | directive d =>
          have hlength : (directives (directive d :: above)).length =
              (directives above).length + 1 := rfl
          rw [List.cons_append, since, ih habove, hlength, ← List.drop_one, List.drop_drop,
            Nat.add_comm]
      | field other =>
          obtain ⟨hname, hrest⟩ := not_or.mp (mt List.mem_cons.mpr habove)
          rw [List.cons_append, since, if_neg (Ne.symm hname)]
          exact ih hrest es

/-- All declarations of a name stand below the first one. -/
theorem declared_first {above : List Item} {node : Node} (habove : node.name ∉ names above)
    (below : List Item) :
    declared node.name (above ++ field node :: below) = node :: declared node.name below := by
  rw [declared_append, declared_of_not_mem habove, List.nil_append, declared_cons rfl]

/-- A name that is declared is declared a first time. -/
theorem exists_first {items : List Item} (h : name ∈ names items) :
    ∃ above node below, items = above ++ field node :: below ∧ node.name = name ∧
      name ∉ names above := by
  induction items with
  | nil => cases h
  | cons item items ih =>
      have hcons : ∀ others, names (item :: others) = names [item] ++ names others :=
        names_append [item]
      by_cases hitem : name ∈ names [item]
      · obtain ⟨node, hmem, hname⟩ := mem_names.mp hitem
        obtain rfl := List.mem_singleton.mp hmem
        exact ⟨[], node, items, rfl, hname, List.not_mem_nil⟩
      · rw [hcons, List.mem_append] at h
        obtain ⟨above, node, below, rfl, hname, habove⟩ := ih (h.resolve_left hitem)
        refine ⟨item :: above, node, below, rfl, hname, ?_⟩
        rw [hcons, List.mem_append, not_or]
        exact ⟨hitem, habove⟩

end Item

/-- An option among some nodes is still there when they are gathered. -/
theorem Node.mem_flatten_gather {name : String} {nodes : List Node} {b : Binding}
    (h : .option b ∈ nodes) : .option b ∈ (gather name nodes).flatten := by
  match nodes with
  | [node] =>
    rw [← List.mem_singleton.mp h]
    exact List.mem_singleton.mpr rfl
  | _ :: _ :: _ => exact h

theorem Node.gather_ne_object {name : String} {nodes : List Node} {b : Binding}
    (h : .option b ∈ nodes) (o : Object) : gather name nodes ≠ .object o := by
  match nodes with
  | [node] =>
    rw [← List.mem_singleton.mp h]
    rintro ⟨⟩
  | _ :: _ :: _ => rintro ⟨⟩

/-- What becomes of an option in an object, where the option is one of the items of a body and `es`
is what the directives among them bring. -/
structure LiteralOutcome (items : List Item) (es : List Effect) (c : Binding) (o : Object) :
    Prop where
  /-- No directive brings the name below its first declaration: the option stands there, alone or
  in the list of all that is declared under the name. -/
  stands : (∀ e ∈ Item.since c.name items es, ¬ e.Brings c.name) →
    ∃ node, o.get? c.name = some node ∧
      (Node.gather c.name (Item.declared c.name items)).Settled node ∧ .option c ∈ node.flatten
  /-- What directives bring there is appended: the option is still among the items. -/
  kept : (∀ a ∈ Effect.underName c.name (Item.since c.name items es), a.method = .append) →
    ∃ node, o.get? c.name = some node ∧ .option c ∈ node.flatten
  /-- One of them brings the name in another way: the option is lost, unless a directive brings
  just that option. -/
  lost : (∃ a ∈ Effect.underName c.name (Item.since c.name items es), a.method ≠ .append) →
    ∃ node, o.get? c.name = some node ∧ (.option c ∈ node.flatten →
      ∃ a ∈ Effect.underName c.name (Item.since c.name items es), .option c ∈ a.node.flatten)

/-- What a name holds is what was declared under it, with what came since on top. -/
theorem get?_declareAll {items : List Item} {c : Binding} (hmem : .field (.option c) ∈ items)
    (hitems : ∀ node, .field node ∈ items → node.isList = false) {o o' : Object}
    (hfields : o.fields = []) (hdirectives : o.directives = [])
    (ho' : o'.items = (o.declareAll items).items) (bare : Object) (es : List Effect) :
    (bare.combineEach (Item.arrivals o'.items es)).get? c.name =
      Arrival.settle (some (Node.gather c.name (Item.declared c.name items)))
        (Effect.underName c.name (Item.since c.name items es)) := by
  have hin : .option c ∈ Item.declared c.name items := Item.mem_declared.mpr ⟨hmem, rfl⟩
  have hgather : (Node.gather c.name (Item.declared c.name items)).name = c.name :=
    Node.name_gather fun node hnode => (Item.mem_declared.mp hnode).2
  obtain ⟨above, first, below, rfl, hname, habove⟩ :=
    Item.exists_first (Item.mem_names.mpr ⟨.option c, hmem, rfl⟩ : c.name ∈ Item.names items)
  rw [← hname] at habove hin hgather ⊢
  have hholds := Object.items_declareAll hfields hdirectives habove hitems
  rw [← Item.declared_first habove] at hholds
  rw [ho', hholds.get?_combineEach hgather (Node.gather_ne_object hin), Item.since_append habove]

theorem literalOutcome {items : List Item} {c : Binding} (hmem : .field (.option c) ∈ items)
    {es : List Effect} {placed o : Object}
    (hplaced : placed.get? c.name =
      Arrival.settle (some (Node.gather c.name (Item.declared c.name items)))
        (Effect.underName c.name (Item.since c.name items es)))
    (hsettled : ∀ name node, placed.get? name = some node →
      ∃ node', o.get? name = some node' ∧ node.Settled node') :
    LiteralOutcome items es c o := by
  have hoption : .option c ∈ (Node.gather c.name (Item.declared c.name items)).flatten :=
    Node.mem_flatten_gather (Item.mem_declared.mpr ⟨hmem, rfl⟩)
  have hkept : (∀ a ∈ Effect.underName c.name (Item.since c.name items es), a.method = .append) →
      ∃ node, o.get? c.name = some node ∧ .option c ∈ node.flatten := by
    intro happend
    obtain ⟨final, hfinal, hin⟩ := Arrival.mem_settle_of_append hoption happend
    obtain ⟨node, hnode, hsame⟩ := hsettled _ _ (hplaced.trans hfinal)
    exact ⟨node, hnode, hsame.option_mem_iff.mp hin⟩
  refine ⟨fun hnone => ?_, hkept, ?_⟩
  · rw [Effect.underName_eq_nil hnone] at hplaced
    obtain ⟨node, hnode, hsame⟩ := hsettled _ _ hplaced
    exact ⟨node, hnode, hsame, hsame.option_mem_iff.mp hoption⟩
  · rintro ⟨a, ha, hmethod⟩
    obtain ⟨final, hfinal⟩ := Arrival.exists_settle_some
      (Node.gather c.name (Item.declared c.name items))
      (Effect.underName c.name (Item.since c.name items es))
    obtain ⟨node, hnode, hsame⟩ := hsettled _ _ (hplaced.trans hfinal)
    refine ⟨node, hnode, ?_⟩
    intro hin
    rcases Arrival.option_mem_settle hfinal (hsame.option_mem_iff.mpr hin) with h | ⟨happend, -⟩
    · exact h
    · exact absurd (happend a ha) hmethod

namespace Expander

/-- **What becomes of an option that is written in a body among directives.**  It is found under
its name in the expanded object unless a directive below the first declaration of that name
brings the name other than by appending; then it is lost.  In particular it stands whenever it
is itself the first declaration and no directive below brings the name. -/
theorem expandObject_body {σ : Type} (x : Expander (StateM σ)) {stop : Position} {inBraces : Bool}
    {o : Object} {pending : List String} {input : List Token} {p : Parsed Object input}
    (hbody : Parse.body stop inBraces o pending input = .ok p) (hfields : o.fields = [])
    (hdirectives : o.directives = []) {parsed : Object} (hparsed : parsed.fields = p.value.fields)
    (hrunning : parsed.directives = p.value.directives) {weight : Nat} {scope : Scope}
    {result : Object} {before after : σ}
    (hexpand : (x.expandObject (weight + 1) scope parsed).run.run before = (.ok result, after)) :
    ∃ items es between, Parse.Lists stop inBraces pending input items ∧
      (x.effects (Object.descend (x.expandObject weight)) scope
        (Item.directives items)).run.run before = (.ok es, between) ∧
      ∀ c, .field (.option c) ∈ items → LiteralOutcome items es c result := by
  obtain ⟨items, hlists, hsame, hplaced, hall⟩ := Parse.body_lists hbody
  have hitems : parsed.items = (o.declareAll items).items := by
    rw [Object.items, Object.items, hparsed, hrunning, hsame, hplaced]
  have hlisted : parsed.directives = Item.directives items := by
    rw [hrunning, hall, hdirectives, List.nil_append]
  rw [expandObject_eq, run_bind, hlisted] at hexpand
  cases heffects : (x.effects (Object.descend (x.expandObject weight)) scope
      (Item.directives items)).run.run before with
  | mk r between =>
      rw [heffects] at hexpand
      cases r with
      | error e => cases hexpand
      | ok es =>
          refine ⟨items, es, between, hlists, heffects, ?_⟩
          intro c hc
          have hget := get?_declareAll hc hlists.not_isList hfields hdirectives hitems
            { parsed with fields := [], directives := [] } es
          have hkeep : (({ parsed with fields := [], directives := [] } : Object).combineEach
              (Item.arrivals parsed.items es)).directives = [] := by
            rw [Object.combineEach_eq]
          exact literalOutcome hc hget ((Object.settled_descend hkeep).of_run hexpand)

/-- The option `level = 2` in `.define(f, { level = 1 })`, `.apply(f)`, `level = 2`. -/
theorem expandObject_body_of_apply :
    ∃ (x : Expander (StateM Unit)) (o : Object) (input : List Token) (stop : Position)
      (p : Parsed Object input) (result : Object),
      TokenList.ofText ".define(f, { level = 1 })\n.apply(f)\nlevel = 2\n" = ⟨input, stop⟩ ∧
      Parse.body stop false o [] input = .ok p ∧ o.fields = [] ∧ o.directives = [] ∧
      (x.expandObject 2 [] p.value).run.run () = (.ok result, ()) ∧
      ∃ items es between, Parse.Lists stop false [] input items ∧
        (x.effects (Object.descend (x.expandObject 1)) []
          (Item.directives items)).run.run () = (.ok es, between) ∧
        ∀ c, .field (.option c) ∈ items → LiteralOutcome items es c result := by
  let x : Expander (StateM Unit) :=
    ⟨⟨(FileTree.mk [] []).host, (FileTree.mk [] []).source, .ofBase .empty⟩, "", 0, none⟩
  let o := Object.empty "" ⟨1, 1⟩
  let tokens := TokenList.ofText ".define(f, { level = 1 })\n.apply(f)\nlevel = 2\n"
  have hfound : (Parse.body tokens.stop false o [] tokens.tokens).toOption.any (fun p =>
      ((x.expandObject 2 [] p.value).run.run ()).1.toOption.any fun _ => true) = true := by
    decide +kernel
  obtain ⟨p, hbody, hfound⟩ := exists_of_any hfound
  obtain ⟨result, _, hexpand, -⟩ := exists_of_any_run hfound
  exact ⟨x, o, tokens.tokens, tokens.stop, p, result, rfl, hbody, rfl, rfl, hexpand,
    expandObject_body x hbody rfl rfl rfl rfl hexpand⟩

/-- Of the document `.define(f, { k = 9 })`, `k = 1`, `.apply(f)`, `k = 2` nothing is left under `k`
but what is applied, though `k = 2` is written behind it. -/
theorem expand_loses_literal :
    ∃ (x : Expander (StateM Unit)) (root o : Object) (first second : Binding),
      parseDocument ".define(f, { k = 9 })\nk = 1\n.apply(f)\nk = 2\n" = .ok root ∧
      root.get? "k" = some (.list "k" [.option first, .option second]) ∧ first.IsInt 1 ∧
      second.IsInt 2 ∧ (x.expand root).run.run () = (.ok o, ()) ∧ o.HasInt "k" 9 := by
  let x : Expander (StateM Unit) :=
    ⟨⟨(FileTree.mk [] []).host, (FileTree.mk [] []).source, .ofBase .empty⟩, "", 0, none⟩
  have hfound : (parseDocument ".define(f, { k = 9 })\nk = 1\n.apply(f)\nk = 2\n").toOption.any
      (fun root => ((x.expand root).run.run ()).1.toOption.any fun o =>
        (root.get? "k").any fun node => node.options?.any fun (first, second) =>
          decide (node.name = "k" ∧ first.IsInt 1 ∧ second.IsInt 2 ∧ o.HasInt "k" 9)) = true := by
    decide +kernel
  obtain ⟨root, hparse, hfound⟩ := exists_of_any hfound
  obtain ⟨o, _, hexpand, hfound⟩ := exists_of_any_run hfound
  obtain ⟨node, hnode, hfound⟩ := (Option.any_eq_true ..).mp hfound
  obtain ⟨⟨first, second⟩, hoptions, hfound⟩ := (Option.any_eq_true ..).mp hfound
  obtain ⟨hname, hfirst, hsecond, hk⟩ := of_decide_eq_true hfound
  rw [Node.eq_of_options? hoptions, hname] at hnode
  exact ⟨x, root, o, first, second, hparse, hnode, hfirst, hsecond, hexpand, hk⟩

end Expander

end ConfigLang
