import Mathlib
import ConfigLang.Proofs.Expand.Termination

/-!
# Scopes follow the text

The expander carries one list of fragments, and counts down the directives of the document
that it expands.  Here it is described by the objects around a place, each with the
fragments that were defined in it so far (`Surroundings`), and without a count:
`Expander.expandIn` expands an object in its surroundings, and `Expander.effectIn` runs a
directive there.

What a name stands for is then plain to see (`Expander.Scoped`).  A directive sees what was
defined above it in its own object, and whatever is seen there; so does a block that it
defines.  The objects inside an object see all that was defined in it.  An included
document sees nothing of the document around it, and leaves no fragment there.
-/

namespace ConfigLang

open Running

variable {m : Type → Type} [Monad m]

/-! ## Surroundings -/

/-- The objects around a place, from the inside out.  Of each there are the fragments that were
defined in it, the latest first. -/
abbrev Surroundings := List Scope

namespace Surroundings

/-- What a name stands for: the latest definition of the innermost object that defines it. -/
def fragment? (around : Surroundings) (name : String) : Option Fragment :=
  around.findSome? (·.lookup name)

/-- There is no directive in the blocks that are visible. -/
def Plain (around : Surroundings) : Prop :=
  ∀ scope ∈ around, Scope.Plain scope

theorem lookup_flatten (around : Surroundings) (name : String) :
    around.flatten.lookup name = around.fragment? name := by
  induction around with
  | nil => rfl
  | cons scope around ih =>
      have happend : (scope ++ around.flatten).lookup name =
          (scope.lookup name).or (around.flatten.lookup name) :=
        Keyed.get?_append scope around.flatten name
      rw [List.flatten_cons, happend, ih, fragment?, fragment?, List.findSome?_cons]
      cases scope.lookup name <;> rfl

theorem Plain.flatten {around : Surroundings} (h : around.Plain) : Scope.Plain around.flatten := by
  intro entry hmem
  obtain ⟨scope, hscope, hmem⟩ := List.mem_flatten.mp hmem
  exact h scope hscope entry hmem

theorem Plain.cons {around : Surroundings} {scope : Scope} (hscope : Scope.Plain scope)
    (h : around.Plain) : Plain (scope :: around) :=
  List.forall_mem_cons.mpr ⟨hscope, h⟩

end Surroundings

/-! ## Expanding in surroundings -/

section

variable (f : Object → Expansion m Object)

mutual

/-- Applies `f` to an object, and to the objects in a list. -/
def Node.eachObject : Node → Expansion m Node
  | .option binding => return .option binding
  | .object o => return .object (← f o)
  | .list name items => return .list name (← eachItem items)

/-- Applies `f` to the objects among some items. -/
def eachItem : List Node → Expansion m (List Node)
  | [] => return []
  | item :: items => do
    let item ← item.eachObject
    return item :: (← eachItem items)

end

/-- Applies `f` to the objects in some fields. -/
def eachField : Fields → Expansion m Fields
  | [] => return []
  | (key, node) :: fields => do
    let node ← node.eachObject f
    return (key, node) :: (← eachField fields)

end

namespace Expander

variable (x : Expander m)

/-- Expands an object that has directives. -/
def expandFully (scope : Scope) (o : Object) : Expansion m Object :=
  x.expandObject o.weight scope o

/-- Expands an object in its surroundings. -/
def expandIn (around : Surroundings) (o : Object) : Expansion m Object :=
  o.descend x.expandFully around.flatten

/-- What a directive brings in its surroundings. -/
def effectIn (around : Surroundings) (d : Directive) : Expansion m Effect :=
  x.effect (Object.descend x.expandFully) d around.flatten

/-- What the directives of an object bring, one after the other. `own` are the fragments that were
defined above them in the object, and `around` are its surroundings. -/
def effectsIn (around : Surroundings) (own : Scope) : List Directive → Expansion m (List Effect)
  | [] => return []
  | d :: ds => do
    let e ← x.effectIn (own :: around) d
    let es ← effectsIn around (e.fragments ++ own) ds
    return e :: es

variable {x}

theorem effectsIn_eq (around : Surroundings) (own : Scope) (ds : List Directive) :
    x.effectsIn around own ds =
      x.effects (Object.descend x.expandFully) (own ++ around.flatten) ds := by
  induction ds generalizing own with
  | nil => rfl
  | cons d ds ih =>
      rw [effectsIn, effects, effectIn, List.flatten_cons]
      refine congrArg (_ >>= ·) (funext fun e => ?_)
      rw [ih, List.append_assoc]

end Expander

theorem Effect.visible_append (own scope : Scope) (effects : List Effect) :
    visible (own ++ scope) effects = visible own effects ++ scope := by
  induction effects generalizing own with
  | nil => rfl
  | cons e effects ih =>
      have happend := ih (e.fragments ++ own)
      rwa [List.append_assoc] at happend

section Descend

variable {expand : Scope → Object → Expansion m Object} {scope : Scope}

mutual

theorem Node.descend_eq_eachObject : ∀ node : Node,
    node.descend expand scope = node.eachObject fun o => o.descend expand scope
  | .option binding => by rw [Node.descend, Node.eachObject]
  | .object o => by rw [Node.descend, Node.eachObject]
  | .list name items => by rw [Node.descend, Node.eachObject, descendItems_eq_eachItem]

theorem descendItems_eq_eachItem : ∀ items : List Node,
    descendItems expand scope items = eachItem (fun o => o.descend expand scope) items
  | [] => by rw [descendItems, eachItem]
  | item :: items => by
    rw [descendItems, eachItem, Node.descend_eq_eachObject, descendItems_eq_eachItem]

end

theorem descendFields_eq_eachField (fields : Fields) :
    descendFields expand scope fields = eachField (fun o => o.descend expand scope) fields := by
  induction fields with
  | nil => rw [descendFields, eachField]
  | cons field fields ih =>
      obtain ⟨key, node⟩ := field
      rw [descendFields, eachField, Node.descend_eq_eachObject, ih]

theorem Object.descend_of_directives {o : Object} (h : o.directives = []) :
    o.descend expand scope = (do
      return { o with fields := ← eachField (fun o => o.descend expand scope) o.fields }) := by
  obtain ⟨name, label, fields, directives, comments, footer, position⟩ := o
  obtain rfl : directives = [] := h
  rw [Object.descend, descendFields_eq_eachField]

theorem Object.descend_of_ne {o : Object} (h : o.directives ≠ []) :
    o.descend expand scope = expand scope o := by
  obtain ⟨name, label, fields, directives, comments, footer, position⟩ := o
  rw [Object.descend]
  exact h

end Descend

/-! ## The count is of no matter -/

/-- There is no directive in the documents that an expander includes. -/
def Expander.IncludesPlain (x : Expander m) : Prop :=
  ∀ d, Ensures (x.includeDocument d) Effect.Plain

namespace Expander

variable {x : Expander m}

theorem unfold_add (stuck : Scope → Object → Expansion m Object) (n k : Nat) :
    x.unfold stuck (n + k) = x.unfold (x.unfold stuck k) n := by
  induction n with
  | zero => rw [Nat.zero_add, unfold]
  | succ n ih => rw [Nat.succ_add, unfold, unfold, ih]

namespace IncludesPlain

theorem shares {ι : Type} {c : Comparison ι m} (hx : x.IncludesPlain) :
    c.Shares x.toScene fun _ => x :=
  ⟨fun _ => ⟨x.source, rfl⟩, fun d => c.const (hx d)⟩

variable [LawfulMonad m]

/-- Counting from more than there are directives makes no difference. -/
theorem expands (hx : x.IncludesPlain) (n : Nat) :
    (Comparison.same Bool m).Expands n fun b => if b then x.expandObject n else x.expandFully := by
  intro scope o hscope hne hweight
  obtain ⟨more, rfl⟩ := Nat.exists_eq_add_of_le hweight
  have hsame := Comparison.expands_unfold (c := Comparison.same Bool m) hx.shares
    (fun b => if b then x.unfold (fun _ o => pure o) more else fun _ o => pure o) o.weight
    scope o hscope hne (Nat.le_refl _)
  have heq (b : Bool) : (if b then x.expandObject (o.weight + more) else x.expandFully) scope o =
      x.unfold (if b then x.unfold (fun _ o => pure o) more else fun _ o => pure o) o.weight
        scope o := by
    cases b with
    | true => exact congrFun₂ ((x.expandObject_eq_unfold _).trans (unfold_add _ _ _)) scope o
    | false => exact congrFun₂ (x.expandObject_eq_unfold o.weight) scope o
  simp only [heq]
  exact hsame

variable {scope : Scope} {n : Nat}

theorem descend_eq (hx : x.IncludesPlain) (hscope : Scope.Plain scope) {o : Object}
    (h : o.weight ≤ n) :
    o.descend (x.expandObject n) scope = o.descend x.expandFully scope :=
  (Comparison.descend (hx.expands n) hscope h).1 true false

theorem effects_eq (hx : x.IncludesPlain) (hscope : Scope.Plain scope) {ds : List Directive}
    (h : ∀ d ∈ ds, weightArgs d.args ≤ n) :
    x.effects (Object.descend (x.expandObject n)) scope ds =
      x.effects (Object.descend x.expandFully) scope ds :=
  (Comparison.effects (x := fun _ => x) hx.shares (hx.expands n) hscope h).1 true false

theorem plain_effects (hx : x.IncludesPlain) (hscope : Scope.Plain scope) (ds : List Directive) :
    Ensures (x.effects (Object.descend x.expandFully) scope ds) fun es => ∀ e ∈ es, e.Plain := by
  have hargs : ∀ d ∈ ds, weightArgs d.args ≤ weightDirectives ds :=
    fun d hmem => (weightArgs_lt_of_mem hmem).le
  exact (Comparison.effects (x := fun _ => x) hx.shares (hx.expands _) hscope hargs).2 false

theorem expandFully_eq (hx : x.IncludesPlain) (hscope : Scope.Plain scope) {o : Object}
    (hne : o.directives ≠ []) :
    x.expandFully scope o = (do
      let es ← x.effects (Object.descend x.expandFully) scope o.directives
      (({ o with fields := [], directives := [] } : Object).combineEach
        (Item.arrivals o.items es)).descend x.expandFully (Effect.visible scope es)) := by
  have hlt := o.weightFields_lt hne
  obtain ⟨n, hn⟩ := Nat.exists_eq_add_one.mpr (Nat.zero_lt_of_lt hlt)
  have hargs : ∀ d ∈ o.directives, weightArgs d.args ≤ n :=
    fun d hmem => Nat.le_of_lt_succ ((o.weightArgs_lt hmem).trans_eq hn)
  have hfields : weightFields o.fields ≤ n := Nat.le_of_lt_succ (hlt.trans_eq hn)
  rw [expandFully, hn, expandObject_eq, hx.effects_eq hscope hargs]
  refine (hx.plain_effects hscope o.directives).bind_congr fun es hes => ?_
  exact hx.descend_eq (Effect.plain_visible hscope hes)
    ((o.weight_combineEach_arrivals_le hes).trans hfields)

theorem expand_eq (hx : x.IncludesPlain) (o : Object) : x.expand o = x.expandIn [] o :=
  hx.descend_eq (List.forall_mem_nil _) (Nat.le_refl _)

end IncludesPlain

end Expander

/-! ## The laws of scopes -/

/-- An expander goes by the scopes of the text. -/
structure Expander.Scoped (x : Expander m) : Prop where
  /-- The objects inside an object see what it sees. -/
  inside (around : Surroundings) (o : Object) : o.directives = [] →
    x.expandIn around o = do
      return { o with fields := ← eachField (x.expandIn around) o.fields }
  /-- The directives of an object run first, each with what was defined above it.  Then the
  objects inside see all that was defined. -/
  body (around : Surroundings) (o : Object) : around.Plain → o.directives ≠ [] →
    x.expandIn around o = do
      let es ← x.effectsIn around [] o.directives
      x.expandIn (Effect.visible [] es :: around)
        (({ o with fields := [], directives := [] } : Object).combineEach
          (Item.arrivals o.items es))
  /-- What is visible never has directives. -/
  plain (around : Surroundings) (own : Scope) (ds : List Directive) : around.Plain →
    Scope.Plain own → Ensures (x.effectsIn around own ds) fun es =>
      Scope.Plain (Effect.visible own es)
  /-- A definition brings one fragment.  A block sees what was defined up to the definition. -/
  definition (around : Surroundings) (d : Directive) : d.kind = .definition →
    x.effectIn around d = do
      let args ← d.bind ["name", "fragment"]
      let name ← d.nameOf x.toScene "name" (← d.required args "name")
      let fragment ←
        match ← d.required args "fragment" with
        | .block o => do pure (Fragment.block (← x.expandIn around o))
        | .expr e => pure (Fragment.value e)
        | .ident ident => throw (d.invalid (.notFragment ident))
      return { Effect.none with fragments := [(name, fragment)] }
  /-- An application takes the latest definition in the innermost object that has one. -/
  application (around : Surroundings) (d : Directive) : d.kind = .application →
    x.effectIn around d = do
      let args ← d.bind ["name", "fields", "depth", "method"]
      let name ← d.nameOf x.toScene "name" (← d.required args "name")
      let method ← d.methodOf x.toScene (Keyed.get? args "method")
      match around.fragment? name with
      | none => throw (.undefinedFragment name d.position)
      | some (.value e) => return ⟨method, [(name, .option ⟨name, e, .none, d.position⟩)], []⟩
      | some (.block block) => do
        let block ← x.selectFields d args block
        return ⟨method, block.fields, []⟩
  /-- An include sees no fragment. -/
  inclusion (around : Surroundings) (d : Directive) : d.kind = .inclusion →
    x.effectIn around d = x.includeDocument d
  /-- An include leaves no fragment. -/
  included (d : Directive) : Ensures (x.includeDocument d) fun e => e.fragments = []
  /-- There is nothing around a document. -/
  document (o : Object) : x.expand o = x.expandIn [] o

variable [LawfulMonad m]

namespace Expander

theorem fragments_includeDocument (x : Expander m) (d : Directive) :
    Ensures (x.includeDocument d) fun e => e.fragments = [] := by
  unfold includeDocument
  refine .bind_of fun i => ?_
  split
  · exact .throw _
  · refine .bind_of fun fetched => ?_
    split
    · split
      · exact .throw _
      · exact .pure rfl
    · exact .bind_of fun document => .bind_of fun document' => .pure rfl

theorem IncludesPlain.scoped {x : Expander m} (hx : x.IncludesPlain) : x.Scoped where
  inside around o h := Object.descend_of_directives h
  body around o haround hne := by
    have hbody := hx.expandFully_eq haround.flatten hne
    rw [expandIn, Object.descend_of_ne hne, hbody, effectsIn_eq, List.nil_append]
    refine congrArg (_ >>= ·) (funext fun es => ?_)
    rw [expandIn, List.flatten_cons, ← Effect.visible_append, List.nil_append]
  plain around own ds haround hown := by
    have hscope : Scope.Plain (own ++ around.flatten) := (haround.cons hown).flatten
    rw [effectsIn_eq]
    exact (hx.plain_effects hscope ds).mono fun es hes => Effect.plain_visible hown hes
  definition around d h := by
    rw [effectIn, effect, h]
    rfl
  application around d h := by
    rw [effectIn, effect, h]
    unfold apply
    refine bind_congr fun args => bind_congr fun e => bind_congr fun name =>
      bind_congr fun method => ?_
    rewrite [Surroundings.lookup_flatten]
    rfl
  inclusion around d h := by rw [effectIn, effect, h]
  included := x.fragments_includeDocument
  document := hx.expand_eq

end Expander

namespace Scene

/-- What expands a document in a directory, where includes may be nested `budget` levels deeper. -/
def expander (scene : Scene m) (directory : String) : (budget : Nat) → Expander m
  | 0 => ⟨scene, directory, includeLimit + 1, none⟩
  | budget + 1 => ⟨scene, directory, includeLimit - budget, some (scene.expandWithin budget)⟩

omit [LawfulMonad m] in
theorem expandWithin_eq (scene : Scene m) (budget : Nat) (directory : String) (o : Object) :
    scene.expandWithin budget directory o = (scene.expander directory budget).expand o := by
  cases budget <;> rfl

theorem includesPlain_expander (scene : Scene m) (directory : String) (budget : Nat) :
    (scene.expander directory budget).IncludesPlain := by
  have hscene : ∀ _ : Unit, ∃ source, scene = { scene with source } := fun _ => ⟨_, rfl⟩
  intro d
  cases budget with
  | zero =>
      have hsame := Comparison.includeDocument_none (c := Comparison.same Unit m) (d := d)
        (x := fun _ => scene.expander directory 0) hscene fun _ => rfl
      exact hsame.2 ()
  | succ budget =>
      have hsame := Comparison.includeDocument (c := Comparison.same Unit m) (d := d)
        (x := fun _ => scene.expander directory (budget + 1)) hscene (fun _ => rfl)
        (fun _ _ => rfl) fun directory o =>
          (Comparison.same Unit m).const (scene.ensures_weight budget directory o)
      exact hsame.2 ()

end Scene

end ConfigLang
