import Mathlib
import ConfigLang.Document.Projection
import ConfigLang.Proofs.Document.Memo

/-!
# Fields under evaluation

The resolver evaluates what a field refers to while the field itself is under
evaluation.  It counts down the fields that it may still go into, and there is no end
to be seen in the recursion but that count.  `resolveOr` is the same resolver with a
way out: where the count is used up, where a field would be under evaluation twice, or
where there would be more of them than fields with values, it hands over to another
computation.  It never does so, whatever that computation is
(`evaluateOr_eq`, `fieldOr_eq`): the count is never used up, and would not be needed.

The argument is that the fields under evaluation are distinct fields of the chain.  It
goes through for every state that a run can be in, since no run changes the objects
(`Agrees.keeps`).
-/

namespace ConfigLang

open Running

namespace Resolution

variable {m : Type → Type} [Monad m]

/-! ## A resolver with a way out -/

section Definitions

variable (stuck : Resolution m Value) (host : Host m) (base : Frame)

/-- The value of a field, as `resolve` finds it, while the fields in `active` are being evaluated.
Hands over to `stuck` if no more may be, or if those that are then are not distinct, or are more
than the fields with values and one. -/
def resolveOr (left : Nat) (active : List (Nat × String)) (level : Nat) (name : String) :
    Resolution m Value := do
  let levels ← get
  match levels[level]? with
  | none => throw (.undefinedVariable ("$" ++ name))
  | some slot =>
    match slot.results.lookup name with
    | some result => settled result
    | none =>
      if active.contains (level, name) then throw (.cyclicReference ("$" ++ name))
      else
        match slot.object.valueNode? name with
        | none => throw (.undefinedVariable ("$" ++ name))
        | some node =>
          let nested := (level, name) :: active
          match left with
          | 0 => stuck
          | left + 1 =>
            if nested.Nodup ∧ nested.length ≤ valueCount levels + 1 then do
              let result ← ExceptT.mk do
                return .ok (← (evaluateAt host base (resolveOr left nested) level node).run)
              modify fun levels => levels.modify level (Level.record name result)
              settled result
            else stuck

/-- The value of a field of the innermost object, as `field` finds it. -/
def fieldOr (name : String) : Resolution m Value := do
  let levels ← get
  resolveOr stuck host base (valueCount levels) [] (levels.length - 1) name

/-- The value of a node in the innermost object, as `evaluate` finds it. -/
def evaluateOr (node : Node) : Resolution m Value := do
  let levels ← get
  let level := levels.length - 1
  evaluateAt host base (resolveOr stuck host base (valueCount levels) [(level, node.name)]) level
    node

end Definitions

/-! ## Computations that agree -/

variable [LawfulMonad m] {α β : Type} {objects : List Object}

/-- Two computations do the same in every state with some objects, and leave these as they are. -/
structure Agrees (objects : List Object) (x y : Resolution m α) : Prop where
  eq : ∀ levels, levels.map Level.object = objects → x.run.run levels = y.run.run levels
  keeps : ∀ levels, levels.map Level.object = objects →
    SatisfiesM (fun out => out.2.map Level.object = objects) (x.run.run levels)

namespace Agrees

variable {x y : Resolution m α} {f g : α → Resolution m β}

theorem bind (hx : Agrees objects x y) (hf : ∀ a, Agrees objects (f a) (g a)) :
    Agrees objects (x >>= f) (y >>= g) := by
  constructor
  · intro levels hlevels
    obtain ⟨z, hz⟩ := hx.keeps levels hlevels
    rw [run_bind, run_bind, ← hx.eq levels hlevels, ← hz, bind_map_left, bind_map_left]
    refine congrArg (z >>= ·) (funext fun out => ?_)
    obtain ⟨⟨r, after⟩, hafter⟩ := out
    cases r with
    | ok a => exact (hf a).eq after hafter
    | error e => rfl
  · intro levels hlevels
    rw [run_bind]
    refine (hx.keeps levels hlevels).bind fun out hout => ?_
    obtain ⟨r, after⟩ := out
    cases r with
    | ok a => exact (hf a).keeps after hout
    | error e => exact .pure hout

/-- A computation that looks at the objects finds those. -/
theorem get_bind {f g : List Level → Resolution m β}
    (h : ∀ levels, levels.map Level.object = objects → Agrees objects (f levels) (g levels)) :
    Agrees objects (get >>= f) (get >>= g) := by
  constructor
  · intro levels hlevels
    rw [run_bind, run_bind, run_get, pure_bind, pure_bind]
    exact (h levels hlevels).eq levels hlevels
  · intro levels hlevels
    rw [run_bind, run_get, pure_bind]
    exact (h levels hlevels).keeps levels hlevels

theorem settled (r : Except EvalError α) :
    Agrees objects (Resolution.settled r : Resolution m α) (Resolution.settled r) :=
  ⟨fun _ _ => rfl, fun levels hlevels => .pure (a := (r, levels)) hlevels⟩

theorem lift (x : ExceptT EvalError m α) :
    Agrees objects (Resolution.lift x) (Resolution.lift x) := by
  refine ⟨fun _ _ => rfl, fun levels hlevels => ?_⟩
  change SatisfiesM _ (x.run >>= fun r => pure (r, levels))
  exact SatisfiesM.bind (p := fun _ => True) .trivial fun r _ => .pure hlevels

/-- A result is kept, also if it is a failure. -/
theorem attempt (hx : Agrees objects x y) :
    Agrees objects (ExceptT.mk do return .ok (← x.run) : Resolution m (Except EvalError α))
      (ExceptT.mk do return .ok (← y.run)) := by
  constructor
  · intro levels hlevels
    rw [run_attempt, run_attempt, hx.eq levels hlevels]
  · intro levels hlevels
    rw [run_attempt]
    exact (hx.keeps levels hlevels).bind fun out hout => .pure hout

theorem record (level : Nat) (name : String) (r : Except EvalError Value) :
    Agrees objects (modify fun levels => levels.modify level (Level.record name r) :
      Resolution m PUnit) (modify fun levels => levels.modify level (Level.record name r)) := by
  refine ⟨fun _ _ => rfl, fun levels hlevels => ?_⟩
  rw [run_modify]
  exact .pure ((map_object_record level name).trans hlevels)

end Agrees

section

variable {r r' : Nat → String → Resolution m Value} (host : Host m) (base : Frame)

theorem agrees_resolveAll (hr : ∀ level name, Agrees objects (r level name) (r' level name))
    (level : Nat) (own : String) (names : List String) :
    Agrees objects (resolveAll r level own names) (resolveAll r' level own names) := by
  induction names with
  | nil => exact .settled (.ok ())
  | cons name names ih =>
      rw [resolveAll, resolveAll]
      refine .get_bind fun levels _ => ?_
      cases owner? (levels.map (·.object)) level own name with
      | none => exact ih
      | some i => exact (hr i name).bind fun _ => ih

theorem agrees_evaluateAt (hr : ∀ level name, Agrees objects (r level name) (r' level name))
    (level : Nat) (node : Node) :
    Agrees objects (evaluateAt host base r level node) (evaluateAt host base r' level node) := by
  refine (agrees_resolveAll hr level node.name node.locals).bind fun _ => ?_
  exact .get_bind fun levels _ => .lift _

end

/-! ## What is under evaluation -/

/-- What is under evaluation are distinct fields, apart from what the evaluation started with. -/
structure Nested (objects : List Object) (start : List Site) (active : List Site) : Prop where
  distinct : active.Nodup
  sites : ∀ site ∈ active, site ∈ start ∨ site ∈ ConfigLang.sites objects

theorem Nested.cons {start active : List Site} {site : Site} (h : Nested objects start active)
    (hactive : site ∉ active) (hsite : (nodeAt? objects site).isSome = true) :
    Nested objects start (site :: active) where
  distinct := List.nodup_cons.mpr ⟨hactive, h.distinct⟩
  sites := List.forall_mem_cons.mpr ⟨.inr (mem_sites hsite), h.sites⟩

/-- There are no more of them than fields with values and what the evaluation started with. -/
theorem Nested.length_le {start active : List Site} (h : Nested objects start active) :
    active.length ≤ (ConfigLang.sites objects).length + start.length := by
  have hsubset : active ⊆ start ++ ConfigLang.sites objects :=
    fun site hmem => List.mem_append.mpr (h.sites site hmem)
  have hle := (List.subperm_of_subset h.distinct hsubset).length_le
  rw [List.length_append] at hle
  omega

private theorem nodeAt?_of_slot {levels : List Level} {slot : Level} {level : Nat} {name : String}
    {node : Node} (hlevels : levels.map Level.object = objects) (hslot : levels[level]? = some slot)
    (hnode : slot.object.valueNode? name = some node) :
    nodeAt? objects (level, name) = some node := by
  rw [nodeAt?, ← hlevels, List.getElem?_map, hslot]
  exact hnode

/-- **The way out is never taken.** -/
theorem agrees_resolveOr (stuck : Resolution m Value) (host : Host m) (base : Frame)
    (start : List Site) (hstart : start.length ≤ 1) (left : Nat) (active : List Site)
    (hleft : ((sites objects).filter (· ∉ active)).length ≤ left)
    (hactive : Nested objects start active) (level : Nat) (name : String) :
    Agrees objects (resolveOr stuck host base left active level name)
      (resolve host base left active level name) := by
  induction left using Nat.strong_induction_on generalizing active level name with
  | _ left ih =>
      rw [resolveOr.eq_def, resolve.eq_def]
      refine .get_bind fun levels hlevels => ?_
      cases hslot : levels[level]? with
      | none => exact .settled (.error _)
      | some slot =>
          dsimp only
          cases slot.results.lookup name with
          | some result => exact .settled result
          | none =>
              by_cases hmem : (level, name) ∈ active
              · simp only [List.contains_iff_mem, if_pos hmem]
                exact .settled (.error _)
              simp only [List.contains_iff_mem, if_neg hmem]
              cases hnode : slot.object.valueNode? name with
              | none => exact .settled (.error _)
              | some node =>
                  have hsite : (nodeAt? objects (level, name)).isSome = true := by
                    rw [nodeAt?_of_slot hlevels hslot hnode]
                    rfl
                  -- one field fewer is left, so there was one
                  have hlt := length_inactive_lt hmem hsite
                  obtain ⟨left, rfl⟩ := Nat.exists_eq_add_one_of_ne_zero (by omega : left ≠ 0)
                  have hnested := hactive.cons hmem hsite
                  have hlength : ((level, name) :: active).length ≤ valueCount levels + 1 := by
                    rw [← length_sites, hlevels]
                    exact hnested.length_le.trans (Nat.add_le_add_left hstart _)
                  simp only [if_pos (And.intro hnested.distinct hlength)]
                  refine .bind (.attempt (agrees_evaluateAt host base ?_ level node)) fun r =>
                    (Agrees.record level name r).bind fun _ => .settled r
                  exact ih left (Nat.lt_succ_self left) _ (by omega) hnested

/-- A field is evaluated without the way out. -/
theorem fieldOr_eq (stuck : Resolution m Value) (host : Host m) (base : Frame) (name : String) :
    fieldOr stuck host base name = field host base name := by
  apply ExceptT.ext
  funext levels
  refine (Agrees.get_bind fun levels' hlevels => ?_ :
    Agrees (levels.map Level.object) (fieldOr stuck host base name) (field host base name)).eq
      levels rfl
  refine agrees_resolveOr stuck host base [] (Nat.zero_le 1) _ [] ?_ ⟨.nil, nofun⟩ _ name
  rw [← length_sites, hlevels]
  exact List.length_filter_le _ _

/-- A node is evaluated without the way out. -/
theorem evaluateOr_eq (stuck : Resolution m Value) (host : Host m) (base : Frame) (node : Node) :
    evaluateOr stuck host base node = evaluate host base node := by
  apply ExceptT.ext
  funext levels
  refine (Agrees.get_bind fun levels' hlevels => agrees_evaluateAt host base ?_ _ node :
    Agrees (levels.map Level.object) (evaluateOr stuck host base node) (evaluate host base node)).eq
      levels rfl
  refine agrees_resolveOr stuck host base [_] (Nat.le_refl 1) _ _ ?_
    ⟨List.nodup_singleton _, fun _ hmem => .inl hmem⟩
  rw [← length_sites, hlevels]
  exact List.length_filter_le _ _

end Resolution

/-! ## Queries and projections over a way to evaluate -/

namespace Projection

variable {m : Type → Type} [Monad m] (field : String → Resolution m Value)
  (evaluate : Node → Resolution m Value)

mutual

/-- Projects the innermost object, with a way to evaluate its fields and the items of its lists. -/
def ofObjectBy (path : List String) : Object → Projection m Json
  | ⟨_, _, fields, _, _, _, _⟩ => return .object (← ofFieldsBy path fields)

/-- Projects the fields of the innermost object. -/
def ofFieldsBy (path : List String) : Fields → Projection m (List (String × Json))
  | [] => return []
  | (key, node) :: fields => do
    let here := path ++ [key]
    let json ←
      if node.isValue then ofResolution here (field key)
      else ofNodeBy here node
    return (key, json) :: (← ofFieldsBy path fields)

/-- Projects a node in the innermost object. -/
def ofNodeBy (path : List String) : Node → Projection m Json
  | .option binding => ofResolution path (evaluate (.option binding))
  | .object o => inside o (ofObjectBy path o)
  | .list _ items => return .array (← ofItemsBy path 0 items)

/-- Projects the items of a list, which go on from a place in it. -/
def ofItemsBy (path : List String) (place : Nat) : List Node → Projection m (List Json)
  | [] => return []
  | item :: items => do
    let json ← ofNodeBy (path ++ [toString place]) item
    return json :: (← ofItemsBy path (place + 1) items)

end

variable (host : Host m) (base : Frame)

mutual

theorem ofObject_eq : ∀ (path : List String) (o : Object), ofObject host base path o =
    ofObjectBy (Resolution.field host base) (Resolution.evaluate host base) path o
  | path, ⟨_, _, fields, _, _, _, _⟩ => by rw [ofObject, ofObjectBy, ofFields_eq path fields]

theorem ofFields_eq : ∀ (path : List String) (fields : Fields), ofFields host base path fields =
    ofFieldsBy (Resolution.field host base) (Resolution.evaluate host base) path fields
  | path, [] => by rw [ofFields, ofFieldsBy]
  | path, (key, node) :: fields => by
    rw [ofFields, ofFieldsBy, ofFields_eq path fields, ofNode_eq (path ++ [key]) node]

theorem ofNode_eq : ∀ (path : List String) (node : Node), ofNode host base path node =
    ofNodeBy (Resolution.field host base) (Resolution.evaluate host base) path node
  | path, .option binding => by rw [ofNode, ofNodeBy]
  | path, .object o => by rw [ofNode, ofNodeBy, ofObject_eq path o]
  | path, .list _ items => by rw [ofNode, ofNodeBy, ofItems_eq path 0 items]

theorem ofItems_eq : ∀ (path : List String) (place : Nat) (items : List Node),
    ofItems host base path place items =
      ofItemsBy (Resolution.field host base) (Resolution.evaluate host base) path place items
  | path, place, [] => by rw [ofItems, ofItemsBy]
  | path, place, item :: items => by
    rw [ofItems, ofItemsBy, ofNode_eq (path ++ [toString place]) item,
      ofItems_eq path (place + 1) items]

end

end Projection

namespace Document

variable {m : Type → Type} [Monad m]

/-- The value of a query, with a way to evaluate a node. -/
def valueBy (d : Document) (evaluate : Node → Resolution m Value) (path : List String) :
    ExceptT QueryError m Value :=
  ExceptT.mk <|
    match d.locate path with
    | .error e => pure (.error e)
    | .ok ⟨chain, node⟩ =>
      if node.isValue then do
        let (result, _) ← (evaluate node).run.run (d.levels chain)
        return result.mapError (.eval path)
      else pure (.error (.notAnOption path))

/-- The document as a JSON value, with ways to evaluate its leaves. -/
def toJsonBy (d : Document) (field : String → Resolution m Value)
    (evaluate : Node → Resolution m Value) : ExceptT QueryError m Json :=
  ExceptT.mk do
    return (← (Projection.ofObjectBy field evaluate [] d.root).run.run (d.levels [d.root])).1

variable [LawfulMonad m]

/-- **Queries never take the way out.** -/
theorem valueBy_evaluateOr (d : Document) (host : Host m) (stuck : Resolution m Value)
    (path : List String) :
    d.valueBy (Resolution.evaluateOr stuck host d.base) path = d.value host path := by
  have hevaluate := funext (Resolution.evaluateOr_eq stuck host d.base)
  rw [hevaluate]
  rfl

/-- **Projections never take the way out.** -/
theorem toJsonBy_or (d : Document) (host : Host m) (stuck : Resolution m Value) :
    d.toJsonBy (Resolution.fieldOr stuck host d.base) (Resolution.evaluateOr stuck host d.base) =
      d.toJson host := by
  have hfield := funext (Resolution.fieldOr_eq stuck host d.base)
  have hevaluate := funext (Resolution.evaluateOr_eq stuck host d.base)
  rw [hfield, hevaluate, toJsonBy, toJson, Projection.ofObject_eq]

end Document

end ConfigLang
