import Mathlib
import ConfigLang.Proofs.Document.Alike
import ConfigLang.Proofs.Document.Paths

/-!
# Parts of documents

A part of a document is found at a path, and whatever is found in the part is found in
the document behind that path (`Document.Part.locate_append`).  The objects around a part
are pruned, but their values are all there, so that the levels of a query are alike
(`Level.alike_bindingsOnly`).  What a query of the part gives is therefore what the
document gives, but for the path that an error names.

## Strategy

* **Paths.**  A path goes on from an object in the same way however that was found
  (`locateFrom_below`), so a path that leads to an object may be taken apart there
  (`locateFrom_append`).  Errors name the path from the document on (`QueryError.below`).
* **Levels.**  The chain of a part is that of the document with pruned objects at its
  start (`Part.levelsAlike`), which is where `together_evaluate` applies.
* **Values.**  A query fails where nothing is found, or what is found has no value, and
  evaluates the node otherwise: `value_of_error`, `value_of_not_isValue` and
  `value_of_isValue` are the three cases of `Part.value_eq`.
-/

namespace ConfigLang

open Running

/-- An error as it is seen from outside: the paths go on from `path`. -/
def QueryError.below (path : List String) : QueryError → QueryError
  | emptyPath => emptyPath
  | objectNotFound inner => objectNotFound (path ++ inner)
  | optionNotFound inner => optionNotFound (path ++ inner)
  | notAnObject inner => notAnObject (path ++ inner)
  | notAnOption inner => notAnOption (path ++ inner)
  | wrongKind inner expected found => wrongKind (path ++ inner) expected found
  | eval inner error => eval (path ++ inner) error

/-- A place as it is seen from outside. -/
def Place.within (objects : List Object) (place : Place) : Place :=
  ⟨objects ++ place.chain, place.node⟩

namespace Document

/-! ## Paths that go on -/

theorem missing_below (path here rest : List String) :
    missing (path ++ here) rest = (missing here rest).below path := by
  unfold missing
  split <;> rfl

/-- Where a path leads does not depend on how its start was found. -/
theorem locateFrom_below (objects : List Object) (path : List String) (chain : List Object)
    (walked : List String) (o : Object) (q : List String) :
    locateFrom (objects ++ chain) (path ++ walked) o q =
      ((locateFrom chain walked o q).map (Place.within objects)).mapError (.below path) := by
  have hwalked : ∀ walked keys : List String, path ++ walked ++ keys = path ++ (walked ++ keys) :=
    fun walked keys => List.append_assoc path walked keys
  fun_induction locateFrom chain walked o q with
  | case1 => rfl
  | case2 chain walked o key hget =>
      rw [locateFrom, hget, hwalked]
      exact congrArg Except.error (missing_below path _ _)
  | case3 chain walked o key node hget =>
      rw [locateFrom, hget]
      rfl
  | case4 chain walked o key next rest here hget =>
      rw [locateFrom, hget, hwalked]
      exact congrArg Except.error (missing_below path _ _)
  | case5 chain walked o key next rest here inner hget ih =>
      rw [locateFrom_object hget (List.cons_ne_nil _ _), hwalked, List.append_assoc, ih]
  | case6 =>
      rename_i hget
      rw [locateFrom, hget, hwalked]
      rfl
  | case7 =>
      rename_i hget _ rest hselect
      rw [locateFrom, hget, hwalked]
      dsimp only
      rw [hselect, hwalked]
      exact congrArg Except.error (missing_below path _ rest)
  | case8 chain walked o key next name items hget item hselect =>
      rw [locateFrom_item hget hselect]
      rfl
  | case9 chain walked o key next here name items hget here' inner rest hrest hselect ih =>
      rw [locateFrom_item_object hget hselect hrest, hwalked, hwalked, List.append_assoc, ih]
  | case10 =>
      rename_i hget _ item hother hselect hrest
      rw [locateFrom, hget, hwalked]
      dsimp only
      rw [hselect, hwalked]
      split
      · contradiction
      · exact absurd rfl hrest
      · rename_i heq _
        exact (hother _ (Option.some.inj heq)).elim
      · rfl

/-- A path that leads to an object may go on from there. -/
theorem locateFrom_append {chain chain' : List Object} {walked p rest : List String}
    {o o' : Object} (h : locateFrom chain walked o p = .ok ⟨chain', .object o'⟩)
    (hrest : rest ≠ []) :
    locateFrom chain walked o (p ++ rest) = locateFrom (chain' ++ [o']) (walked ++ p) o' rest := by
  fun_induction locateFrom chain walked o p with
  | case1 => cases h
  | case2 => cases h
  | case3 chain walked o key node hget =>
      cases h
      exact locateFrom_object hget hrest
  | case4 => cases h
  | case5 chain walked o key next more here inner hget ih =>
      rw [List.cons_append, locateFrom_object hget (by simp), ih h, List.append_assoc]
      rfl
  | case6 => cases h
  | case7 => cases h
  | case8 chain walked o key next name items hget item hselect =>
      cases h
      rw [List.cons_append, List.singleton_append, locateFrom_item_object hget hselect hrest,
        List.append_assoc]
      rfl
  | case9 chain walked o key next here name items hget here' inner more hmore hselect ih =>
      rw [List.cons_append, List.cons_append, locateFrom_item_object hget hselect
        (List.append_ne_nil_of_right_ne_nil more hrest), ih h, List.append_assoc, List.append_assoc]
      rfl
  | case10 => cases h

/-- A document is found at a path of another one, in a chain of objects. -/
structure Part (d : Document) (p : List String) (chain : List Object) (s : Document) : Prop where
  locate : d.locate p = .ok ⟨chain, .object s.root⟩
  base : s.base = d.base
  ancestors : s.ancestors = d.ancestors ++ chain.map Object.bindingsOnly

section

variable {d s : Document} {p q : List String} {chain : List Object}

theorem exists_part (h : d.document p = .ok s) : ∃ chain, d.Part p chain s := by
  unfold document at h
  split at h
  · cases h
  · rename_i chain root hlocate
    cases h
    exact ⟨chain, hlocate, rfl, rfl⟩
  · cases h

/-- What is found in a part is found in the document, behind the path of the part. -/
theorem Part.locate_append (h : d.Part p chain s) (hq : q ≠ []) :
    d.locate (p ++ q) = ((s.locate q).map (Place.within chain)).mapError (.below p) := by
  have happend := locateFrom_append h.locate hq
  have hbelow := locateFrom_below chain p [s.root] [] s.root q
  rw [List.append_nil] at hbelow
  rw [List.nil_append] at happend
  exact happend.trans hbelow

theorem Part.node_eq (h : d.Part p chain s) (hq : q ≠ []) :
    d.node (p ++ q) = (s.node q).mapError (.below p) := by
  unfold node
  rw [h.locate_append hq]
  cases s.locate q <;> rfl

theorem Part.expr_eq (h : d.Part p chain s) (hq : q ≠ []) :
    d.expr (p ++ q) = (s.expr q).mapError (.below p) := by
  unfold expr
  rw [h.node_eq hq]
  cases s.node q with
  | error e => rfl
  | ok node => cases node <;> rfl

/-- A part of a part is the same document as when it is taken at once. -/
theorem Part.document_eq (h : d.Part p chain s) (hq : q ≠ []) :
    d.document (p ++ q) = (s.document q).mapError (.below p) := by
  unfold document
  rw [h.locate_append hq]
  cases s.locate q with
  | error e => rfl
  | ok place =>
      obtain ⟨inner, node⟩ := place
      cases node with
      | option binding => rfl
      | list name items => rfl
      | object root =>
          refine congrArg Except.ok ?_
          change (⟨root, d.base, d.ancestors ++ (chain ++ inner).map Object.bindingsOnly⟩ :
            Document) = ⟨root, s.base, s.ancestors ++ inner.map Object.bindingsOnly⟩
          rw [h.base, h.ancestors, List.map_append, List.append_assoc]

end

end Document

/-! ## Pruned objects -/

/-- An object that is left with nothing but its values has the same values. -/
theorem Level.alike_bindingsOnly {o : Object} (h : (Keyed.keys o.fields).Nodup) :
    (Level.ofObject o).Alike (Level.ofObject o.bindingsOnly) := by
  refine ⟨rfl, fun name => ?_, ?_⟩
  · have hget : o.bindingsOnly.get? name = o.valueNode? name := Keyed.get?_filter Node.isValue h
    change (o.bindingsOnly.get? name).filter Node.isValue = o.valueNode? name
    rw [hget, Object.valueNode?, Option.filter_filter]
    simp only [Bool.and_self]
  · change (o.fields.filter _).countP _ = o.fields.countP _
    rw [List.countP_filter]
    simp only [Bool.and_self]

theorem levelsAlike_bindingsOnly {chain : List Object} (h : ∀ o ∈ chain, o.Tidy) :
    LevelsAlike (chain.map Level.ofObject)
      ((chain.map Object.bindingsOnly).map Level.ofObject) := by
  rw [List.map_map]
  refine List.forall₂_map_left_iff.mpr (List.forall₂_map_right_iff.mpr ?_)
  exact List.forall₂_same.mpr fun o ho => Level.alike_bindingsOnly (h o ho).fields.distinct

/-! ## Queries of parts -/

namespace Document

variable {m : Type → Type} [Monad m] [LawfulMonad m] {host : Host m} {d s : Document}
  {p q : List String} {chain : List Object}

/-- The levels of a query of a part are like those of the query of the document. -/
theorem Part.levelsAlike (h : d.Part p chain s) (hd : d.root.Tidy) (inner : List Object) :
    LevelsAlike (d.levels (chain ++ inner)) (s.levels inner) := by
  have hstands := stands_locateFrom (List.forall_mem_singleton.mpr hd) rfl h.locate
  unfold levels
  rw [h.ancestors, List.append_assoc, List.map_append, List.map_append, List.map_append,
    List.map_append]
  refine List.rel_append (LevelsAlike.refl _) (List.rel_append ?_ (LevelsAlike.refl _))
  exact levelsAlike_bindingsOnly hstands.tidy

omit [LawfulMonad m] in
theorem value_of_error {path : List String} {e : QueryError} (h : d.locate path = .error e) :
    d.value host path = throw e := by
  unfold value
  rw [h]
  rfl

omit [LawfulMonad m] in
theorem value_of_not_isValue {path : List String} {node : Node}
    (h : d.locate path = .ok ⟨chain, node⟩) (hvalue : node.isValue = false) :
    d.value host path = throw (.notAnOption path) := by
  unfold value
  rw [h]
  simp only [hvalue, Bool.false_eq_true, if_false]
  rfl

theorem value_of_isValue {path : List String} {node : Node}
    (h : d.locate path = .ok ⟨chain, node⟩) (hvalue : node.isValue = true) :
    (d.value host path).run = (fun r => r.mapError (.eval path)) <$>
      Prod.fst <$> (Resolution.evaluate host d.base node).run.run (d.levels chain) := by
  unfold value
  rw [h]
  simp only [hvalue, if_true]
  rw [Functor.map_map, map_eq_pure_bind]
  rfl

/-- **A part gives the values that the document gives**, and fails where it fails. -/
theorem Part.value_eq (h : d.Part p chain s) (hd : d.root.Tidy) (hq : q ≠ []) :
    d.value host (p ++ q) = (s.value host q).adapt (.below p) := by
  have hlocate := h.locate_append hq
  cases hs : s.locate q with
  | error e =>
      rw [hs] at hlocate
      rw [value_of_error hs, value_of_error hlocate, adapt_throw]
  | ok place =>
      obtain ⟨inner, node⟩ := place
      rw [hs] at hlocate
      cases hvalue : node.isValue with
      | false =>
          rw [value_of_not_isValue hs hvalue, value_of_not_isValue hlocate hvalue, adapt_throw]
          rfl
      | true =>
          have htogether := (Resolution.together_evaluate host d.base node
            (h.levelsAlike hd inner)).map_fst
          apply ExceptT.ext
          change _ = Except.mapError (QueryError.below p) <$> (s.value host q).run
          rw [value_of_isValue hs hvalue, value_of_isValue hlocate hvalue, h.base, htogether]
          simp only [Functor.map_map]
          congr 1
          funext out
          cases out.1 <;> rfl

section

variable (h : d.Part p chain s) (hd : d.root.Tidy) (hq : q ≠ [])
include h hd hq

theorem Part.int_eq : d.int host (p ++ q) = (s.int host q).adapt (.below p) := by
  unfold int
  rw [h.value_eq hd hq, adapt_bind]
  refine congrArg (_ >>= ·) (funext fun v => ?_)
  cases v <;> simp only [adapt_pure, adapt_throw, QueryError.below]

theorem Part.double_eq : d.double host (p ++ q) = (s.double host q).adapt (.below p) := by
  unfold double
  rw [h.value_eq hd hq, adapt_bind]
  refine congrArg (_ >>= ·) (funext fun v => ?_)
  cases v.toFloat? <;> simp only [adapt_pure, adapt_throw, QueryError.below]

theorem Part.bool_eq : d.bool host (p ++ q) = (s.bool host q).adapt (.below p) := by
  unfold bool
  rw [h.value_eq hd hq, adapt_bind]
  refine congrArg (_ >>= ·) (funext fun v => ?_)
  cases v <;> simp only [adapt_pure, adapt_throw, QueryError.below]

theorem Part.text_eq : d.text host (p ++ q) = (s.text host q).adapt (.below p) := by
  unfold text
  rw [h.value_eq hd hq, adapt_bind]
  refine congrArg (_ >>= ·) (funext fun v => ?_)
  cases v <;> simp only [adapt_pure, adapt_throw, QueryError.below]

theorem Part.moment_eq : d.moment host (p ++ q) = (s.moment host q).adapt (.below p) := by
  unfold moment
  rw [h.value_eq hd hq, adapt_bind]
  refine congrArg (_ >>= ·) (funext fun v => ?_)
  cases v <;> simp only [adapt_pure, adapt_throw, QueryError.below]

end

end Document

end ConfigLang
