import Mathlib
import ConfigLang.Proofs.Document.Part
import ConfigLang.Proofs.Document.Projection
import ConfigLang.Proofs.Tree.Rearranged

/-!
# Documents in another order

The order in which fields are declared changes no result.  A path leads to the same
place in a tree and in a rearranged one (`locateFrom_rearranged`), and the levels of a
query are alike, so that every query gives the same (`Document.Rearranged.value_eq`).

The projection of a document follows the order of its fields: it may keep other results
first, and fail at another field first.  But it is put together of what the leaves are
worth, which is the same in both documents, so it fails in both or in none, and its
members come in another order (`paired_assemble`).

## Strategy

* **Pairs of results.**  `Paired` relates two results that are both values or both errors.
  It says nothing of which error comes first, and is kept by sequences (`Paired.bind`).
* **JSON.**  `Json.Reordered` allows the members of objects to change places at any depth.
  `paired_assemble` and its companions follow the tree; where fields change places,
  `paired_assembleFields_of_perm` goes by the swaps that make up a permutation.
* **Queries.**  They search the levels by name, so all that they find is alike
  (`Object.Rearranged.alike`), and the typed queries follow from the value.
-/

namespace ConfigLang

open Running

/-! ## Pairs of results -/

/-- Two results of which both are values, or both are errors, and which are related. -/
inductive Paired {ε α β : Type} (E : ε → ε → Prop) (R : α → β → Prop) :
    Except ε α → Except ε β → Prop
  | ok {a : α} {b : β} (h : R a b) : Paired E R (.ok a) (.ok b)
  | error {e e' : ε} (h : E e e') : Paired E R (.error e) (.error e')

namespace Paired

variable {ε α β γ δ : Type} {E : ε → ε → Prop} {R : α → β → Prop} {x : Except ε α}
  {x' : Except ε β}

theorem bind {S : γ → δ → Prop} {f : α → Except ε γ} {f' : β → Except ε δ}
    (h : Paired E R x x') (hf : ∀ a b, R a b → Paired E S (f a) (f' b)) :
    Paired E S (x >>= f) (x' >>= f') := by
  cases h with
  | ok h => exact hf _ _ h
  | error h => exact .error h

theorem map {S : γ → δ → Prop} {f : α → γ} {f' : β → δ} (h : Paired E R x x')
    (hf : ∀ a b, R a b → S (f a) (f' b)) : Paired E S (x.map f) (x'.map f') := by
  cases h with
  | ok h => exact .ok (hf _ _ h)
  | error h => exact .error h

theorem trans {S : β → γ → Prop} {T : α → γ → Prop} {x'' : Except ε γ} (h : Paired E R x x')
    (h' : Paired E S x' x'') (hE : ∀ e e' e'', E e e' → E e' e'' → E e e'')
    (hT : ∀ a b c, R a b → S b c → T a c) : Paired E T x x'' := by
  cases h with
  | ok h =>
      cases h' with
      | ok h' => exact .ok (hT _ _ _ h h')
  | error h =>
      cases h' with
      | error h' => exact .error (hE _ _ _ h h')

theorem same {R : α → α → Prop} (hE : ∀ e, E e e) (hR : ∀ a, R a a) (x : Except ε α) :
    Paired E R x x := by
  cases x with
  | ok a => exact .ok (hR a)
  | error e => exact .error (hE e)

theorem ok_iff (h : Paired E R x x') : (∃ a, x = .ok a) ↔ ∃ b, x' = .ok b := by
  cases h with
  | @ok a b h => exact ⟨fun _ => ⟨b, rfl⟩, fun _ => ⟨a, rfl⟩⟩
  | error h => exact ⟨nofun, nofun⟩

theorem of_ok {a : α} {b : β} (h : Paired E R x x') (hx : x = .ok a) (hx' : x' = .ok b) :
    R a b := by
  cases h with
  | ok h =>
      cases hx
      cases hx'
      exact h
  | error h => cases hx

end Paired

/-! ## Rearranged JSON values -/

mutual

/-- The members of a JSON object, or of objects in a JSON value, stand in another order. -/
inductive Json.Reordered : Json → Json → Prop
  | refl (json : Json) : Json.Reordered json json
  | array {items items' : List Json} (h : ElementsReordered items items') :
      Json.Reordered (.array items) (.array items')
  | object {members middle members' : List (String × Json)}
      (inner : MembersReordered members middle) (perm : middle.Perm members') :
      Json.Reordered (.object members) (.object members')

/-- Members in their places, reordered within. -/
inductive MembersReordered : List (String × Json) → List (String × Json) → Prop
  | nil : MembersReordered [] []
  | cons (key : String) {json json' : Json} {members members' : List (String × Json)}
      (head : json.Reordered json') (tail : MembersReordered members members') :
      MembersReordered ((key, json) :: members) ((key, json') :: members')

/-- Items of an array in their places, reordered within. -/
inductive ElementsReordered : List Json → List Json → Prop
  | nil : ElementsReordered [] []
  | cons {json json' : Json} {items items' : List Json} (head : json.Reordered json')
      (tail : ElementsReordered items items') : ElementsReordered (json :: items) (json' :: items')

end

/-- Two results that are paired, whatever their errors are. -/
abbrev PairedJson {α : Type} (R : α → α → Prop) (x x' : Except QueryError α) : Prop :=
  Paired (fun _ _ => True) R x x'

section

variable {worth : List String → Except QueryError Value} {path : List String}

/-- Fields that change places give members that change places. -/
theorem paired_assembleFields_of_perm {fields fields' : Fields} (h : fields.Perm fields') :
    PairedJson List.Perm (assembleFields worth path fields)
      (assembleFields worth path fields') := by
  induction h with
  | nil => exact .same (fun _ => trivial) List.Perm.refl _
  | cons field _ ih =>
      obtain ⟨key, node⟩ := field
      rw [assembleFields, assembleFields]
      refine (Paired.same (R := Eq) (fun _ => trivial) (fun _ => rfl) _).bind fun json _ hjson => ?_
      subst hjson
      exact ih.bind fun members members' hperm => .ok (hperm.cons (key, json))
  | swap field other fields =>
      obtain ⟨key, node⟩ := field
      obtain ⟨key', node'⟩ := other
      simp only [assembleFields]
      -- where one of them fails, both orders fail, if with another error
      cases node.assemble worth (path ++ [key]) <;> cases node'.assemble worth (path ++ [key']) <;>
        cases assembleFields worth path fields
      case ok.ok.ok => exact .ok (.swap _ _ _)
      all_goals exact .error trivial
  | trans _ _ ih ih' => exact ih.trans ih' (fun _ _ _ _ _ => trivial) fun _ _ _ => .trans

mutual

theorem paired_assembleObject : ∀ {o o' : Object} {path : List String}, o.Rearranged o' →
    PairedJson Json.Reordered (o.assemble worth path) (o'.assemble worth path)
  | ⟨_, _, _, _, _, _, _⟩, _, path, .intro inner perm => by
    rw [Object.assemble, Object.assemble]
    have hmembers : PairedJson (fun members members' => Json.Reordered (.object members)
        (.object members')) (assembleFields worth path _) (assembleFields worth path _) :=
      (paired_assembleFields inner).trans (paired_assembleFields_of_perm perm)
        (fun _ _ _ _ _ => trivial) fun _ _ _ => .object
    exact hmembers.map fun _ _ h => h

theorem paired_assembleFields : ∀ {fields fields' : Fields} {path : List String},
    FieldsRearranged fields fields' →
      PairedJson MembersReordered (assembleFields worth path fields)
        (assembleFields worth path fields')
  | _, _, path, .nil => by
    rw [assembleFields]
    exact .ok .nil
  | _, _, path, .cons key hnode h => by
    rw [assembleFields, assembleFields]
    refine (paired_assemble hnode).bind fun json json' hjson => ?_
    exact (paired_assembleFields h).bind fun _ _ hmembers => .ok (.cons key hjson hmembers)

/-- **What is assembled of a rearranged tree is reordered**, or cannot be assembled in either. -/
theorem paired_assemble : ∀ {node node' : Node} {path : List String}, node.Rearranged node' →
    PairedJson Json.Reordered (node.assemble worth path) (node'.assemble worth path)
  | _, _, path, .option _ => .same (fun _ => trivial) .refl _
  | _, _, path, .object h => by
    rw [Node.assemble, Node.assemble]
    exact paired_assembleObject h
  | _, _, path, .list _ h => by
    rw [Node.assemble, Node.assemble, h.all_isOption_eq]
    split
    · exact .same (fun _ => trivial) .refl _
    · exact (paired_assembleItems h).map fun _ _ => .array

theorem paired_assembleItems : ∀ {items items' : List Node} {path : List String} {place : Nat},
    ItemsRearranged items items' →
      PairedJson ElementsReordered (assembleItems worth path place items)
        (assembleItems worth path place items')
  | _, _, path, place, .nil => by
    rw [assembleItems]
    exact .ok .nil
  | _, _, path, place, .cons hitem h => by
    rw [assembleItems, assembleItems]
    refine (paired_assemble hitem).bind fun json json' hjson => ?_
    exact (paired_assembleItems h).bind fun _ _ hinner => .ok (.cons hjson hinner)

end

end

/-! ## Where a path leads -/

/-- Two places, one in a tree and one in a rearranged tree. -/
structure Place.Rearranged (place place' : Place) : Prop where
  chain : List.Forall₂ Object.Rearranged place.chain place'.chain
  node : place.node.Rearranged place'.node

namespace Document

/-- **A path leads to the same place in a rearranged tree.** -/
theorem locateFrom_rearranged {o o' : Object} (h : o.Rearranged o') (ho : o.Tidy) :
    ∀ {path walked : List String} {chain chain' : List Object},
      List.Forall₂ Object.Rearranged chain chain' →
        Paired Eq Place.Rearranged (locateFrom chain walked o path)
          (locateFrom chain' walked o' path)
  | [], _, _, _, _ => .error rfl
  | [key], _, _, _, hchain => by
    have hget := h.get? ho key
    rw [locateFrom, locateFrom]
    generalize o.get? key = x, o'.get? key = x' at hget ⊢
    cases hget with
    | none => exact .error rfl
    | some hnode => exact .ok ⟨hchain, hnode⟩
  | key :: next :: rest, walked, chain, chain', hchain => by
    have hget := h.get? ho key
    have htidy : ∀ node, o.get? key = some node → node.Tidy :=
      fun node hnode => (ho.fields.of_get? hnode).1
    rw [locateFrom, locateFrom]
    generalize o.get? key = x, o'.get? key = x' at hget htidy ⊢
    cases hget with
    | none => exact .error rfl
    | some hnode =>
        replace htidy := htidy _ rfl
        cases hnode with
        | option binding => exact .error rfl
        | object hinner =>
            exact locateFrom_rearranged hinner htidy.of_object
              (List.rel_append hchain (.cons hinner .nil))
        | @list name items items' hitems =>
            have hselect := hitems.selectItem? next
            have hitem : ∀ item, selectItem? items next = some item → item.Tidy :=
              fun item hitem => (htidy.items item (mem_of_selectItem? hitem)).tidy
            dsimp only
            generalize selectItem? items next = y, selectItem? items' next = y' at hselect hitem ⊢
            cases hselect with
            | none => exact .error rfl
            | some hnode =>
                replace hitem := hitem _ rfl
                cases rest with
                | nil => exact .ok ⟨hchain, hnode⟩
                | cons after rest =>
                    cases hnode with
                    | option binding => exact .error rfl
                    | list name h => exact .error rfl
                    | object hinner =>
                        exact locateFrom_rearranged hinner hitem.of_object
                          (List.rel_append hchain (.cons hinner .nil))

/-! ## Queries -/

/-- Two documents, one a rearrangement of the other. -/
structure Rearranged (d d' : Document) : Prop where
  root : d.root.Rearranged d'.root
  base : d'.base = d.base
  ancestors : d'.ancestors = d.ancestors

end Document

/-- The values of an object are the same in any order. -/
theorem Object.Rearranged.alike {o o' : Object} (h : o.Rearranged o') (ho : o.Tidy) :
    (Level.ofObject o).Alike (Level.ofObject o') := by
  refine ⟨rfl, fun name => ?_, ?_⟩
  · exact h.filter_isValue ho name
  · cases h with
    | intro inner perm => exact (perm.countP_eq _).symm.trans inner.countP_isValue

theorem levelsAlike_rearranged {chain chain' : List Object}
    (h : List.Forall₂ Object.Rearranged chain chain') (htidy : ∀ o ∈ chain, o.Tidy) :
    LevelsAlike (chain.map Level.ofObject) (chain'.map Level.ofObject) := by
  refine List.forall₂_map_left_iff.mpr (List.forall₂_map_right_iff.mpr ?_)
  induction h with
  | nil => exact .nil
  | cons ho _ ih =>
      obtain ⟨htidy, hrest⟩ := List.forall_mem_cons.mp htidy
      exact .cons (ho.alike htidy) (ih hrest)

namespace Document.Rearranged

variable {m : Type → Type} [Monad m] [LawfulMonad m] {host : Host m} {d d' : Document}
  {path : List String}

theorem locate (h : d.Rearranged d') (hd : d.root.Tidy) (path : List String) :
    Paired Eq Place.Rearranged (d.locate path) (d'.locate path) :=
  locateFrom_rearranged h.root hd (.cons h.root .nil)

theorem levelsAlike (h : d.Rearranged d') {chain chain' : List Object}
    (hchain : List.Forall₂ Object.Rearranged chain chain') (htidy : ∀ o ∈ chain, o.Tidy) :
    LevelsAlike (d.levels chain) (d'.levels chain') := by
  unfold levels
  rw [h.ancestors, List.map_append, List.map_append]
  exact List.rel_append (LevelsAlike.refl _) (levelsAlike_rearranged hchain htidy)

/-- **A query gives the same in any order**, and fails with the same error. -/
theorem value_eq (h : d.Rearranged d') (hd : d.root.Tidy) :
    d'.value host path = d.value host path := by
  have hlocate := h.locate hd path
  generalize hx : d.locate path = x, hx' : d'.locate path = x' at hlocate
  cases hlocate with
  | error he => rw [value_of_error hx, value_of_error hx', he]
  | @ok place place' hplace =>
      obtain ⟨chain, node⟩ := place
      obtain ⟨chain', node'⟩ := place'
      obtain ⟨hchain, hnode⟩ := hplace
      cases hvalue : node.isValue with
      | false =>
          rw [value_of_not_isValue hx hvalue,
            value_of_not_isValue hx' (hnode.isValue_eq.trans hvalue)]
      | true =>
          -- a value has nothing in it to rearrange, and the levels around it are alike
          obtain rfl : node' = node := hnode.eq_of_isValue hvalue
          have hstands := stands_locateFrom (List.forall_mem_singleton.mpr hd) rfl hx
          have htogether := (Resolution.together_evaluate host d.base node'
            (h.levelsAlike hchain hstands.tidy)).map_fst
          apply ExceptT.ext
          rw [value_of_isValue hx hvalue, value_of_isValue hx' hvalue, h.base, htogether,
            funext Together.mapError_id, id_map']

section

variable (h : d.Rearranged d') (hd : d.root.Tidy)
include h hd

theorem int_eq : d'.int host path = d.int host path := by
  unfold int
  rw [h.value_eq hd]

theorem double_eq : d'.double host path = d.double host path := by
  unfold double
  rw [h.value_eq hd]

theorem bool_eq : d'.bool host path = d.bool host path := by
  unfold bool
  rw [h.value_eq hd]

theorem text_eq : d'.text host path = d.text host path := by
  unfold text
  rw [h.value_eq hd]

theorem moment_eq : d'.moment host path = d.moment host path := by
  unfold moment
  rw [h.value_eq hd]

end

/-! ## Projections -/

theorem tidy (h : d.Rearranged d') (hd : d.Tidy) : d'.Tidy :=
  ⟨h.root.tidy hd.root, h.ancestors.trans hd.whole⟩

/-- **The projections have the same members, or both fail.** -/
theorem toJson (host : Host Id) (h : d.Rearranged d') (hd : d.Tidy) :
    PairedJson Json.Reordered (Id.run (d.toJson host).run) (Id.run (d'.toJson host).run) := by
  have hqueried : Projection.queried host d' = Projection.queried host d := by
    funext path
    rw [Projection.queried, h.value_eq hd.root, Projection.queried]
  rw [toJson_eq_assemble host hd, toJson_eq_assemble host (h.tidy hd), hqueried]
  exact paired_assembleObject h.root

end Document.Rearranged

namespace Document

/-- Two documents give the same answers, but for the order of the members of JSON objects. -/
structure AnswersAgree (d d' : Document) : Prop where
  value : ∀ {m : Type → Type} [Monad m] [LawfulMonad m] (host : Host m) path,
    d'.value host path = d.value host path
  int : ∀ {m : Type → Type} [Monad m] [LawfulMonad m] (host : Host m) path,
    d'.int host path = d.int host path
  double : ∀ {m : Type → Type} [Monad m] [LawfulMonad m] (host : Host m) path,
    d'.double host path = d.double host path
  bool : ∀ {m : Type → Type} [Monad m] [LawfulMonad m] (host : Host m) path,
    d'.bool host path = d.bool host path
  text : ∀ {m : Type → Type} [Monad m] [LawfulMonad m] (host : Host m) path,
    d'.text host path = d.text host path
  moment : ∀ {m : Type → Type} [Monad m] [LawfulMonad m] (host : Host m) path,
    d'.moment host path = d.moment host path
  /-- There is a JSON value of the one if and only if there is one of the other. -/
  json_ok_iff : ∀ host : Host Id, (∃ json, Id.run (d.toJson host).run = .ok json) ↔
    ∃ json, Id.run (d'.toJson host).run = .ok json
  json : ∀ (host : Host Id) json json', Id.run (d.toJson host).run = .ok json →
    Id.run (d'.toJson host).run = .ok json' → json.Reordered json'

/-- **The order of declarations changes no result**, whatever the base variables are. Trees that
are expanded are tidy. -/
theorem rearranged_agrees {T T' : Object} (hT : T.Tidy) (h : T.Rearranged T') (base : Frame) :
    AnswersAgree ⟨T, base, []⟩ ⟨T', base, []⟩ := by
  have hd : (⟨T, base, []⟩ : Document).Tidy := ⟨hT, rfl⟩
  have hdocuments : (⟨T, base, []⟩ : Document).Rearranged ⟨T', base, []⟩ := ⟨h, rfl, rfl⟩
  constructor
  case value => exact fun host path => hdocuments.value_eq hT
  case int => exact fun host path => hdocuments.int_eq hT
  case double => exact fun host path => hdocuments.double_eq hT
  case bool => exact fun host path => hdocuments.bool_eq hT
  case text => exact fun host path => hdocuments.text_eq hT
  case moment => exact fun host path => hdocuments.moment_eq hT
  case json_ok_iff => exact fun host => (hdocuments.toJson host hd).ok_iff
  case json => exact fun host json json' => (hdocuments.toJson host hd).of_ok

/-- References and a list of blocks, read from the end to the start. -/
theorem rearranged_agrees_of_reverse :
    ∃ d : Document, d.Built ∧ Keyed.keys d.root.fields = ["a", "b", "svc"] ∧ d.root.Tidy ∧
      d.root.Rearranged { d.root with fields := d.root.fields.reverse } ∧
      AnswersAgree ⟨d.root, d.base, []⟩
        ⟨{ d.root with fields := d.root.fields.reverse }, d.base, []⟩ := by
  let setting : Setting (StateM Unit) :=
    ⟨(FileTree.mk [] []).host, (FileTree.mk [] []).source, .empty, none⟩
  have hfound : ((ofText setting
      "a = $b\nb = 1\nsvc db { port = 1 }\nsvc web { port = $a }\n").run.run ()).1.toOption.any
        (fun d => Keyed.keys d.root.fields == ["a", "b", "svc"]) = true := by decide +kernel
  obtain ⟨d, _, hbuilt, hkeys⟩ := exists_of_any_run hfound
  have hd : d.Built := .ofText setting _ hbuilt
  have hreverse : d.root.Rearranged { d.root with fields := d.root.fields.reverse } :=
    .of_perm (List.reverse_perm _).symm
  exact ⟨d, hd, eq_of_beq hkeys, hd.tidy.root, hreverse,
    rearranged_agrees hd.tidy.root hreverse d.base⟩

end Document

end ConfigLang
