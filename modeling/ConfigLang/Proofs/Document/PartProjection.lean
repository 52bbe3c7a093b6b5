import Mathlib
import ConfigLang.Proofs.Document.Part
import ConfigLang.Proofs.Document.Projection

/-!
# The JSON value of a part

A part of a document is projected as it is in the projection of the whole document, so
its JSON value is the one that is found there.  Where the path of the part chooses the
items of lists by their labels, the place of the item has to be known, since a JSON
array has no labels (`Object.plainPath`).

## Strategy

* **Plain paths.**  A path with places for labels leads to the same object
  (`locateFrom_plainPath`).
* **Going into what is assembled.**  The projection of a document puts together what its
  leaves are worth, so what is assembled of an object is found in what is assembled around
  it (`assemble_at`), step by step along the path (`Object.assemble_child`,
  `Node.assemble_child`).
* **Projecting from outside.**  The document evaluates the leaves of the part behind the
  path of the part, the part on its own behind no path.  `together_ofObject` and its
  companions run the two next to each other: they give the same but for the path that
  their errors start with.
* **Parts in a whole document.**  From this comes `Part.json_at`, and `PartAgrees` joins it
  to what the queries answer.  A part of a part is a part (`Part.trans`), so the theorem
  holds of all documents that are `Obtained` from one that is built.
-/

namespace ConfigLang

open Running

/-! ## Plain paths -/

/-- The place of the item of a list that a key selects. -/
def placeOfKey? (items : List Node) (key : String) : Option Nat :=
  (items.findIdx? (Node.hasLabel key)).or (placeOfText? key)

/-- A path with the places of items for their labels. -/
def Object.plainPath : Object → List String → List String
  | o, key :: next :: rest =>
    match o.get? key with
    | some (.object inner) => key :: inner.plainPath (next :: rest)
    | some (.list _ items) =>
      match placeOfKey? items next with
      | none => key :: next :: rest
      | some place =>
        match items[place]? with
        | some (.object inner) => key :: toString place :: inner.plainPath rest
        | _ => key :: toString place :: rest
    | _ => key :: next :: rest
  | _, path => path

theorem exists_placeOfKey? {items : List Node} {key : String} {item : Node}
    (h : selectItem? items key = some item) :
    ∃ place, placeOfKey? items key = some place ∧ items[place]? = some item := by
  unfold selectItem? at h
  unfold placeOfKey?
  rw [List.find?_eq_bind_findIdx?_getElem?] at h
  cases hfind : items.findIdx? (Node.hasLabel key) with
  | some place =>
      obtain ⟨hlt, -⟩ := List.findIdx?_eq_some_iff_getElem.mp hfind
      rw [hfind, Option.bind_some, List.getElem?_eq_getElem hlt] at h
      exact ⟨place, rfl, (List.getElem?_eq_getElem hlt).trans h⟩
  | none =>
      rw [hfind, Option.bind_none, Option.none_or] at h
      exact Option.bind_eq_some_iff.mp h

namespace Document

section

variable {o inner : Object} {key next name : String} {rest : List String} {node : Node}
  {items : List Node} {place : Nat}

theorem plainPath_single (o : Object) (key : String) : o.plainPath [key] = [key] := by
  unfold Object.plainPath
  rfl

theorem plainPath_object (hget : o.get? key = some (.object inner)) (hrest : rest ≠ []) :
    o.plainPath (key :: rest) = key :: inner.plainPath rest := by
  obtain ⟨next, rest, rfl⟩ := List.exists_cons_of_ne_nil hrest
  rw [Object.plainPath, hget]

theorem plainPath_item (hget : o.get? key = some (.list name items))
    (hplace : placeOfKey? items next = some place) (hitem : items[place]? = some (.object inner)) :
    o.plainPath (key :: next :: rest) = key :: toString place :: inner.plainPath rest := by
  rw [Object.plainPath, hget]
  simp only [hplace, hitem]

theorem plainPath_nil (o : Object) : o.plainPath [] = [] := by
  unfold Object.plainPath
  rfl

theorem plainPath_ne_nil (hrest : rest ≠ []) : o.plainPath rest ≠ [] := by
  obtain ⟨key, rest, rfl⟩ := List.exists_cons_of_ne_nil hrest
  cases rest with
  | nil => rw [plainPath_single]; exact List.cons_ne_nil _ _
  | cons next rest =>
      rw [Object.plainPath]
      split
      · exact List.cons_ne_nil _ _
      · split
        · exact List.cons_ne_nil _ _
        · split <;> exact List.cons_ne_nil _ _
      · exact List.cons_ne_nil _ _

end

/-- The plain path leads to the same object. -/
theorem locateFrom_plainPath {chain chain' : List Object} {walked p : List String}
    {o o' : Object} (ho : o.Tidy) (h : locateFrom chain walked o p = .ok ⟨chain', .object o'⟩)
    (walked' : List String) :
    locateFrom chain walked' o (o.plainPath p) = .ok ⟨chain', .object o'⟩ := by
  fun_induction locateFrom chain walked o p generalizing walked' with
  | case1 => cases h
  | case2 => cases h
  | case3 chain walked o key node hget =>
      cases h
      rw [plainPath_single, locateFrom_field hget]
  | case4 => cases h
  | case5 chain walked o key next rest here inner hget ih =>
      rw [plainPath_object hget (List.cons_ne_nil _ _),
        locateFrom_object hget (plainPath_ne_nil (List.cons_ne_nil _ _))]
      exact ih (ho.fields.of_get? hget).1.of_object h _
  | case6 => cases h
  | case7 => cases h
  | case8 chain walked o key next name items hget item hselect =>
      cases h
      obtain ⟨place, hplace, hitem⟩ := exists_placeOfKey? hselect
      have hitems := (ho.fields.of_get? hget).1.items
      have hselect' := selectItem?_toString (fun item hmem => (hitems item hmem).tidy) place
      rw [plainPath_item hget hplace hitem, plainPath_nil,
        locateFrom_item hget (hselect'.trans hitem)]
  | case9 chain walked o key next here name items hget here' inner rest hrest hselect ih =>
      obtain ⟨place, hplace, hitem⟩ := exists_placeOfKey? hselect
      have hitems := (ho.fields.of_get? hget).1.items
      have hselect' := selectItem?_toString (fun item hmem => (hitems item hmem).tidy) place
      rw [plainPath_item hget hplace hitem,
        locateFrom_item_object hget (hselect'.trans hitem) (plainPath_ne_nil hrest)]
      exact ih (hitems _ (mem_of_selectItem? hselect)).tidy.of_object h _
  | case10 => cases h

end Document

/-! ## Going into what is assembled -/

section

variable {worth : List String → Except QueryError Value} {path : List String}

theorem assembleFields_get? {fields : Fields} {entries : List (String × Json)} {key : String}
    {node : Node} (h : assembleFields worth path fields = .ok entries)
    (hget : Keyed.get? fields key = some node) :
    ∃ json, Keyed.get? entries key = some json ∧
      node.assemble worth (path ++ [key]) = .ok json := by
  induction fields generalizing entries with
  | nil => cases hget
  | cons field fields ih =>
      obtain ⟨name, other⟩ := field
      rw [assembleFields] at h
      obtain ⟨json, hjson, h⟩ := bind_eq_ok h
      obtain ⟨entries', hentries, h⟩ := bind_eq_ok h
      cases h
      rw [Keyed.get?_cons] at hget ⊢
      split at hget
      · rename_i hname
        cases hget
        obtain rfl : name = key := hname
        exact ⟨json, if_pos rfl, hjson⟩
      · rename_i hname
        rw [if_neg hname]
        exact ih hentries hget

theorem assembleItems_getElem? {items : List Node} {inner : List Json} {start place : Nat}
    {item : Node} (h : assembleItems worth path start items = .ok inner)
    (hitem : items[place]? = some item) :
    ∃ json, inner[place]? = some json ∧
      item.assemble worth (path ++ [toString (start + place)]) = .ok json := by
  induction items generalizing inner start place with
  | nil => cases hitem
  | cons other items ih =>
      rw [assembleItems] at h
      obtain ⟨json, hjson, h⟩ := bind_eq_ok h
      obtain ⟨inner', hinner, h⟩ := bind_eq_ok h
      cases h
      cases place with
      | zero =>
          cases hitem
          exact ⟨json, rfl, hjson⟩
      | succ place =>
          obtain ⟨json', hget, hassemble⟩ := ih hinner hitem
          rw [Nat.add_right_comm] at hassemble
          exact ⟨json', hget, hassemble⟩

/-- What is assembled of an object has what is assembled of a field. -/
theorem Object.assemble_child {o : Object} {json : Json} {key : String} {node : Node}
    (h : o.assemble worth path = .ok json) (hget : o.get? key = some node) :
    ∃ inner, json.child? key = some inner ∧ node.assemble worth (path ++ [key]) = .ok inner := by
  obtain ⟨name, label, fields, directives, comments, footer, position⟩ := o
  rw [Object.assemble] at h
  obtain ⟨entries, hentries, rfl⟩ := map_eq_ok h
  exact assembleFields_get? hentries hget

/-- What is assembled of a list has what is assembled of an object in it. -/
theorem Node.assemble_child {name : String} {items : List Node} {json : Json} {place : Nat}
    {o : Object} (h : (Node.list name items).assemble worth path = .ok json)
    (hitem : items[place]? = some (.object o)) :
    ∃ inner, json.child? (toString place) = some inner ∧
      o.assemble worth (path ++ [toString place]) = .ok inner := by
  have hall : ¬ items.all Node.isOption = true := by
    intro hall
    exact absurd (List.all_eq_true.mp hall _ (List.mem_of_getElem? hitem)) Bool.false_ne_true
  rw [Node.assemble, if_neg hall] at h
  obtain ⟨inner, hinner, rfl⟩ := map_eq_ok h
  obtain ⟨json, hget, hassemble⟩ := assembleItems_getElem? hinner hitem
  rw [Nat.zero_add, Node.assemble] at hassemble
  refine ⟨json, ?_, hassemble⟩
  rw [Json.child?, placeOfText?_toString]
  exact hget

/-- What is assembled of an object is found in what is assembled around it. -/
theorem assemble_at {chain chain' : List Object} {walked p : List String} {o o' : Object}
    {json : Json} (h : Document.locateFrom chain walked o p = .ok ⟨chain', .object o'⟩)
    (hjson : o.assemble worth path = .ok json) :
    ∃ inner, json.at? (o.plainPath p) = some inner ∧
      o'.assemble worth (path ++ o.plainPath p) = .ok inner := by
  fun_induction Document.locateFrom chain walked o p generalizing path json with
  | case1 => cases h
  | case2 => cases h
  | case3 chain walked o key node hget =>
      cases h
      obtain ⟨inner, hchild, hinner⟩ := o.assemble_child hjson hget
      rw [Document.plainPath_single]
      exact ⟨inner, Json.at?_cons hchild [], hinner⟩
  | case4 => cases h
  | case5 =>
      rename_i o _ _ _ _ inner hget ih
      obtain ⟨json', hchild, hjson'⟩ := o.assemble_child hjson hget
      rw [Node.assemble] at hjson'
      obtain ⟨found, hat, hfound⟩ := ih h hjson'
      rw [Document.plainPath_object hget (List.cons_ne_nil _ _)]
      refine ⟨found, (Json.at?_cons hchild _).trans hat, ?_⟩
      rwa [List.append_assoc] at hfound
  | case6 => cases h
  | case7 => cases h
  | case8 chain walked o key next name items hget item hselect =>
      cases h
      obtain ⟨place, hplace, hitem⟩ := exists_placeOfKey? hselect
      obtain ⟨json', hchild, hjson'⟩ := o.assemble_child hjson hget
      obtain ⟨found, hchild', hfound⟩ := Node.assemble_child hjson' hitem
      rw [Document.plainPath_item hget hplace hitem, Document.plainPath_nil]
      refine ⟨found, (Json.at?_cons hchild _).trans (Json.at?_cons hchild' []), ?_⟩
      rwa [List.append_assoc] at hfound
  | case9 =>
      rename_i o _ _ _ _ items hget _ inner rest hrest hselect ih
      obtain ⟨place, hplace, hitem⟩ := exists_placeOfKey? hselect
      obtain ⟨json', hchild, hjson'⟩ := o.assemble_child hjson hget
      obtain ⟨json'', hchild', hjson''⟩ := Node.assemble_child hjson' hitem
      obtain ⟨found, hat, hfound⟩ := ih h hjson''
      rw [Document.plainPath_item hget hplace hitem]
      refine ⟨found, (Json.at?_cons hchild _).trans ((Json.at?_cons hchild' _).trans hat), ?_⟩
      rwa [List.append_assoc, List.append_assoc] at hfound
  | case10 => cases h

end

/-! ## Projecting from outside -/

namespace Projection

section

variable {m : Type → Type} [Monad m] [LawfulMonad m] {host : Host m} {base : Frame}
  {levels levels' : List Level}

theorem together_ofResolution (p : List String) {path : List String} {x : Resolution m Value}
    (hx : Together id x x levels levels') :
    Together (.below p) (ofResolution path x) (ofResolution (p ++ path) x) levels levels' := by
  have hadapt : Together (QueryError.below p) (x.adapt (.eval path)) (x.adapt (.eval (p ++ path)))
      levels levels' := hx.adapt fun _ => rfl
  exact hadapt.bind fun v _ _ h => .pure v.toJson h

theorem together_inside {α : Type} {p : List String} {o : Object} {x x' : Projection m α}
    (hx : ∀ levels levels', LevelsAlike levels levels' → Together (.below p) x x' levels levels')
    (h : LevelsAlike levels levels') :
    Together (.below p) (inside o x) (inside o x') levels levels' := by
  unfold inside
  refine .bind (.modify (h.enter (.refl _))) fun _ _ _ h => ?_
  refine (hx _ _ h).bind fun a _ _ h => ?_
  exact .bind (.modify h.leave) fun _ _ _ h => .pure a h

mutual

/-- **An object is projected alike from outside**, where its path starts further out. -/
theorem together_ofObject (p : List String) : ∀ {o : Object} {path : List String}
    {levels levels' : List Level}, LevelsAlike levels levels' →
      Together (.below p) (ofObject host base path o) (ofObject host base (p ++ path) o) levels
        levels'
  | ⟨_, _, fields, _, _, _, _⟩, path, levels, levels', h => by
    rw [ofObject, ofObject]
    exact (together_ofFields p h).bind fun entries _ _ h => .pure _ h

theorem together_ofFields (p : List String) : ∀ {fields : Fields} {path : List String}
    {levels levels' : List Level}, LevelsAlike levels levels' →
      Together (.below p) (ofFields host base path fields) (ofFields host base (p ++ path) fields)
        levels levels'
  | [], path, levels, levels', h => by
    rw [ofFields, ofFields]
    exact .pure [] h
  | (key, node) :: fields, path, levels, levels', h => by
    rw [ofFields, ofFields, List.append_assoc]
    dsimp only
    split
    · refine (together_ofResolution p (Resolution.together_field _ _ key h)).bind fun _ _ _ h => ?_
      exact (together_ofFields p h).bind fun _ _ _ h => .pure _ h
    · refine (together_ofNode p h).bind fun _ _ _ h => ?_
      exact (together_ofFields p h).bind fun _ _ _ h => .pure _ h

theorem together_ofNode (p : List String) : ∀ {node : Node} {path : List String}
    {levels levels' : List Level}, LevelsAlike levels levels' →
      Together (.below p) (ofNode host base path node) (ofNode host base (p ++ path) node) levels
        levels'
  | .option binding, path, levels, levels', h => by
    rw [ofNode, ofNode]
    exact together_ofResolution p (Resolution.together_evaluate _ _ _ h)
  | .object o, path, levels, levels', h => by
    rw [ofNode, ofNode]
    exact together_inside (fun _ _ h => together_ofObject p h) h
  | .list _ items, path, levels, levels', h => by
    rw [ofNode, ofNode]
    exact (together_ofItems p h).bind fun _ _ _ h => .pure _ h

theorem together_ofItems (p : List String) : ∀ {items : List Node} {path : List String}
    {place : Nat} {levels levels' : List Level}, LevelsAlike levels levels' →
      Together (.below p) (ofItems host base path place items)
        (ofItems host base (p ++ path) place items) levels levels'
  | [], path, place, levels, levels', h => by
    rw [ofItems, ofItems]
    exact .pure [] h
  | item :: items, path, place, levels, levels', h => by
    rw [ofItems, ofItems, List.append_assoc]
    refine (together_ofNode p h).bind fun _ _ _ h => ?_
    exact (together_ofItems p h).bind fun _ _ _ h => .pure _ h

end

end

end Projection

/-! ## Parts in a whole document -/

namespace Document

variable {D d s : Document} {p q : List String} {chain inner : List Object}

/-- A part of a part is a part. -/
theorem Part.trans (h : D.Part p chain d) (h' : d.Part q inner s) :
    D.Part (p ++ q) (chain ++ inner) s := by
  have hq : q ≠ [] := by
    rintro rfl
    exact nomatch h'.locate
  refine ⟨?_, h'.base.trans h.base, ?_⟩
  · rw [h.locate_append hq, h'.locate]
    rfl
  · rw [h'.ancestors, h.ancestors, List.map_append, List.append_assoc]

theorem Part.plain (h : d.Part p chain s) (hd : d.root.Tidy) :
    d.Part (d.root.plainPath p) chain s :=
  ⟨locateFrom_plainPath hd h.locate [], h.base, h.ancestors⟩

theorem Part.tidy (h : d.Part p chain s) (hd : d.root.Tidy) :
    (∀ o ∈ chain, o.Tidy) ∧ s.root.Tidy := by
  have hstands := stands_locateFrom (List.forall_mem_singleton.mpr hd) rfl h.locate
  refine ⟨hstands.tidy, ?_⟩
  obtain ⟨o, key, field, hlast, hget, hnode⟩ := hstands.field
  have hfield := ((hstands.tidy o (List.mem_of_getLast? hlast)).fields.of_get? hget).1
  rcases hnode with rfl | hmem
  · exact hfield.of_object
  · exact (hfield.flatten _ hmem).tidy.of_object

theorem Part.leads (h : d.Part p chain s) (hd : d.root.Tidy) :
    d.Leads p (chain ++ [s.root]) s.root := by
  obtain ⟨hchain, hroot⟩ := h.tidy hd
  refine ⟨?_, List.getLast?_concat, fun rest hrest => locateFrom_append h.locate hrest⟩
  intro o hmem
  rcases List.mem_append.mp hmem with hmem | hmem
  · exact hchain o hmem
  · rwa [List.mem_singleton.mp hmem]

/-- A part of a whole document is projected as it is in the document. -/
theorem Part.toJson_eq (host : Host Id) (h : D.Part p chain s) (hD : D.Tidy) :
    (Id.run (s.toJson host).run).mapError (.below p) =
      s.root.assemble (Projection.queried host D) p := by
  have hlevels : D.levels (chain ++ [s.root]) = (chain ++ [s.root]).map Level.ofObject := by
    rw [levels, hD.whole, List.nil_append]
  obtain ⟨after, hrun, -⟩ := Projection.gives_ofObject hD (h.leads hD.root)
    (Resolution.sound_ofObject host D.base (chain ++ [s.root]))
  have htogether : Together (.below p) (Projection.ofObject host D.base [] s.root)
      (Projection.ofObject host D.base (p ++ []) s.root) (s.levels [s.root])
      (D.levels (chain ++ [s.root])) :=
    Projection.together_ofObject p (h.levelsAlike hD.root [s.root]).symm
  have hresult := htogether.map_fst
  rw [List.append_nil, hlevels, hrun] at hresult
  rw [toJson, h.base]
  exact hresult.symm

/-! ## Documents and their parts -/

/-- A document that is built, or that is a part of such a document. -/
inductive Obtained : Document → Prop
  | built {d : Document} (h : d.Built) : Obtained d
  | part {d s : Document} {p : List String} (h : Obtained d) (hpart : d.document p = .ok s) :
    Obtained s

theorem Obtained.exists_whole (h : d.Obtained) :
    ∃ D : Document, D.Tidy ∧ (d = D ∨ ∃ p chain, D.Part p chain d) := by
  induction h with
  | built h => exact ⟨_, h.tidy, .inl rfl⟩
  | part _ hpart ih =>
      obtain ⟨D, hD, hwhole⟩ := ih
      obtain ⟨chain, h⟩ := exists_part hpart
      refine ⟨D, hD, .inr ?_⟩
      rcases hwhole with rfl | ⟨p, outer, houter⟩
      · exact ⟨_, chain, h⟩
      · exact ⟨_, _, houter.trans h⟩

theorem Obtained.tidy_root (h : d.Obtained) : d.root.Tidy := by
  obtain ⟨D, hD, rfl | ⟨p, chain, hpart⟩⟩ := h.exists_whole
  · exact hD.root
  · exact (hpart.tidy hD.root).2

/-- The JSON value of a part is found in that of the document. -/
theorem Part.json_at (host : Host Id) (h : d.Part p chain s) (hd : d.Obtained) {json : Json}
    (hjson : Id.run (d.toJson host).run = .ok json) :
    ∃ inner, json.at? (d.root.plainPath p) = some inner ∧
      Id.run (s.toJson host).run = .ok inner := by
  have hplain := h.plain hd.tidy_root
  obtain ⟨D, hD, hwhole⟩ := hd.exists_whole
  -- both documents are projected as in the whole document that they come from
  obtain ⟨start, hassemble, outer, hs⟩ : ∃ start : List String,
      d.root.assemble (Projection.queried host D) start = .ok json ∧
        ∃ outer, D.Part (start ++ d.root.plainPath p) outer s := by
    rcases hwhole with rfl | ⟨start, outer, houter⟩
    · exact ⟨[], (toJson_eq_assemble host hD).symm.trans hjson, chain, hplain⟩
    · refine ⟨start, (houter.toJson_eq host hD).symm.trans ?_, _, houter.trans hplain⟩
      rw [hjson]
      rfl
  obtain ⟨inner, hat, hinner⟩ := assemble_at h.locate hassemble
  refine ⟨inner, hat, ?_⟩
  have hpart := (hs.toJson_eq host hD).trans hinner
  cases hrun : Id.run (s.toJson host).run with
  | error e =>
      rw [hrun] at hpart
      cases hpart
  | ok found =>
      rw [hrun] at hpart
      exact hpart

/-- A part of a document agrees with the document: what it is asked for, the document answers
behind the path of the part. -/
structure PartAgrees (d : Document) (p : List String) (s : Document) : Prop where
  node : ∀ q, q ≠ [] → d.node (p ++ q) = (s.node q).mapError (.below p)
  expr : ∀ q, q ≠ [] → d.expr (p ++ q) = (s.expr q).mapError (.below p)
  value : ∀ {m : Type → Type} [Monad m] [LawfulMonad m] (host : Host m) q, q ≠ [] →
    d.value host (p ++ q) = (s.value host q).adapt (.below p)
  int : ∀ {m : Type → Type} [Monad m] [LawfulMonad m] (host : Host m) q, q ≠ [] →
    d.int host (p ++ q) = (s.int host q).adapt (.below p)
  double : ∀ {m : Type → Type} [Monad m] [LawfulMonad m] (host : Host m) q, q ≠ [] →
    d.double host (p ++ q) = (s.double host q).adapt (.below p)
  bool : ∀ {m : Type → Type} [Monad m] [LawfulMonad m] (host : Host m) q, q ≠ [] →
    d.bool host (p ++ q) = (s.bool host q).adapt (.below p)
  text : ∀ {m : Type → Type} [Monad m] [LawfulMonad m] (host : Host m) q, q ≠ [] →
    d.text host (p ++ q) = (s.text host q).adapt (.below p)
  moment : ∀ {m : Type → Type} [Monad m] [LawfulMonad m] (host : Host m) q, q ≠ [] →
    d.moment host (p ++ q) = (s.moment host q).adapt (.below p)
  /-- A part of the part is the same document as when it is taken at once. -/
  document : ∀ q, q ≠ [] → d.document (p ++ q) = (s.document q).mapError (.below p)
  /-- The JSON value of the part is found in that of the document, if that has one. -/
  json : ∀ (host : Host Id) json, Id.run (d.toJson host).run = .ok json →
    ∃ inner, json.at? (d.root.plainPath p) = some inner ∧ Id.run (s.toJson host).run = .ok inner

/-- **A part of a document agrees with the document**, and so does a part of a part. -/
theorem document_agrees (hd : d.Obtained) (h : d.document p = .ok s) : d.PartAgrees p s := by
  obtain ⟨chain, hpart⟩ := exists_part h
  have htidy := hd.tidy_root
  constructor
  case node => exact fun q hq => hpart.node_eq hq
  case expr => exact fun q hq => hpart.expr_eq hq
  case value => exact fun host q hq => hpart.value_eq htidy hq
  case int => exact fun host q hq => hpart.int_eq htidy hq
  case double => exact fun host q hq => hpart.double_eq htidy hq
  case bool => exact fun host q hq => hpart.bool_eq htidy hq
  case text => exact fun host q hq => hpart.text_eq htidy hq
  case moment => exact fun host q hq => hpart.moment_eq htidy hq
  case document => exact fun q hq => hpart.document_eq hq
  case json => exact fun host json hjson => hpart.json_at host hd hjson

/-- An object that is one of several, and refers to the outside. -/
theorem document_agrees_of_label :
    ∃ d s : Document, d.Obtained ∧ d.document ["svc", "web"] = .ok s ∧
      d.PartAgrees ["svc", "web"] s := by
  let setting : Setting (StateM Unit) :=
    ⟨(FileTree.mk [] []).host, (FileTree.mk [] []).source, .empty, none⟩
  have hfound : ((ofText setting
      "port = 80\nsvc db { port = 1 }\nsvc web { port = $port }\n").run.run ()).1.toOption.any
        (fun d => (d.document ["svc", "web"]).toOption.any fun _ => true) = true := by
    decide +kernel
  obtain ⟨d, _, hbuilt, hpart⟩ := exists_of_any_run hfound
  obtain ⟨s, hs, -⟩ := exists_of_any hpart
  have hd : d.Obtained := .built (.ofText setting _ hbuilt)
  exact ⟨d, s, hd, hs, document_agrees hd hs⟩

end Document

end ConfigLang
