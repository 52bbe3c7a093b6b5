import Mathlib
import ConfigLang.Document.Resolution
import ConfigLang.Proofs.Document.Search
import ConfigLang.Proofs.Eval.Locality

/-!
# What a node sees where it stands

A node is evaluated in an environment with a frame for each object from its own
out, which holds whatever of that object has been evaluated so far.
`evaluateNode_congr` says that only the names which the node refers to count, and
`resolveLocal_environment` what they stand for: the result that is kept nearest.

## Strategy

* **The variables of a node.**  `Reads` follows the evaluation of a node, and the local
  variables that are collected before are those that it reads (`mem_locals`).  From the
  locality of expressions comes that of nodes (`evaluateNode_congr_reads`).
* **Frames.**  The frame of an object holds what is kept of its fields, without those that
  failed (`get?_frame`).  A name is looked up from the innermost frame out
  (`findSome?_frames`), so it finds the result that is kept nearest.
* **Owners.**  The field that a name refers to is the nearest one that declares it.  If it
  is kept, then nothing nearer is (`owner?_of_recorded`).
-/

namespace ConfigLang

/-! ## The variables of a node -/

namespace Node

mutual

/-- Whether a node names a variable of a scope. -/
def Reads (scope : VarScope) (name : String) : Node → Prop
  | .option binding => binding.value.Reads scope name
  | .object _ => False
  | .list _ items => ReadsItems scope name items

/-- Whether one of some nodes names a variable of a scope. -/
def ReadsItems (scope : VarScope) (name : String) : List Node → Prop
  | [] => False
  | item :: items => item.Reads scope name ∨ ReadsItems scope name items

end

mutual

theorem mem_collectLocals {name : String} {names : List String} : ∀ node : Node,
    name ∈ node.collectLocals names ↔ name ∈ names ∨ node.Reads .enclosing name
  | .option binding => by rw [collectLocals, Expr.mem_collectLocals, Reads]
  | .object _ => by simp [collectLocals, Reads]
  | .list _ items => by rw [collectLocals, mem_collectLocalsItems items, Reads]

theorem mem_collectLocalsItems {name : String} {names : List String} : ∀ items : List Node,
    name ∈ collectLocalsItems names items ↔ name ∈ names ∨ ReadsItems .enclosing name items
  | [] => by simp [collectLocalsItems, ReadsItems]
  | item :: items => by
    rw [collectLocalsItems, mem_collectLocalsItems items, mem_collectLocals item, ReadsItems,
      or_assoc]

end

/-- The local variables of a node are those that it names. -/
theorem mem_locals {name : String} {node : Node} :
    name ∈ node.locals ↔ node.Reads .enclosing name := by
  simp [locals, mem_collectLocals]

end Node

namespace Resolution

section Locality

variable {m : Type → Type} [Monad m] {env env' : Environment} (host : Host m)

mutual

private theorem evaluateNode_congr_reads [LawfulMonad m] : ∀ node : Node,
    (∀ scope name, node.Reads scope name → env.answer scope name = env'.answer scope name) →
      evaluateNode host env node = evaluateNode host env' node
  | .option binding, h => by
    rw [evaluateNode, evaluateNode]
    exact Expr.evaluate_congr host h
  | .object _, _ => by rw [evaluateNode, evaluateNode]
  | .list _ items, h => by
    rw [evaluateNode, evaluateNode, evaluateItems_congr_reads items h]

private theorem evaluateItems_congr_reads [LawfulMonad m] : ∀ items : List Node,
    (∀ scope name, Node.ReadsItems scope name items →
        env.answer scope name = env'.answer scope name) →
      evaluateItems host env items = evaluateItems host env' items
  | [], _ => by rw [evaluateItems, evaluateItems]
  | item :: items, h => by
    rw [evaluateItems, evaluateItems,
      evaluateNode_congr_reads item fun scope name hreads => h scope name (.inl hreads),
      evaluateItems_congr_reads items fun scope name hreads => h scope name (.inr hreads)]

end

/-- A node has the same value in environments over the same base which agree on its local
variables. -/
theorem evaluateNode_congr [LawfulMonad m] {node : Node} (hbase : env.base = env'.base)
    (h : ∀ name ∈ node.locals, env.resolveLocal name = env'.resolveLocal name) :
    evaluateNode host env node = evaluateNode host env' node := by
  apply evaluateNode_congr_reads host node
  intro scope name hreads
  cases scope with
  | enclosing => exact h name (Node.mem_locals.mpr hreads)
  | base => simp only [Environment.answer, Environment.resolveBase, hbase]

end Locality

/-! ## The results that are kept -/

/-- The result that is kept of a field. -/
def recorded? (levels : List Level) (site : Site) : Option (Except EvalError Value) :=
  levels[site.1]?.bind fun l => l.results.lookup site.2

/-- The frame of an object has the value that is kept under a name, unless it failed. -/
theorem get?_frame {l : Level} {name : String}
    (hok : ∀ r, l.results.lookup name = some r → ∃ v, r = .ok v) :
    l.frame.get? name = (l.results.lookup name).bind Except.toOption := by
  obtain ⟨object, results⟩ := l
  change ∀ r, Keyed.get? results name = some r → _ at hok
  change Keyed.get? (results.filterMap _) name = (Keyed.get? results name).bind _
  induction results with
  | nil => rfl
  | cons entry results ih =>
      obtain ⟨other, result⟩ := entry
      rw [Keyed.get?_cons] at hok ⊢
      by_cases hother : other = name
      · rw [if_pos hother] at hok ⊢
        obtain ⟨v, rfl⟩ := hok result rfl
        subst hother
        simp [Keyed.get?_cons, Except.toOption]
      · rw [if_neg hother] at hok ⊢
        rw [← ih hok]
        cases result with
        | error e => rfl
        | ok v =>
            -- the value is in the frame, but under another name
            change Keyed.get? ((other, v) :: _) name = _
            rw [Keyed.get?_cons, if_neg hother]

theorem get?_frame_of_recorded {levels : List Level} {i : Nat} {name : String}
    (hok : ∀ r, recorded? levels (i, name) = some r → ∃ v, r = .ok v) :
    (levels[i]?.bind fun l => l.frame.get? name) =
      (recorded? levels (i, name)).bind Except.toOption := by
  unfold recorded? at hok ⊢
  cases hl : levels[i]? with
  | none => rfl
  | some l =>
      rw [hl] at hok
      exact get?_frame hok

/-- Where nothing is kept of the node itself, its environment has the frames of all objects from
its own out. -/
theorem environment_eq {base : Frame} {levels : List Level} {level : Nat} {own : String}
    (hlevel : level < levels.length) (hown : recorded? levels (level, own) = none) :
    environment base levels level own =
      ⟨base, (levels.take (level + 1)).reverse.map Level.frame⟩ := by
  have htake : (levels.take (level + 1)).reverse =
      levels[level] :: (levels.take level).reverse := by
    rw [List.take_add_one, List.getElem?_eq_getElem hlevel]
    simp
  have hremove : (levels[level]).frame.remove own = (levels[level]).frame := by
    have hlookup : (levels[level]).results.lookup own = none := by
      simpa [recorded?, List.getElem?_eq_getElem hlevel] using hown
    have hget : Keyed.get? (levels[level]).frame.bindings own = none :=
      (get?_frame (by simp [hlookup])).trans (by rw [hlookup]; rfl)
    rw [Frame.remove, Keyed.remove_of_not_mem (Keyed.get?_eq_none.mp hget)]
  unfold environment
  rw [htake, List.map_cons]
  simp only [hremove]

private theorem findSome?_frames_succ (levels : List Level) (name : String) (n : Nat) :
    ((levels.take (n + 1)).reverse.map Level.frame).findSome? (·.get? name) =
      (levels[n]?.bind fun l => l.frame.get? name).or
        (((levels.take n).reverse.map Level.frame).findSome? (·.get? name)) := by
  rw [List.take_add_one]
  cases levels[n]? with
  | none => simp
  | some l =>
      rw [Option.toList_some, List.reverse_append, List.reverse_singleton, List.singleton_append,
        List.map_cons, List.findSome?_cons, Option.bind_some]
      cases l.frame.get? name with
      | none => rfl
      | some v => rfl

/-- The frames of some objects from the last one out have the value that is kept nearest. -/
private theorem findSome?_frames {levels : List Level} {name : String} {n : Nat}
    (hok : ∀ i r, i < n → recorded? levels (i, name) = some r → ∃ v, r = .ok v) :
    (((levels.take n).reverse.map Level.frame).findSome? (·.get? name) = none ∧
        ∀ i < n, recorded? levels (i, name) = none) ∨
      ∃ i v, i < n ∧ recorded? levels (i, name) = some (.ok v) ∧
        (∀ j, i < j → j < n → recorded? levels (j, name) = none) ∧
        ((levels.take n).reverse.map Level.frame).findSome? (·.get? name) = some v := by
  induction n with
  | zero => simp
  | succ n ih =>
      rw [findSome?_frames_succ, get?_frame_of_recorded fun r => hok n r n.lt_succ_self]
      cases hr : recorded? levels (n, name) with
      | some r =>
          obtain ⟨v, rfl⟩ := hok n r n.lt_succ_self hr
          right
          refine ⟨n, v, n.lt_succ_self, hr, ?_, rfl⟩
          intro j hnj hj
          omega
      | none =>
          -- nothing is kept in the last object, so the others decide
          rw [Option.bind_none, Option.none_or]
          rcases ih fun i r hi => hok i r (by omega) with
            ⟨hfind, hall⟩ | ⟨i, v, hi, hrec, hlast, hfind⟩
          · left
            refine ⟨hfind, ?_⟩
            intro i hi
            rcases Nat.lt_succ_iff_lt_or_eq.mp hi with hlt | rfl
            · exact hall i hlt
            · exact hr
          · right
            refine ⟨i, v, by omega, hrec, ?_, hfind⟩
            intro j hij hj
            rcases Nat.lt_succ_iff_lt_or_eq.mp hj with hlt | rfl
            · exact hlast j hij hlt
            · exact hr

/-! ## What a local variable stands for -/

variable {objects : List Object} {base : Frame} {level : Nat} {own name : String}

/-- A name refers to the nearest field that is kept under it, if the field that it refers to is
kept. -/
private theorem owner?_of_recorded {levels : List Level} {i : Nat} {r : Except EvalError Value}
    (hown : recorded? levels (level, own) = none) (hi : i ≤ level)
    (hrecorded : recorded? levels (i, name) = some r)
    (hnode : (nodeAt? objects (i, name)).isSome = true)
    (hlast : ∀ j, i < j → j < level + 1 → recorded? levels (j, name) = none)
    (howner : ∀ i, owner? objects level own name = some i →
      (recorded? levels (i, name)).isSome = true) : owner? objects level own name = some i := by
  have hvisible : Visible objects level own (i, name) := by
    refine ⟨hi, ?_, hnode⟩
    intro heq
    rw [heq, hown] at hrecorded
    cases hrecorded
  cases h : owner? objects level own name with
  | none => exact absurd hvisible (owner?_eq_none_iff.mp h i)
  | some k =>
      obtain ⟨hk, hnearest⟩ := owner?_eq_some_iff.mp h
      rcases Nat.lt_trichotomy k i with hlt | heq | hgt
      · -- the field at `i` is nearer
        exact absurd hvisible (hnearest i hlt)
      · rw [heq]
      · have hsome := howner k h
        rw [hlast k hgt (Nat.lt_succ_of_le hk.1)] at hsome
        cases hsome

/-- **A local variable stands for what is kept of the field that it refers to**, once all that
the node refers to is kept.  What else is kept does not matter: it belongs to fields that the name
does not reach from here. -/
theorem resolveLocal_environment {levels : List Level} (hlevel : level < levels.length)
    (hown : recorded? levels (level, own) = none)
    (hok : ∀ i r, recorded? levels (i, name) = some r →
      (nodeAt? objects (i, name)).isSome = true ∧ ∃ v, r = .ok v)
    (howner : ∀ i, owner? objects level own name = some i →
      (recorded? levels (i, name)).isSome = true) :
    (environment base levels level own).resolveLocal name =
      ((owner? objects level own name).bind fun i => recorded? levels (i, name)).getD
        (.error (.undefinedVariable ("$" ++ name))) := by
  rw [environment_eq hlevel hown, Environment.resolveLocal, Environment.lookup]
  rcases findSome?_frames (n := level + 1) fun i r _ hr => (hok i r hr).2 with
    ⟨hfind, hnone⟩ | ⟨i, v, hi, hrecorded, hlast, hfind⟩
  · -- a field that the name referred to would be kept
    have hnoOwner : owner? objects level own name = none := by
      cases howner' : owner? objects level own name with
      | none => rfl
      | some i =>
          have hi : i ≤ level := (owner?_eq_some_iff.mp howner').1.1
          have hsome := howner i howner'
          rw [hnone i (by omega)] at hsome
          cases hsome
    rw [hfind, hnoOwner]
    rfl
  · have howner' := owner?_of_recorded hown (Nat.le_of_lt_succ hi) hrecorded
      (hok i _ hrecorded).1 hlast howner
    rw [hfind, howner']
    simp [hrecorded]

private theorem get?_bindings {worth : Site → Except EvalError Value} {sites : List Site}
    {bindings : List (String × Value)} {i : Nat}
    (h : gather worth sites = .ok bindings) (hmem : (i, name) ∈ sites)
    (hunique : ∀ site ∈ sites, site.2 = name → site = (i, name)) :
    ∃ v, Keyed.get? bindings name = some v ∧ worth (i, name) = .ok v := by
  rw [gather_eq_ok_iff] at h
  induction h with
  | nil => cases hmem
  | @cons site binding sites bindings hbinding _ ih =>
      rw [Keyed.get?_cons]
      by_cases hname : site.2 = name
      · obtain rfl := hunique site List.mem_cons_self hname
        exact ⟨binding.2, if_pos hbinding.1, hbinding.2⟩
      · rw [if_neg (hbinding.1 ▸ hname)]
        rcases List.mem_cons.mp hmem with rfl | hmem
        · exact absurd rfl hname
        · exact ih hmem fun other hother => hunique other (List.mem_cons_of_mem _ hother)

private theorem get?_bindings_none {worth : Site → Except EvalError Value} {sites : List Site}
    {bindings : List (String × Value)} (h : gather worth sites = .ok bindings)
    (hnone : ∀ site ∈ sites, site.2 ≠ name) : Keyed.get? bindings name = none := by
  rw [gather_eq_ok_iff] at h
  induction h with
  | nil => rfl
  | @cons site binding sites bindings hbinding _ ih =>
      rw [Keyed.get?_cons, if_neg (hbinding.1 ▸ hnone site List.mem_cons_self)]
      exact ih fun other hother => hnone other (List.mem_cons_of_mem _ hother)

/-- In the environment that binds what a node refers to, each local variable of the node stands
for what its field is worth. -/
theorem resolveLocal_bindings {worth : Site → Except EvalError Value} {node : Node}
    {bindings : List (String × Value)}
    (h : gather worth (references objects level node) = .ok bindings) (hname : name ∈ node.locals) :
    (Environment.mk base [⟨bindings⟩]).resolveLocal name =
      ((owner? objects level node.name name).map fun i => worth (i, name)).getD
        (.error (.undefinedVariable ("$" ++ name))) := by
  have hframe : (Frame.mk bindings).get? name = Keyed.get? bindings name := rfl
  rw [Environment.resolveLocal, Environment.lookup, List.findSome?_cons, List.findSome?_nil, hframe]
  cases howner : owner? objects level node.name name with
  | some i =>
      obtain ⟨v, hget, hworth⟩ := get?_bindings h (mem_references.mpr ⟨hname, howner⟩) (by
        rintro ⟨j, other⟩ hmem rfl
        rw [(mem_references.mp hmem).2] at howner
        exact Prod.ext (Option.some.inj howner) rfl)
      rw [hget, Option.map_some, Option.getD_some, hworth]
  | none =>
      rw [get?_bindings_none h (by
        rintro ⟨j, other⟩ hmem rfl
        rw [(mem_references.mp hmem).2] at howner
        cases howner)]
      rfl

end Resolution

end ConfigLang
