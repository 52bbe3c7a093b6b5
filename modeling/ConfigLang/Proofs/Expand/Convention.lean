import Mathlib
import ConfigLang.Proofs.Eval.Locality
import ConfigLang.Proofs.Expand.Arguments

/-!
# One calling convention

Functions and directives bind their arguments on their own, but to the same effect
(`one_convention`).  Where positional arguments come before those with keywords, both accept just
the lists that fit the parameters (`ArgumentList.Fits`), and bind the same parameters to the same
arguments (`ArgumentList.bindings`).

Either binding goes through two stages.  Positional arguments take the parameters in order; behind
them it only matters which parameters are taken, and a keyword takes one that is open
(`open_cons_iff`).  So whether a list is accepted is known before the values of its arguments are.

## Strategy

* **Directives** bind arguments without evaluating them, so each stage is an equation:
  `bindArgs_positional`, `bindArgs_named`, and `bindArgs_tooMany` for a list that is longer than
  the parameters.
* **Functions** evaluate an argument before they bind it.  The run is therefore compared with the
  run that evaluates all arguments first: `bindArgs_cons_of_ok` and `bindArgs_cons_of_error` take
  one argument off the list, and in front of the keywords the two runs have come to a `Stage`,
  where so many values are bound and as many parameters taken.  `Stage.bindArgs` does the rest for
  both kinds of functions.
* **Variadic functions** reach that stage in another way: plain parameters take what they can
  (`stage_few`), and the slice takes what is left (`stage_collecting`), after which no parameter is
  left for a keyword.
* **Keywords in any order** name distinct parameters, so a list that fits still does when they
  change places, and binds the same (`Fits.reordered`, `Fits.get?_reordered`).
  Of a call the frame is the same then if the values of its arguments do not depend on when they
  are evaluated (`exists_run_bindArgs_of_ok`).
-/

namespace ConfigLang

open Running

/-! ## Argument lists -/

/-- The arguments of a call or a directive, those without keywords before the others. -/
structure ArgumentList (α : Type) where
  positional : List α
  named : List (String × α)

/-- Some keywords can take parameters of which others are taken. -/
structure Open (names taken keywords : List String) : Prop where
  known : ∀ keyword ∈ keywords, keyword ∈ names
  once : keywords.Nodup
  free : ∀ keyword ∈ keywords, keyword ∉ taken

instance (names taken keywords : List String) : Decidable (Open names taken keywords) :=
  decidable_of_iff ((∀ keyword ∈ keywords, keyword ∈ names) ∧ keywords.Nodup ∧
      ∀ keyword ∈ keywords, keyword ∉ taken)
    ⟨fun h => ⟨h.1, h.2.1, h.2.2⟩, fun h => ⟨h.known, h.once, h.free⟩⟩

namespace ArgumentList

variable {α : Type}

/-- The arguments in the order in which they are written. -/
def toList (a : ArgumentList α) : List (Argument α) :=
  a.positional.map (⟨none, ·⟩) ++ a.named.map fun arg => ⟨some arg.1, arg.2⟩

/-- Positional arguments find parameters, and keywords name others, each of them once. -/
structure Fits (names : List String) (a : ArgumentList α) : Prop
    extends Open names (names.take a.positional.length) (Keyed.keys a.named) where
  few : a.positional.length ≤ names.length

instance (names : List String) (a : ArgumentList α) : Decidable (a.Fits names) :=
  decidable_of_iff (Open names (names.take a.positional.length) (Keyed.keys a.named) ∧
      a.positional.length ≤ names.length)
    ⟨fun h => ⟨h.1, h.2⟩, fun h => ⟨h.toOpen, h.few⟩⟩

/-- What the parameters are bound to: those in front to the positional arguments, one by one, and
the others to what is given for them. -/
def bindings (names : List String) (a : ArgumentList α) : List (String × α) :=
  names.zip a.positional ++ a.named

/-- What the parameters of a function are bound to if another one behind them is variadic: that one
to the slice of the positional arguments that are left, if there are any. -/
def collected (names : List String) (rest : String) (v : ArgumentList Value) :
    List (String × Value) :=
  names.zip v.positional ++
    (if names.length < v.positional.length then
      [(rest, .slice (v.positional.drop names.length))] else []) ++
    v.named

/-- Keywords name parameters, each of them once, that positional arguments have not come to, the
variadic one behind the others among them. -/
def FitsCollecting (names : List String) (rest : String) (a : ArgumentList α) : Prop :=
  Open (names ++ [rest]) ((names ++ [rest]).take a.positional.length) (Keyed.keys a.named)

instance (names : List String) (rest : String) (a : ArgumentList α) :
    Decidable (a.FitsCollecting names rest) :=
  inferInstanceAs (Decidable (Open _ _ _))

/-- The arguments without their keywords. -/
def values (a : ArgumentList α) : List α :=
  a.positional ++ a.named.map Prod.snd

variable {m : Type → Type} [Monad m]

/-- The values of arguments, in the order in which these are written. -/
def evaluated (host : Host m) (a : ArgumentList Expr) : Evaluation m (ArgumentList Value) := do
  let positional ← Expr.evalList host a.positional
  let named ← Expr.evalList host (a.named.map Prod.snd)
  return ⟨positional, (Keyed.keys a.named).zip named⟩

end ArgumentList

/-! ## Open parameters -/

section

variable {names taken keywords : List String} {keyword : String}

theorem open_nil : Open names taken [] :=
  ⟨nofun, .nil, nofun⟩

/-- Where all parameters are taken there are no keywords. -/
theorem Open.eq_nil (h : Open names names keywords) : keywords = [] :=
  List.eq_nil_iff_forall_not_mem.mpr fun keyword hmem => h.free keyword hmem (h.known keyword hmem)

/-- A keyword takes a parameter that is open, and it is not open for those behind it. -/
theorem open_cons_iff :
    Open names taken (keyword :: keywords) ↔
      keyword ∈ names ∧ keyword ∉ taken ∧ Open names (taken ++ [keyword]) keywords := by
  constructor
  · rintro ⟨hknown, honce, hfree⟩
    obtain ⟨hfirst, hknown⟩ := List.forall_mem_cons.mp hknown
    obtain ⟨hfresh, honce⟩ := List.nodup_cons.mp honce
    obtain ⟨hfirst', hfree⟩ := List.forall_mem_cons.mp hfree
    refine ⟨hfirst, hfirst', hknown, honce, fun other hother => ?_⟩
    rw [List.mem_append, List.mem_singleton, not_or]
    refine ⟨hfree other hother, ?_⟩
    rintro rfl
    exact hfresh hother
  · rintro ⟨hfirst, hfirst', hknown, honce, hfree⟩
    have hother {other : String} (hmem : other ∈ keywords) : other ∉ taken ∧ other ≠ keyword := by
      have hne := hfree other hmem
      rwa [List.mem_append, List.mem_singleton, not_or] at hne
    refine ⟨List.forall_mem_cons.mpr ⟨hfirst, hknown⟩, List.nodup_cons.mpr ⟨?_, honce⟩,
      List.forall_mem_cons.mpr ⟨hfirst', fun other hmem => (hother hmem).1⟩⟩
    exact fun hmem => (hother hmem).2 rfl

end

/-! ## Parameters in order -/

/-- Where a list is longer than some, it has an element behind as many. -/
theorem exists_append_cons {α : Type} {xs : List α} {n : Nat} (h : n < xs.length) :
    ∃ first x more, xs = first ++ x :: more ∧ first.length = n :=
  ⟨xs.take n, xs[n], xs.drop (n + 1), by rw [← List.drop_eq_getElem_cons h, List.take_append_drop],
    List.length_take_of_le h.le⟩

/-- Names that have no values left are not bound. -/
theorem zip_append_of_length_le {α : Type} {names : List String} {values : List α}
    (others : List String) (h : values.length ≤ names.length) :
    (names ++ others).zip values = names.zip values := by
  induction names generalizing values with
  | nil => rw [List.eq_nil_of_length_eq_zero (Nat.le_zero.mp h), List.zip_nil_right,
      List.zip_nil_right]
  | cons name names ih =>
      cases values with
      | nil => rfl
      | cons value values => exact congrArg ((name, value) :: ·) (ih (Nat.le_of_succ_le_succ h))

/-- Values that have no names left are not bound. -/
theorem zip_append_of_length_eq {α : Type} {names : List String} {values : List α}
    (more : List α) (h : names.length = values.length) :
    names.zip (values ++ more) = names.zip values := by
  calc names.zip (values ++ more) = (names ++ []).zip (values ++ more) := by rw [List.append_nil]
    _ = names.zip values ++ [].zip more := List.zip_append h
    _ = names.zip values := by rw [List.zip_nil_left, List.append_nil]

/-- Distinct names are found at their places. -/
theorem getElem_mem_take_iff {names : List String} (hnames : names.Nodup) {i n : Nat}
    (hi : i < names.length) : names[i] ∈ names.take n ↔ i < n := by
  rw [List.mem_take_iff_getElem]
  constructor
  · rintro ⟨j, hj, heq⟩
    have hsame : j = i := hnames.getElem_inj_iff.mp heq
    omega
  · intro hlt
    exact ⟨i, by omega, rfl⟩

/-- A value for the next of the parameters that are bound in order. -/
theorem keys_append_next {α : Type} {names : List String} {bound : List (String × α)} {i : Nat}
    (hi : i < names.length) (hbound : Keyed.keys bound = names.take i) (value : α) :
    Keyed.keys (bound ++ [(names[i], value)]) = names.take (i + 1) := by
  calc Keyed.keys (bound ++ [(names[i], value)]) = Keyed.keys bound ++ [names[i]] :=
      Keyed.keys_append _ _
    _ = names.take (i + 1) := by rw [hbound, List.take_add_one, List.getElem?_eq_getElem hi]; rfl

theorem append_next_zip {α : Type} {names : List String} {bound : List (String × α)} {i : Nat}
    (hi : i < names.length) (value : α) (values : List α) :
    bound ++ [(names[i], value)] ++ (names.drop (i + 1)).zip values =
      bound ++ (names.drop i).zip (value :: values) := by
  rw [List.drop_eq_getElem_cons hi, List.zip_cons_cons, List.append_assoc, List.singleton_append]

namespace ArgumentList

variable {α : Type} {names : List String} {a a' : ArgumentList α}

/-- The order of the keywords does not matter. -/
theorem Fits.reordered (h : a.Fits names) (hpositional : a.positional = a'.positional)
    (hnamed : a.named.Perm a'.named) : a'.Fits names := by
  have hkeys : (Keyed.keys a.named).Perm (Keyed.keys a'.named) := hnamed.map Prod.fst
  constructor
  · exact ⟨fun k hk => h.known k (hkeys.mem_iff.mpr hk), hkeys.nodup_iff.mp h.once,
      fun k hk => hpositional ▸ h.free k (hkeys.mem_iff.mpr hk)⟩
  · exact hpositional ▸ h.few

/-- A list that fits binds every parameter once at most. -/
theorem Fits.nodup_keys (h : a.Fits names) (hnames : names.Nodup) :
    (Keyed.keys (a.bindings names)).Nodup := by
  rw [bindings, Keyed.keys_append, Keyed.keys_zip, List.nodup_append]
  refine ⟨(List.take_sublist _ _).nodup hnames, h.once, ?_⟩
  rintro name htaken _ hkeyword rfl
  exact h.free name hkeyword htaken

theorem Fits.get?_reordered (h : a.Fits names) (hnames : names.Nodup)
    (hpositional : a.positional = a'.positional) (hnamed : a.named.Perm a'.named)
    (name : String) :
    Keyed.get? (a.bindings names) name = Keyed.get? (a'.bindings names) name := by
  refine Keyed.get?_perm (h.nodup_keys hnames) ?_ name
  rw [bindings, bindings, hpositional]
  exact hnamed.append_left _

end ArgumentList

/-! ## Directives -/

namespace Directive

variable {names : List String} {bound : List (String × Payload)} {reached : Nat}

/-- Positional arguments of a directive take parameters in order. -/
theorem bindArgs_positional (hnames : names.Nodup) (values : List Payload)
    (args : List (Argument Payload)) (hbound : Keyed.keys bound = names.take reached)
    (hfew : reached + values.length ≤ names.length) :
    bindArgs names reached bound (values.map (⟨none, ·⟩) ++ args) =
      bindArgs names (reached + values.length) (bound ++ (names.drop reached).zip values) args := by
  induction values generalizing reached bound with
  | nil => simp
  | cons value values ih =>
      rw [List.length_cons] at hfew
      have hreached : reached < names.length := by omega
      have hfresh : names[reached] ∉ Keyed.keys bound :=
        hbound ▸ fun hmem => Nat.lt_irrefl _ ((getElem_mem_take_iff hnames hreached).mp hmem)
      rw [List.map_cons, List.cons_append, bindArgs, List.getElem?_eq_getElem hreached]
      dsimp only
      rw [if_neg (mt Keyed.contains_iff.mp hfresh), Keyed.put_of_not_mem hfresh,
        ih (keys_append_next hreached hbound value) (by omega), append_next_zip hreached,
        List.length_cons, Nat.add_assoc, Nat.add_comm 1]

/-- Keywords take the parameters that are open. -/
theorem bindArgs_named {taken : List String} (named : List (String × Payload))
    (hbound : Keyed.keys bound = taken) :
    (Open names taken (Keyed.keys named) →
      bindArgs names reached bound (named.map fun arg => ⟨some arg.1, arg.2⟩) =
        .ok (bound ++ named)) ∧
    (¬Open names taken (Keyed.keys named) →
      ∃ fault, bindArgs names reached bound (named.map fun arg => ⟨some arg.1, arg.2⟩) =
        .error fault) := by
  induction named generalizing bound taken with
  | nil => exact ⟨fun _ => by simp [bindArgs], fun h => absurd open_nil h⟩
  | cons arg named ih =>
      obtain ⟨keyword, value⟩ := arg
      have hopen : Open names taken (Keyed.keys ((keyword, value) :: named)) ↔ _ := open_cons_iff
      rw [List.map_cons, bindArgs, hopen]
      by_cases hknown : keyword ∈ names
      · rw [if_neg (not_not.mpr hknown)]
        by_cases hfree : keyword ∈ taken
        · have hcontains : Keyed.contains bound keyword = true :=
            Keyed.contains_iff.mpr (hbound ▸ hfree)
          rw [if_pos hcontains]
          exact ⟨fun h => absurd hfree h.2.1, fun _ => ⟨_, rfl⟩⟩
        · have hfresh : keyword ∉ Keyed.keys bound := hbound ▸ hfree
          have hkeys : Keyed.keys (bound ++ [(keyword, value)]) = taken ++ [keyword] := by
            rw [Keyed.keys_append, hbound]
            rfl
          obtain ⟨hok, herror⟩ := ih hkeys
          rw [if_neg (mt Keyed.contains_iff.mp hfresh), Keyed.put_of_not_mem hfresh]
          refine ⟨fun h => ?_, fun h => herror fun hrest => h ⟨hknown, hfree, hrest⟩⟩
          rw [hok h.2.2, List.append_assoc, List.singleton_append]
      · rw [if_pos hknown]
        exact ⟨fun h => absurd h.1 hknown, fun _ => ⟨_, rfl⟩⟩

/-- More positional arguments than parameters are not bound. -/
theorem bindArgs_tooMany (hnames : names.Nodup) {values : List Payload}
    (args : List (Argument Payload)) (hmany : names.length < values.length) :
    ∃ fault, bindArgs names 0 [] (values.map (⟨none, ·⟩) ++ args) = .error fault := by
  obtain ⟨first, value, more, rfl, hfirst⟩ := exists_append_cons hmany
  rw [List.map_append, List.append_assoc,
    bindArgs_positional hnames first _ rfl (by rw [hfirst, Nat.zero_add]), hfirst, Nat.zero_add,
    List.map_cons, List.cons_append, bindArgs, List.getElem?_eq_none le_rfl]
  exact ⟨_, rfl⟩

theorem bindArgs_of_fits (hnames : names.Nodup) {a : ArgumentList Payload} (h : a.Fits names) :
    bindArgs names 0 [] a.toList = .ok (a.bindings names) := by
  rw [ArgumentList.toList, bindArgs_positional hnames _ _ rfl (by simpa using h.few),
    Nat.zero_add]
  exact (bindArgs_named a.named (Keyed.keys_zip names a.positional)).1 h.toOpen

theorem bindArgs_of_not_fits (hnames : names.Nodup) {a : ArgumentList Payload}
    (h : ¬a.Fits names) : ∃ fault, bindArgs names 0 [] a.toList = .error fault := by
  by_cases hfew : a.positional.length ≤ names.length
  · have hopen : ¬Open names (names.take a.positional.length) (Keyed.keys a.named) :=
      fun hopen => h ⟨hopen, hfew⟩
    rw [ArgumentList.toList, bindArgs_positional hnames _ _ rfl (by simpa using hfew),
      Nat.zero_add]
    exact (bindArgs_named a.named (Keyed.keys_zip names a.positional)).2 hopen
  · exact bindArgs_tooMany hnames _ (Nat.not_le.mp hfew)

end Directive

/-! ## Functions -/

namespace Binder

variable {params : List Parameter} {name : String} {b : Binder}

/-- A keyword takes a parameter that neither a position nor another keyword has taken. -/
theorem keyword_eq (hnames : (params.map (·.name)).Nodup) (value : Value) :
    b.keyword params name value =
      if name ∉ params.map (·.name) then .error (.unknownParameter name)
      else if name ∈ (params.map (·.name)).take b.reached ∨ name ∈ Keyed.keys b.frame.bindings then
        .error (.boundTwice name)
      else .ok { b with frame := ⟨b.frame.bindings ++ [(name, value)]⟩ } := by
  unfold keyword
  cases hplace : params.findIdx? (·.name = name) with
  | none =>
      have hunknown : name ∉ params.map (·.name) := by
        rw [List.findIdx?_eq_none_iff] at hplace
        rw [List.mem_map]
        rintro ⟨p, hp, rfl⟩
        simpa using hplace p hp
      rw [if_pos hunknown]
  | some place =>
      obtain ⟨hlt, hname, -⟩ := List.findIdx?_eq_some_iff_getElem.mp hplace
      have hlt' : place < (params.map (·.name)).length := by rwa [List.length_map]
      have hget : (params.map (·.name))[place] = name := by
        rw [List.getElem_map]
        exact of_decide_eq_true hname
      have hknown : name ∈ params.map (·.name) := hget ▸ List.getElem_mem hlt'
      have htaken : name ∈ (params.map (·.name)).take b.reached ↔ place < b.reached := by
        have hiff := getElem_mem_take_iff hnames hlt' (n := b.reached)
        rwa [hget] at hiff
      have hbound : place < b.reached ∨ b.frame.contains name = true ↔
          name ∈ (params.map (·.name)).take b.reached ∨ name ∈ Keyed.keys b.frame.bindings :=
        or_congr htaken.symm Keyed.contains_iff
      rw [if_neg (not_not.mpr hknown)]
      dsimp only
      by_cases htwice : place < b.reached ∨ b.frame.contains name = true
      · rw [if_pos htwice, if_pos (hbound.mp htwice)]
      · have hfresh : name ∉ Keyed.keys b.frame.bindings :=
          fun hmem => htwice (hbound.mpr (.inr hmem))
        rw [if_neg htwice, if_neg (mt hbound.mpr htwice), Frame.define,
          Keyed.put_of_not_mem hfresh]

end Binder

namespace Expr

variable {m : Type → Type} [Monad m] [LawfulMonad m] {host : Host m} {function : String}
  {params : List Parameter} {count : Nat} {b : Binder}

theorem evalList_append (xs ys : List Expr) :
    evalList host (xs ++ ys) = (do
      let values ← evalList host xs
      let others ← evalList host ys
      return values ++ others) := by
  induction xs with
  | nil => simp [evalList]
  | cons x xs ih => simp [evalList, ih]

omit [LawfulMonad m] in
/-- An argument that is bound, and those behind it. -/
theorem bindArgs_cons_of_ok {name? : Option String} {e : Expr} {args : List (Argument Expr)}
    {next : Value → Binder} (h : ∀ value, b.bind params count name? value = .ok (next value)) :
    bindArgs host function params count b (⟨name?, e⟩ :: args) = (do
      let value ← e.eval host
      bindArgs host function params count (next value) args) := by
  rw [bindArgs]
  simp only [h]

/-- An argument that cannot be bound, whatever its value. -/
theorem bindArgs_cons_of_error {name? : Option String} {e : Expr} {args : List (Argument Expr)}
    {fault : ArgumentFault} (h : ∀ value, b.bind params count name? value = .error fault) :
    bindArgs host function params count b (⟨name?, e⟩ :: args) = (do
      let _ ← evalList host [e]
      throw (.invalidArgument function fault)) := by
  rw [bindArgs]
  simp [h, evalList]

/-- Positional arguments of a call take plain parameters in order. -/
theorem bindArgs_positional {values : List Expr} {bound : List (String × Value)} {reached : Nat}
    (hnames : (params.map (·.name)).Nodup) (args : List (Argument Expr))
    (hbound : Keyed.keys bound = (params.map (·.name)).take reached)
    (hfew : reached + values.length ≤ params.length)
    (hplain : ∀ p ∈ params.take (reached + values.length), p.variadic = false) :
    bindArgs host function params count ⟨⟨bound⟩, reached, none⟩
        (values.map (⟨none, ·⟩) ++ args) = (do
      let found ← evalList host values
      bindArgs host function params count
        ⟨⟨bound ++ ((params.map (·.name)).drop reached).zip found⟩, reached + values.length, none⟩
        args) := by
  induction values generalizing reached bound with
  | nil => simp [evalList]
  | cons e values ih =>
      rw [List.length_cons] at hfew hplain
      have hreached : reached < params.length := by omega
      have hreached' : reached < (params.map (·.name)).length := by rwa [List.length_map]
      have hname : (params.map (·.name))[reached] = params[reached].name := List.getElem_map _
      have hsucc : reached + 1 + values.length = reached + (values.length + 1) := by omega
      have hvariadic : params[reached].variadic = false :=
        hplain _ (List.mem_take_iff_getElem.mpr ⟨reached, by omega, rfl⟩)
      have hfresh : params[reached].name ∉ Keyed.keys bound := by
        rw [hbound, ← hname, getElem_mem_take_iff hnames hreached']
        exact Nat.lt_irrefl reached
      have hbind (value : Value) :
          (⟨⟨bound⟩, reached, none⟩ : Binder).bind params count none value =
            .ok ⟨⟨bound ++ [((params.map (·.name))[reached], value)]⟩, reached + 1, none⟩ := by
        rw [Binder.bind, Binder.positional]
        simp only [List.getElem?_eq_getElem hreached, hvariadic, Bool.false_eq_true, if_false,
          Frame.define, Keyed.put_of_not_mem hfresh, hname]
      rw [List.map_cons, List.cons_append, bindArgs_cons_of_ok hbind, evalList]
      simp only [bind_assoc, pure_bind]
      refine congrArg (e.eval host >>= ·) (funext fun value => ?_)
      rw [ih (keys_append_next hreached' hbound value) (by omega) (by rwa [hsucc])]
      simp only [append_next_zip hreached', hsucc, List.length_cons]

/-- The first arguments of a call take the first parameters. -/
theorem bindArgs_first {values : List Expr} (hnames : (params.map (·.name)).Nodup)
    (args : List (Argument Expr)) (hfew : values.length ≤ params.length)
    (hplain : ∀ p ∈ params.take values.length, p.variadic = false) :
    bindArgs host function params count .empty (values.map (⟨none, ·⟩) ++ args) = (do
      let found ← evalList host values
      bindArgs host function params count
        ⟨⟨(params.map (·.name)).zip found⟩, values.length, none⟩ args) := by
  change bindArgs host function params count ⟨⟨[]⟩, 0, none⟩ _ = _
  rw [bindArgs_positional hnames args rfl (by rwa [Nat.zero_add]) (by rwa [Nat.zero_add])]
  simp only [List.nil_append, List.drop_zero, Nat.zero_add]

/-- Behind a variadic parameter all positional arguments are collected. -/
theorem bindArgs_collected {values : List Expr} {name : String} {collected : List Value}
    (hcollected : b.collected = some (name, collected)) (args : List (Argument Expr)) :
    bindArgs host function params count b (values.map (⟨none, ·⟩) ++ args) = (do
      let found ← evalList host values
      bindArgs host function params count
        { b with collected := some (name, collected ++ found) } args) := by
  induction values generalizing b collected with
  | nil => simp [evalList, ← hcollected]
  | cons e values ih =>
      have hbind (value : Value) : b.bind params count none value =
          .ok { b with collected := some (name, collected ++ [value]) } := by
        rw [Binder.bind, Binder.positional, hcollected]
      rw [List.map_cons, List.cons_append, bindArgs_cons_of_ok hbind, evalList]
      simp only [bind_assoc, pure_bind]
      refine congrArg (e.eval host >>= ·) (funext fun value => ?_)
      rw [ih rfl]
      simp only [List.append_assoc, List.singleton_append]

/-- The parameters that positions and keywords have taken. -/
def Taken (params : List Parameter) (b : Binder) (taken : List String) : Prop :=
  ∀ name, name ∈ taken ↔
    name ∈ (params.map (·.name)).take b.reached ∨ name ∈ Keyed.keys b.frame.bindings

theorem Taken.append {taken : List String} (h : Taken params b taken) (keyword : String)
    (value : Value) :
    Taken params { b with frame := ⟨b.frame.bindings ++ [(keyword, value)]⟩ }
      (taken ++ [keyword]) := by
  intro name
  rw [List.mem_append, h name, Keyed.keys_append, List.mem_append, or_assoc]
  rfl

/-- A keyword takes a parameter that is open. -/
theorem bind_keyword_of_open (hnames : (params.map (·.name)).Nodup) {taken : List String}
    (htaken : Taken params b taken) {keyword : String}
    (hknown : keyword ∈ params.map (·.name)) (hfree : keyword ∉ taken) (value : Value) :
    b.bind params count (some keyword) value =
      .ok { b with frame := ⟨b.frame.bindings ++ [(keyword, value)]⟩ } := by
  rw [Binder.bind, Binder.keyword_eq hnames, if_neg (not_not.mpr hknown),
    if_neg (mt (htaken keyword).mpr hfree)]

/-- Keywords of a call take the parameters that are open. -/
theorem bindArgs_named (hnames : (params.map (·.name)).Nodup) {taken : List String}
    {named : List (String × Expr)} (htaken : Taken params b taken)
    (hopen : Open (params.map (·.name)) taken (Keyed.keys named)) :
    bindArgs host function params count b (named.map fun arg => ⟨some arg.1, arg.2⟩) = (do
      let found ← evalList host (named.map Prod.snd)
      return { b with frame := ⟨b.frame.bindings ++ (Keyed.keys named).zip found⟩ }) := by
  induction named generalizing b taken with
  | nil => simp [evalList, bindArgs, Keyed.keys]
  | cons arg named ih =>
      obtain ⟨keyword, e⟩ := arg
      obtain ⟨hknown, hfree, hopen⟩ := open_cons_iff.mp hopen
      have hkeys : Keyed.keys ((keyword, e) :: named) = keyword :: Keyed.keys named := rfl
      rw [List.map_cons, bindArgs_cons_of_ok (bind_keyword_of_open hnames htaken hknown hfree),
        List.map_cons, evalList, hkeys]
      simp only [bind_assoc, pure_bind]
      refine congrArg (e.eval host >>= ·) (funext fun value => ?_)
      rw [ih (htaken.append keyword value) hopen]
      simp only [List.zip_cons_cons, List.append_assoc, List.singleton_append]

/-- A list of keywords that the parameters do not take is rejected at one of them, whatever the
values are. -/
theorem bindArgs_named_of_not_open (host : Host m) (function : String) (count : Nat)
    (hnames : (params.map (·.name)).Nodup) {taken : List String} {named : List (String × Expr)}
    (hopen : ¬Open (params.map (·.name)) taken (Keyed.keys named)) :
    ∃ n fault, ∀ b, Taken params b taken →
      bindArgs host function params count b (named.map fun arg => ⟨some arg.1, arg.2⟩) = (do
        let _ ← evalList host ((named.map Prod.snd).take n)
        throw (.invalidArgument function fault)) := by
  induction named generalizing taken with
  | nil => exact absurd open_nil hopen
  | cons arg named ih =>
      obtain ⟨keyword, e⟩ := arg
      by_cases hknown : keyword ∈ params.map (·.name)
      · by_cases hfree : keyword ∈ taken
        · refine ⟨1, .boundTwice keyword, fun b htaken => bindArgs_cons_of_error fun value => ?_⟩
          rw [Binder.bind, Binder.keyword_eq hnames, if_neg (not_not.mpr hknown),
            if_pos ((htaken keyword).mp hfree)]
        · have hclosed : ¬Open (params.map (·.name)) (taken ++ [keyword]) (Keyed.keys named) :=
            fun hrest => hopen (open_cons_iff.mpr ⟨hknown, hfree, hrest⟩)
          obtain ⟨n, fault, hrest⟩ := ih hclosed
          refine ⟨n + 1, fault, fun b htaken => ?_⟩
          rw [List.map_cons,
            bindArgs_cons_of_ok (bind_keyword_of_open hnames htaken hknown hfree),
            List.map_cons, List.take_succ_cons, evalList]
          simp only [bind_assoc, pure_bind]
          refine congrArg (e.eval host >>= ·) (funext fun value => ?_)
          exact hrest _ (htaken.append keyword value)
      · refine ⟨1, .unknownParameter keyword, fun b _ => bindArgs_cons_of_error fun value => ?_⟩
        rw [Binder.bind, Binder.keyword_eq hnames, if_pos hknown]

theorem ensures_evalList (values : List Expr) :
    Ensures (evalList host values) fun found => found.length = values.length := by
  induction values with
  | nil => exact .pure rfl
  | cons e values ih =>
      exact .bind_of fun value => ih.bind fun found hlength => .pure (congrArg (· + 1) hlength)

/-- A call has bound its positional arguments, and taken as many parameters. -/
structure Stage (host : Host m) (function : String) (params : List Parameter) (count : Nat)
    (values : List Expr) (next : List Value → Binder) : Prop where
  run : ∀ args, bindArgs host function params count .empty (values.map (⟨none, ·⟩) ++ args) = (do
    let found ← evalList host values
    bindArgs host function params count (next found) args)
  taken : ∀ found : List Value, found.length = values.length →
    Taken params (next found) ((params.map (·.name)).take values.length)

variable {a : ArgumentList Expr} {next : List Value → Binder}

/-- The keywords of a call decide whether it is accepted. -/
theorem Stage.bindArgs (h : Stage host function params count a.positional next)
    (hnames : (params.map (·.name)).Nodup) :
    (Open (params.map (·.name)) ((params.map (·.name)).take a.positional.length)
        (Keyed.keys a.named) →
      Expr.bindArgs host function params count .empty a.toList = (do
        let v ← a.evaluated host
        let b := next v.positional
        return { b with frame := ⟨b.frame.bindings ++ v.named⟩ })) ∧
    (¬Open (params.map (·.name)) ((params.map (·.name)).take a.positional.length)
        (Keyed.keys a.named) →
      ∃ n fault, Expr.bindArgs host function params count .empty a.toList = (do
        let _ ← evalList host (a.values.take n)
        throw (.invalidArgument function fault))) := by
  have hlengths : Ensures (evalList host a.positional) fun found =>
      found.length = a.positional.length := ensures_evalList a.positional
  constructor
  · intro hopen
    rw [ArgumentList.toList, h.run, ArgumentList.evaluated, bind_assoc]
    refine hlengths.bind_congr fun found hlength => ?_
    rw [bindArgs_named hnames (h.taken found hlength) hopen]
    simp only [bind_assoc, pure_bind]
  · intro hopen
    obtain ⟨n, fault, hnamed⟩ := bindArgs_named_of_not_open host function count hnames hopen
    refine ⟨a.positional.length + n, fault, ?_⟩
    rw [ArgumentList.toList, h.run, ArgumentList.values, List.take_length_add_append,
      evalList_append]
    simp only [bind_assoc, pure_bind]
    refine hlengths.bind_congr fun found hlength => ?_
    exact hnamed _ (h.taken found hlength)

/-- Plain parameters are bound one by one. -/
theorem stage_plain (hnames : (params.map (·.name)).Nodup) {values : List Expr}
    (hfew : values.length ≤ params.length)
    (hplain : ∀ p ∈ params.take values.length, p.variadic = false) :
    Stage host function params count values fun found =>
      ⟨⟨(params.map (·.name)).zip found⟩, values.length, none⟩ := by
  constructor
  · exact fun args => bindArgs_first hnames args hfew hplain
  · intro found hlength name
    rw [Keyed.keys_zip, hlength, or_self]

/-- The first argument that comes to a variadic parameter. -/
theorem bind_first_collected {plain : List Parameter} {rest : Parameter}
    (hrest : rest.variadic = true) {found : List Value} (hfound : found.length = plain.length)
    (value : Value) :
    (⟨⟨((plain ++ [rest]).map (·.name)).zip found⟩, plain.length, none⟩ : Binder).bind
        (plain ++ [rest]) count none value =
      .ok ⟨⟨(plain.map (·.name)).zip found⟩, plain.length + 1, some (rest.name, [value])⟩ := by
  have hget : (plain ++ [rest])[plain.length]? = some rest := List.getElem?_concat_length
  have hzip : ((plain ++ [rest]).map (·.name)).zip found = (plain.map (·.name)).zip found := by
    rw [List.map_append, zip_append_of_length_le _ (by rw [hfound, List.length_map])]
  rw [Binder.bind, Binder.positional, hzip]
  simp only [hget, hrest, if_true]

/-- A variadic parameter collects what is behind the plain ones. -/
theorem stage_collecting {plain : List Parameter} {rest : Parameter} {values : List Expr}
    (hnames : ((plain ++ [rest]).map (·.name)).Nodup)
    (hplain : ∀ p ∈ plain, p.variadic = false) (hrest : rest.variadic = true)
    (hmany : plain.length < values.length) :
    Stage host function (plain ++ [rest]) count values fun found =>
      ⟨⟨(plain.map (·.name)).zip found⟩, plain.length + 1,
        some (rest.name, found.drop plain.length)⟩ := by
  constructor
  · intro args
    obtain ⟨first, e, more, rfl, hfirst⟩ := exists_append_cons hmany
    have hlengths : Ensures (evalList host first) fun found => found.length = plain.length :=
      hfirst ▸ ensures_evalList first
    have htake : (plain ++ [rest]).take first.length = plain := by rw [hfirst, List.take_left]
    rw [List.map_append, List.map_cons, List.append_assoc, List.cons_append,
      bindArgs_first hnames _ (by simp [hfirst]) (by rwa [htake]), evalList_append]
    simp only [bind_assoc, pure_bind, evalList]
    refine hlengths.bind_congr fun found hfound => ?_
    -- the first argument that comes to the variadic parameter, and those behind it
    rw [hfirst, bindArgs_cons_of_ok (bind_first_collected hrest hfound)]
    refine congrArg (e.eval host >>= ·) (funext fun value => ?_)
    rw [bindArgs_collected rfl]
    refine congrArg (evalList host more >>= ·) (funext fun others => ?_)
    have hlength : (plain.map (·.name)).length = found.length := by rw [List.length_map, hfound]
    have hzip := zip_append_of_length_eq (value :: others) hlength
    rw [hzip, List.drop_left' hfound, List.singleton_append]
  · intro found hlength name
    have hall : ((plain ++ [rest]).map (·.name)).length ≤ plain.length + 1 := by simp
    have hall' : ((plain ++ [rest]).map (·.name)).length ≤ values.length := by
      rw [List.length_map, List.length_append, List.length_singleton]
      omega
    rw [List.take_of_length_le hall, List.take_of_length_le hall', Keyed.keys_zip]
    refine ⟨.inl, fun h => h.elim id fun hmem => ?_⟩
    rw [List.map_append]
    exact List.mem_append_left _ (List.mem_of_mem_take hmem)

/-- More positional arguments than plain parameters are not bound. -/
theorem bindArgs_tooMany (hnames : (params.map (·.name)).Nodup)
    (hplain : ∀ p ∈ params, p.variadic = false) (hmany : params.length < a.positional.length) :
    ∃ n fault, Expr.bindArgs host function params count .empty a.toList = (do
      let _ ← evalList host (a.values.take n)
      throw (.invalidArgument function fault)) := by
  refine ⟨params.length + 1, .tooMany params.length count, ?_⟩
  obtain ⟨positional, named⟩ := a
  obtain ⟨first, e, more, rfl, hfirst⟩ := exists_append_cons hmany
  have htake : ArgumentList.values ⟨first ++ e :: more, named⟩ =
      first ++ [e] ++ (more ++ named.map Prod.snd) := by
    simp [ArgumentList.values]
  have hbind (found : List Value) (value : Value) :
      (⟨⟨(params.map (·.name)).zip found⟩, first.length, none⟩ : Binder).bind params count none
        value = .error (.tooMany params.length count) := by
    rw [Binder.bind, Binder.positional, hfirst]
    simp only [List.getElem?_eq_none le_rfl]
  rw [htake, List.take_left' (by simp [hfirst]), evalList_append, ArgumentList.toList,
    List.map_append, List.map_cons, List.append_assoc, List.cons_append,
    bindArgs_first hnames _ hfirst.le fun p hp => hplain p (List.mem_of_mem_take hp)]
  simp only [bind_assoc, pure_bind, bindArgs_cons_of_error (hbind _)]

theorem bindArgs_of_fits (hnames : (params.map (·.name)).Nodup)
    (hplain : ∀ p ∈ params, p.variadic = false) (h : a.Fits (params.map (·.name))) :
    Binder.toFrame <$> Expr.bindArgs host function params count .empty a.toList =
      (fun v => ⟨v.bindings (params.map (·.name))⟩) <$> a.evaluated host := by
  have hfew : a.positional.length ≤ params.length := by simpa using h.few
  have hstage : Stage host function params count a.positional _ :=
    stage_plain hnames hfew fun p hp => hplain p (List.mem_of_mem_take hp)
  rw [(hstage.bindArgs hnames).1 h.toOpen]
  simp only [map_eq_pure_bind, bind_assoc, pure_bind]
  rfl

theorem bindArgs_of_not_fits (hnames : (params.map (·.name)).Nodup)
    (hplain : ∀ p ∈ params, p.variadic = false) (h : ¬a.Fits (params.map (·.name))) :
    ∃ n fault, Expr.bindArgs host function params count .empty a.toList = (do
      let _ ← evalList host (a.values.take n)
      throw (.invalidArgument function fault)) := by
  by_cases hfew : a.positional.length ≤ params.length
  · have hstage : Stage host function params count a.positional _ :=
      stage_plain hnames hfew fun p hp => hplain p (List.mem_of_mem_take hp)
    exact (hstage.bindArgs hnames).2 fun hopen => h ⟨hopen, by rwa [List.length_map]⟩
  · exact bindArgs_tooMany hnames hplain (Nat.not_le.mp hfew)

/-! ### Variadic parameters -/

section

variable {plain : List Parameter} {rest : Parameter}

theorem ensures_evaluated (a : ArgumentList Expr) :
    Ensures (a.evaluated host) fun v =>
      v.positional.length = a.positional.length ∧ (a.named = [] → v.named = []) := by
  refine (ensures_evalList a.positional).bind fun positional hlength => .bind_of fun named => ?_
  refine .pure ⟨hlength, fun hnone => ?_⟩
  rw [hnone]
  rfl

theorem stage_few (hnames : ((plain ++ [rest]).map (·.name)).Nodup)
    (hplain : ∀ p ∈ plain, p.variadic = false) {values : List Expr}
    (hfew : values.length ≤ plain.length) :
    Stage host function (plain ++ [rest]) count values fun found =>
      ⟨⟨((plain ++ [rest]).map (·.name)).zip found⟩, values.length, none⟩ := by
  refine stage_plain hnames (by rw [List.length_append]; omega) ?_
  rw [List.take_append_of_le_length hfew]
  exact fun p hp => hplain p (List.mem_of_mem_take hp)

/-- The keywords of a call decide whether it is accepted, where a variadic parameter collects. -/
theorem bindArgs_of_not_open (hnames : ((plain ++ [rest]).map (·.name)).Nodup)
    (hplain : ∀ p ∈ plain, p.variadic = false) (hrest : rest.variadic = true)
    (h : ¬Open ((plain ++ [rest]).map (·.name))
      (((plain ++ [rest]).map (·.name)).take a.positional.length) (Keyed.keys a.named)) :
    ∃ n fault, Expr.bindArgs host function (plain ++ [rest]) count .empty a.toList = (do
      let _ ← evalList host (a.values.take n)
      throw (.invalidArgument function fault)) := by
  by_cases hfew : a.positional.length ≤ plain.length
  · have hstage : Stage host function (plain ++ [rest]) count a.positional _ :=
      stage_few hnames hplain hfew
    exact (hstage.bindArgs hnames).2 h
  · have hstage : Stage host function (plain ++ [rest]) count a.positional _ :=
      stage_collecting hnames hplain hrest (Nat.not_le.mp hfew)
    exact (hstage.bindArgs hnames).2 h

/-- Nothing is collected from as many positional arguments as there are plain parameters. -/
theorem toFrame_bindArgs_few (hnames : ((plain ++ [rest]).map (·.name)).Nodup)
    (hplain : ∀ p ∈ plain, p.variadic = false) (hfew : a.positional.length ≤ plain.length)
    (h : Open ((plain ++ [rest]).map (·.name))
      (((plain ++ [rest]).map (·.name)).take a.positional.length) (Keyed.keys a.named)) :
    Binder.toFrame <$> Expr.bindArgs host function (plain ++ [rest]) count .empty a.toList =
      (fun v => ⟨v.collected (plain.map (·.name)) rest.name⟩) <$> a.evaluated host := by
  have hstage : Stage host function (plain ++ [rest]) count a.positional _ :=
    stage_few hnames hplain hfew
  rw [(hstage.bindArgs hnames).1 h]
  simp only [map_eq_pure_bind, bind_assoc, pure_bind]
  refine (ensures_evaluated a).bind_congr fun v hv => ?_
  have hfew' : v.positional.length ≤ (plain.map (·.name)).length := by
    rwa [hv.1, List.length_map]
  rw [ArgumentList.collected, if_neg (Nat.not_lt.mpr hfew'), List.append_nil, List.map_append,
    zip_append_of_length_le _ hfew']
  rfl

/-- More positional arguments are collected, and leave no parameter for keywords. -/
theorem toFrame_bindArgs_many (hnames : ((plain ++ [rest]).map (·.name)).Nodup)
    (hplain : ∀ p ∈ plain, p.variadic = false) (hrest : rest.variadic = true)
    (hmany : plain.length < a.positional.length)
    (h : Open ((plain ++ [rest]).map (·.name))
      (((plain ++ [rest]).map (·.name)).take a.positional.length) (Keyed.keys a.named)) :
    Binder.toFrame <$> Expr.bindArgs host function (plain ++ [rest]) count .empty a.toList =
      (fun v => ⟨v.collected (plain.map (·.name)) rest.name⟩) <$> a.evaluated host := by
  have hstage : Stage host function (plain ++ [rest]) count a.positional _ :=
    stage_collecting hnames hplain hrest hmany
  rw [(hstage.bindArgs hnames).1 h]
  have hnone : a.named = [] := by
    have hlength : ((plain ++ [rest]).map (·.name)).length ≤ a.positional.length := by
      rw [List.length_map, List.length_append, List.length_singleton]
      omega
    rw [List.take_of_length_le hlength] at h
    exact List.map_eq_nil_iff.mp h.eq_nil
  have hfresh (found : List Value) :
      rest.name ∉ Keyed.keys ((plain.map (·.name)).zip found ++ []) := by
    rw [List.map_append, List.nodup_append] at hnames
    rw [List.append_nil, Keyed.keys_zip]
    exact fun hmem =>
      hnames.2.2 _ (List.mem_of_mem_take hmem) _ (List.mem_singleton_self _) rfl
  simp only [map_eq_pure_bind, bind_assoc, pure_bind]
  refine (ensures_evaluated a).bind_congr fun v hv => ?_
  have hmany' : (plain.map (·.name)).length < v.positional.length := by
    rwa [hv.1, List.length_map]
  rw [ArgumentList.collected, if_pos hmany', hv.2 hnone, Binder.toFrame]
  dsimp only
  rw [Frame.define, Keyed.put_of_not_mem (hfresh _)]
  simp

theorem bindArgs_of_open (hnames : ((plain ++ [rest]).map (·.name)).Nodup)
    (hplain : ∀ p ∈ plain, p.variadic = false) (hrest : rest.variadic = true)
    (h : Open ((plain ++ [rest]).map (·.name))
      (((plain ++ [rest]).map (·.name)).take a.positional.length) (Keyed.keys a.named)) :
    Binder.toFrame <$> Expr.bindArgs host function (plain ++ [rest]) count .empty a.toList =
      (fun v => ⟨v.collected (plain.map (·.name)) rest.name⟩) <$> a.evaluated host := by
  by_cases hfew : a.positional.length ≤ plain.length
  · exact toFrame_bindArgs_few hnames hplain hfew h
  · exact toFrame_bindArgs_many hnames hplain hrest (Nat.not_le.mp hfew) h

end

end Expr

/-! ## Arguments with fixed values -/

namespace ArgumentList

/-- Arguments in place of others. -/
def map {α β : Type} (f : α → β) (a : ArgumentList α) : ArgumentList β :=
  ⟨a.positional.map f, a.named.map fun arg => (arg.1, f arg.2)⟩

theorem Fits.map {α β : Type} {names : List String} {a : ArgumentList α} (h : a.Fits names)
    (f : α → β) : (a.map f).Fits names := by
  have hlength : (a.map f).positional.length = a.positional.length := List.length_map _
  have hkeys : Keyed.keys (a.map f).named = Keyed.keys a.named := by
    simp [ArgumentList.map, Keyed.keys, Function.comp_def]
  exact ⟨by rw [hlength, hkeys]; exact h.toOpen, by rw [hlength]; exact h.few⟩

end ArgumentList

namespace Expr

variable {host : Host Id} {env : Environment} {value : Expr → Value}

theorem run_eval_of_ok {e : Expr} {v : Value} (h : Id.run (e.evaluate host env).run = .ok v) :
    (e.eval host).run.run env = pure (.ok v, env) := by
  obtain ⟨y, hy, -⟩ : Evaluation.SameIn env env (e.eval host) :=
    eval_sameIn host e fun _ _ _ => rfl
  have hv : Id.run y = .ok v := by
    rw [evaluate, hy] at h
    exact h
  rw [hy]
  exact congrArg (·, env) hv

theorem run_evalList_of_ok {values : List Expr}
    (h : ∀ e ∈ values, Id.run (e.evaluate host env).run = .ok (value e)) :
    (evalList host values).run.run env = pure (.ok (values.map value), env) := by
  induction values with
  | nil => rfl
  | cons e values ih =>
      obtain ⟨he, hvalues⟩ := List.forall_mem_cons.mp h
      rw [evalList, run_bind, run_eval_of_ok he, pure_bind]
      dsimp only
      rw [run_bind, ih hvalues, pure_bind]
      rfl

theorem run_evaluated_of_ok {a : ArgumentList Expr}
    (h : ∀ e ∈ a.values, Id.run (e.evaluate host env).run = .ok (value e)) :
    (a.evaluated host).run.run env = pure (.ok (a.map value), env) := by
  obtain ⟨hpositional, hnamed⟩ := List.forall_mem_append.mp h
  rw [ArgumentList.evaluated, run_bind, run_evalList_of_ok hpositional, pure_bind]
  dsimp only
  rw [run_bind, run_evalList_of_ok hnamed, pure_bind]
  dsimp only
  rw [Keyed.keys, List.map_map, List.zip_map']
  rfl

/-- A call binds the values of its arguments. -/
theorem exists_run_bindArgs_of_ok {function : String} {params : List Parameter} {count : Nat}
    {a : ArgumentList Expr} (hnames : (params.map (·.name)).Nodup)
    (hplain : ∀ p ∈ params, p.variadic = false) (hfits : a.Fits (params.map (·.name)))
    (h : ∀ e ∈ a.values, Id.run (e.evaluate host env).run = .ok (value e)) :
    ∃ b, Id.run ((bindArgs host function params count .empty a.toList).run.run env) =
        (.ok b, env) ∧ b.toFrame = ⟨(a.map value).bindings (params.map (·.name))⟩ := by
  have hbind : Binder.toFrame <$> bindArgs host function params count .empty a.toList =
      (fun v => ⟨v.bindings (params.map (·.name))⟩) <$> a.evaluated host :=
    bindArgs_of_fits hnames hplain hfits
  have hrun := congrArg (fun x : Evaluation Id Frame => Id.run (x.run.run env)) hbind
  simp only [ExceptT.run_map, StateT.run_map, run_evaluated_of_ok h] at hrun
  generalize (bindArgs host function params count .empty a.toList).run.run env = out at hrun ⊢
  obtain ⟨result, after⟩ := out
  obtain ⟨hresult, hafter⟩ := Prod.mk.inj hrun
  obtain ⟨b, hb, hframe⟩ := map_eq_ok hresult
  exact ⟨b, Prod.ext hb hafter, hframe⟩

end Expr

/-! ## The convention -/

/-- How arguments are bound to parameters of these names. -/
structure OneConvention (names : List String) : Prop where
  /-- A directive accepts the lists that fit, and no others. -/
  directive : ∀ {m : Type → Type} [Monad m] (d : Directive) (a : ArgumentList Payload),
    d.args = a.toList →
      (a.Fits names → (d.bind names : Expansion m _) = pure (a.bindings names)) ∧
      (¬a.Fits names → ∃ fault, (d.bind names : Expansion m _) = throw (d.invalid fault))
  /-- So does a function, whose arguments are evaluated up to where it rejects one. -/
  function : ∀ {m : Type → Type} [Monad m] [LawfulMonad m] (host : Host m) (function : String)
    (params : List Parameter) (a : ArgumentList Expr), params.map (·.name) = names →
    (∀ p ∈ params, p.variadic = false) →
      (a.Fits names →
        Binder.toFrame <$>
            Expr.bindArgs host function params a.toList.length .empty a.toList =
          (fun v => ⟨v.bindings names⟩) <$> a.evaluated host) ∧
      (¬a.Fits names →
        ∃ n fault, Expr.bindArgs host function params a.toList.length .empty a.toList = (do
          let _ ← Expr.evalList host (a.values.take n)
          throw (.invalidArgument function fault)))
  /-- Another parameter that is variadic collects what is left, and is then taken. -/
  variadic : ∀ {m : Type → Type} [Monad m] [LawfulMonad m] (host : Host m) (function : String)
    (plain : List Parameter) (rest : Parameter) (a : ArgumentList Expr),
    plain.map (·.name) = names → (∀ p ∈ plain, p.variadic = false) → rest.variadic = true →
    rest.name ∉ names →
      (a.FitsCollecting names rest.name →
        Binder.toFrame <$>
            Expr.bindArgs host function (plain ++ [rest]) a.toList.length .empty a.toList =
          (fun v => ⟨v.collected names rest.name⟩) <$> a.evaluated host) ∧
      (¬a.FitsCollecting names rest.name →
        ∃ n fault,
          Expr.bindArgs host function (plain ++ [rest]) a.toList.length .empty a.toList = (do
            let _ ← Expr.evalList host (a.values.take n)
            throw (.invalidArgument function fault)))
  /-- The order of the keywords does not matter. -/
  reordered : ∀ {α : Type} (a a' : ArgumentList α), a.positional = a'.positional →
    a.named.Perm a'.named →
      (a.Fits names ↔ a'.Fits names) ∧
      (a.Fits names → ∀ name,
        Keyed.get? (a.bindings names) name = Keyed.get? (a'.bindings names) name)
  /-- Nor does it to a function, where all arguments have values that do not change. -/
  function_reordered : ∀ (host : Host Id) (function : String) (params : List Parameter)
    (a a' : ArgumentList Expr) (env : Environment), params.map (·.name) = names →
    (∀ p ∈ params, p.variadic = false) → a.Fits names → a.positional = a'.positional →
    a.named.Perm a'.named → (∀ e ∈ a.values, ∃ v, Id.run (e.evaluate host env).run = .ok v) →
      ∃ b b' : Binder,
        Id.run ((Expr.bindArgs host function params a.toList.length .empty a.toList).run.run env) =
          (.ok b, env) ∧
        Id.run ((Expr.bindArgs host function params a'.toList.length .empty a'.toList).run.run
          env) = (.ok b', env) ∧
        ∀ name, b.toFrame.get? name = b'.toFrame.get? name

/-- **Functions and directives have one calling convention.** -/
theorem one_convention {names : List String} (hnames : names.Nodup) : OneConvention names := by
  constructor
  case directive =>
    intro m _ d a hargs
    unfold Directive.bind
    rw [hargs]
    constructor
    · intro h
      rw [Directive.bindArgs_of_fits hnames h]
      rfl
    · intro h
      obtain ⟨fault, hfault⟩ := Directive.bindArgs_of_not_fits hnames h
      rw [hfault]
      exact ⟨fault, rfl⟩
  case function =>
    rintro m _ _ host function params a rfl hplain
    exact ⟨Expr.bindArgs_of_fits hnames hplain, Expr.bindArgs_of_not_fits hnames hplain⟩
  case variadic =>
    rintro m _ _ host function plain rest a rfl hplain hrest hfresh
    have hall : (plain ++ [rest]).map (·.name) = plain.map (·.name) ++ [rest.name] :=
      List.map_append
    have hnodup : ((plain ++ [rest]).map (·.name)).Nodup := by
      rw [hall, List.nodup_append]
      refine ⟨hnames, List.nodup_singleton _, fun name hname other hother heq => ?_⟩
      rw [heq, List.mem_singleton.mp hother] at hname
      exact hfresh hname
    unfold ArgumentList.FitsCollecting
    rw [← hall]
    exact ⟨Expr.bindArgs_of_open hnodup hplain hrest, Expr.bindArgs_of_not_open hnodup hplain hrest⟩
  case reordered =>
    intro α a a' hpositional hnamed
    refine ⟨⟨fun h => h.reordered hpositional hnamed, fun h => ?_⟩, fun h => ?_⟩
    · exact h.reordered hpositional.symm hnamed.symm
    · exact h.get?_reordered hnames hpositional hnamed
  case function_reordered =>
    rintro host function params a a' env rfl hplain hfits hpositional hnamed hvalues
    choose! value hvalue using hvalues
    have hvalue' : ∀ e ∈ a'.values, Id.run (e.evaluate host env).run = .ok (value e) := by
      intro e he
      have hperm : a'.values.Perm a.values := by
        rw [ArgumentList.values, ArgumentList.values, hpositional]
        exact (hnamed.symm.map Prod.snd).append_left _
      exact hvalue e (hperm.mem_iff.mp he)
    obtain ⟨b, hb, hframe⟩ := Expr.exists_run_bindArgs_of_ok hnames hplain hfits hvalue
    obtain ⟨b', hb', hframe'⟩ := Expr.exists_run_bindArgs_of_ok hnames hplain
      (hfits.reordered hpositional hnamed) hvalue'
    refine ⟨b, b', hb, hb', fun name => ?_⟩
    have hpositional' : (a.map value).positional = (a'.map value).positional :=
      congrArg (List.map value) hpositional
    have hnamed' : (a.map value).named.Perm (a'.map value).named := hnamed.map _
    rw [hframe, hframe']
    exact (hfits.map value).get?_reordered hnames hpositional' hnamed' name

/-- A separator that is given by its name, and once more by its place; and a function that collects
what is in front of it. -/
theorem one_convention_of_separator :
    let host : Host Id := ⟨fun _ => .error .notFound, fun _ => false, fun _ => false, fun _ => 0⟩
    let plain : List Parameter := [⟨"arr", none, false⟩, ⟨"sep", none, false⟩]
    let e (n : Int64) : Expr := .literal ⟨.integer, "", .start⟩ (.int n) none
    let a : ArgumentList Expr := ⟨[e 1], [("sep", e 2)]⟩
    let twice : ArgumentList Expr := ⟨[e 1, e 2], [("sep", e 3)]⟩
    let more : ArgumentList Expr := ⟨[e 1, e 2, e 3, e 4], []⟩
    Binder.toFrame <$> Expr.bindArgs host "f" plain 2 .empty a.toList =
        (fun v => ⟨v.bindings ["arr", "sep"]⟩) <$> a.evaluated host ∧
      (∃ n fault, Expr.bindArgs host "f" plain 3 .empty twice.toList = (do
        let _ ← Expr.evalList host (twice.values.take n)
        throw (.invalidArgument "f" fault))) ∧
      Binder.toFrame <$> Expr.bindArgs host "f" (plain ++ [⟨"rest", none, true⟩]) 4 .empty
          more.toList =
        (fun v => ⟨v.collected ["arr", "sep"] "rest"⟩) <$> more.evaluated host := by
  intro host plain e a twice more
  have h : OneConvention ["arr", "sep"] := one_convention (by decide)
  obtain ⟨hfits, -⟩ := h.function host "f" plain a rfl (by decide)
  obtain ⟨-, hrejects⟩ := h.function host "f" plain twice rfl (by decide)
  obtain ⟨hcollects, -⟩ := h.variadic host "f" plain ⟨"rest", none, true⟩ more rfl (by decide) rfl
    (by decide)
  exact ⟨hfits (by decide), hrejects (by decide), hcollects (by decide)⟩

end ConfigLang
