import Mathlib
import ConfigLang.Proofs.Eval.Calls
import ConfigLang.Proofs.Value.Order

/-!
# The extremes of values

`Builtin.extremeOf` goes through values with the best one so far, which a later one replaces only if
it surpasses it.  If the values compare with one another and there are no doubles, what it ends with
surpasses all values before its place and is not surpassed behind it (`Builtin.exists_extremeOf`).
It fails where a value does not compare with the best one so far (`Builtin.extremeOf_eq_error_iff`),
and so whenever two of them do not compare (`Builtin.comparable_of_extremeOf`).

A call finds the extreme of the values of its arguments, however these are grouped into slices
(`Expr.finds_extremes`).

## Strategy

* **Two relations.**  A value surpasses another, or withstands it.  The one implies the other, and
  both are kept along the order (`Surpasses.trans_withstands`), which is where the laws of the order
  come in.
* **The first extreme.**  `FirstExtreme` tells the value by its place.  It is one value of the
  sequence (`FirstExtreme.mem`), and another sequence of the same values has an equal one
  (`FirstExtreme.eq_or_order_eq`).
* **The loop.**  Its induction puts one value in front at a time: either the best one so far is
  surpassed and no longer matters (`FirstExtreme.cons_surpassed`), or the next value is dropped
  (`FirstExtreme.insert_withstood`).
* **Calls.**  What a call binds is gathered with slices spliced in (`extreme_of_bound`), so a group
  changes nothing (`extremeOf_append`).
-/

namespace ConfigLang

namespace Value

variable {keep : Ordering} {a b c v w : Value} {vs ws : List Value}

/-! ## Values that surpass others -/

/-- One value surpasses another if it compares to it as the values that are kept do. -/
def Surpasses (keep : Ordering) (v w : Value) : Prop :=
  v.order w = .ok keep

/-- One value withstands another if they compare, and the other does not surpass it. -/
def Withstands (keep : Ordering) (v w : Value) : Prop :=
  ∃ o, w.order v = .ok o ∧ o ≠ keep

theorem Surpasses.withstands (hkeep : keep ≠ .eq) (ha : DoubleFree a) (hb : DoubleFree b)
    (h : a.Surpasses keep b) : a.Withstands keep b := by
  refine ⟨keep.swap, order_swap ha.kind_ne hb.kind_ne h, ?_⟩
  cases keep <;> first | exact absurd rfl hkeep | decide

/-- What surpasses a value surpasses all that this value withstands. -/
theorem Surpasses.trans_withstands (hkeep : keep ≠ .eq) (ha : DoubleFree a) (hb : DoubleFree b)
    (hc : DoubleFree c) (hab : a.Surpasses keep b) (hbc : b.Withstands keep c) :
    a.Surpasses keep c := by
  obtain ⟨o, hcb, ho⟩ := hbc
  cases keep with
  | eq => exact absurd rfl hkeep
  | lt =>
    have hbc := order_swap hc.kind_ne hb.kind_ne hcb
    refine order_trans ha.kind_ne hb.kind_ne hc.kind_ne hab hbc nofun ?_
    cases o <;> first | exact absurd rfl ho | decide
  | gt =>
    have hba := order_swap ha.kind_ne hb.kind_ne hab
    have hca := order_trans hc.kind_ne hb.kind_ne ha.kind_ne hcb hba ho nofun
    have hlt : o.then Ordering.gt.swap = .lt := by
      cases o <;> first | exact absurd rfl ho | rfl
    rw [hlt] at hca
    exact order_swap hc.kind_ne ha.kind_ne hca

/-- Values of which neither surpasses the other are equal. -/
theorem order_eq_of_withstands (hkeep : keep ≠ .eq) (ha : DoubleFree a) (hb : DoubleFree b)
    (hab : a.Withstands keep b) (hba : b.Withstands keep a) : a.order b = .ok .eq := by
  obtain ⟨o, ho, hne⟩ := hba
  obtain ⟨o', ho', hne'⟩ := hab
  obtain rfl : o' = o.swap :=
    Except.ok.inj (ho'.symm.trans (order_swap ha.kind_ne hb.kind_ne ho))
  rw [ho]
  cases o <;> cases keep <;> simp_all

/-! ## Values that compare with one another -/

/-- Values without doubles that compare with one another. -/
structure Comparable (vs : List Value) : Prop where
  doubleFree : ∀ v ∈ vs, DoubleFree v
  compares : vs.Pairwise fun v w => ∃ o, v.order w = .ok o

theorem Comparable.sublist (h : Comparable vs) (hws : ws.Sublist vs) : Comparable ws :=
  ⟨fun v hv => h.doubleFree v (hws.subset hv), h.compares.sublist hws⟩

theorem Comparable.perm (h : Comparable vs) (hws : ws.Perm vs) : Comparable ws := by
  let R (v w : Value) : Prop := (DoubleFree v ∧ DoubleFree w) ∧ ∃ o, v.order w = .ok o
  have hsymm {v w : Value} : R v w → R w v := by
    rintro ⟨⟨hv, hw⟩, o, ho⟩
    exact ⟨⟨hw, hv⟩, o.swap, order_swap hv.kind_ne hw.kind_ne ho⟩
  have hvs : vs.Pairwise R := h.compares.imp_of_mem fun hv hw ho =>
    ⟨⟨h.doubleFree _ hv, h.doubleFree _ hw⟩, ho⟩
  exact ⟨fun v hv => h.doubleFree v (hws.subset hv),
    ((hws.pairwise_iff hsymm).mpr hvs).imp fun hR => hR.2⟩

/-- What compares with the first value of such a sequence compares with all of them. -/
theorem Comparable.exists_order (h : Comparable (b :: vs)) (ha : DoubleFree a) {o : Ordering}
    (ho : a.order b = .ok o) : ∀ w ∈ b :: vs, ∃ o', a.order w = .ok o' := by
  have hb := h.doubleFree b List.mem_cons_self
  obtain ⟨hall, -⟩ := List.pairwise_cons.mp h.compares
  refine List.forall_mem_cons.mpr ⟨⟨o, ho⟩, fun w hw => ?_⟩
  obtain ⟨o', ho'⟩ := hall w hw
  exact Value.exists_order ha.kind_ne hb.kind_ne (h.doubleFree w (.tail _ hw)).kind_ne ho ho'

theorem Comparable.cons (h : Comparable vs) (ha : DoubleFree a)
    (hall : ∀ w ∈ vs, ∃ o, a.order w = .ok o) : Comparable (a :: vs) :=
  ⟨List.forall_mem_cons.mpr ⟨ha, h.doubleFree⟩, List.pairwise_cons.mpr ⟨hall, h.compares⟩⟩

/-! ## The first extreme -/

/-- A value of a sequence surpasses all that stand before it, and withstands all behind it. -/
def FirstExtreme (keep : Ordering) (vs : List Value) (v : Value) : Prop :=
  ∃ before after, vs = before ++ v :: after ∧
    (∀ w ∈ before, v.Surpasses keep w) ∧ ∀ w ∈ after, v.Withstands keep w

namespace FirstExtreme

theorem mem (h : FirstExtreme keep vs v) : v ∈ vs := by
  obtain ⟨before, after, rfl, -, -⟩ := h
  exact List.mem_append_right _ List.mem_cons_self

/-- It withstands all others. -/
theorem withstands (hkeep : keep ≠ .eq) (hfree : ∀ w ∈ vs, DoubleFree w)
    (h : FirstExtreme keep vs v) : ∀ w ∈ vs, w = v ∨ v.Withstands keep w := by
  have hv := hfree v h.mem
  obtain ⟨before, after, rfl, hbefore, hafter⟩ := h
  intro w hw
  rcases List.mem_append.mp hw with hmem | hmem
  · exact .inr ((hbefore w hmem).withstands hkeep hv (hfree w hw))
  · rcases List.mem_cons.mp hmem with rfl | hmem
    · exact .inl rfl
    · exact .inr (hafter w hmem)

theorem eq_or_surpasses (h : FirstExtreme keep (w :: vs) v) : v = w ∨ v.Surpasses keep w := by
  obtain ⟨before, after, hsplit, hbefore, -⟩ := h
  cases before with
  | nil => exact .inl (List.cons.inj hsplit).1.symm
  | cons u before =>
    obtain ⟨rfl, -⟩ := List.cons.inj hsplit
    exact .inr (hbefore w List.mem_cons_self)

/-- Sequences of the same values have one extreme or equal ones. -/
theorem eq_or_order_eq (hkeep : keep ≠ .eq) (hfree : ∀ u ∈ vs, DoubleFree u)
    (h : FirstExtreme keep vs v) (h' : FirstExtreme keep ws w) (hws : ws.Perm vs) :
    w = v ∨ w.order v = .ok .eq := by
  have hw : w ∈ vs := hws.subset h'.mem
  rcases h.withstands hkeep hfree w hw with heq | hvw
  · exact .inl heq
  rcases h'.withstands hkeep (fun u hu => hfree u (hws.subset hu)) v (hws.symm.subset h.mem) with
    heq | hwv
  · exact .inl heq.symm
  · exact .inr (order_eq_of_withstands hkeep (hfree w hw) (hfree v h.mem) hwv hvw)

/-- A value in front that the next one surpasses is no extreme. -/
theorem cons_surpassed (hkeep : keep ≠ .eq) (hfree : ∀ u ∈ b :: w :: vs, DoubleFree u)
    (hw : w.Surpasses keep b) (h : FirstExtreme keep (w :: vs) v) :
    FirstExtreme keep (b :: w :: vs) v := by
  have hb := hfree b List.mem_cons_self
  have hw' := hfree w (.tail _ List.mem_cons_self)
  have hsurpasses : v.Surpasses keep b := by
    rcases h.eq_or_surpasses with rfl | hv
    · exact hw
    · exact hv.trans_withstands hkeep (hfree v (.tail _ h.mem)) hw' hb (hw.withstands hkeep hw' hb)
  obtain ⟨before, after, hsplit, hbefore, hafter⟩ := h
  refine ⟨b :: before, after, by rw [hsplit]; rfl, ?_, hafter⟩
  exact List.forall_mem_cons.mpr ⟨hsurpasses, hbefore⟩

/-- A value behind the first that does not surpass it is no extreme. -/
theorem insert_withstood (hkeep : keep ≠ .eq) (hfree : ∀ u ∈ b :: w :: vs, DoubleFree u)
    (hb : b.Withstands keep w) (h : FirstExtreme keep (b :: vs) v) :
    FirstExtreme keep (b :: w :: vs) v := by
  obtain ⟨before, after, hsplit, hbefore, hafter⟩ := h
  cases before with
  | nil =>
    obtain ⟨rfl, rfl⟩ := List.cons.inj hsplit
    exact ⟨[], w :: vs, rfl, nofun, List.forall_mem_cons.mpr ⟨hb, hafter⟩⟩
  | cons u before =>
    obtain ⟨rfl, rfl⟩ := List.cons.inj hsplit
    obtain ⟨hvb, hbefore⟩ := List.forall_mem_cons.mp hbefore
    have hsurpasses : v.Surpasses keep w :=
      hvb.trans_withstands hkeep (hfree v (by simp)) (hfree b (by simp)) (hfree w (by simp)) hb
    refine ⟨b :: w :: before, after, rfl, ?_, hafter⟩
    exact List.forall_mem_cons.mpr ⟨hvb, List.forall_mem_cons.mpr ⟨hsurpasses, hbefore⟩⟩

end FirstExtreme

end Value

/-! ## The loop -/

namespace Builtin

open Value

variable {keep o : Ordering} {best v w first : Value} {vs : List Value} {e : EvalError}

theorem extremeOf_cons (h : w.order best = .ok o) (vs : List Value) :
    extremeOf keep best (w :: vs) = extremeOf keep (if o = keep then w else best) vs := by
  rw [extremeOf, h]
  rfl

theorem extremeOf_cons_error (h : w.order best = .error e) (vs : List Value) :
    extremeOf keep best (w :: vs) = .error e := by
  rw [extremeOf, h]
  rfl

/-- What the loop ends with is the first extreme. -/
theorem exists_extremeOf (hkeep : keep ≠ .eq) (h : Comparable (best :: vs)) :
    ∃ v, extremeOf keep best vs = .ok v ∧ FirstExtreme keep (best :: vs) v := by
  induction vs generalizing best with
  | nil => exact ⟨best, rfl, [], [], rfl, nofun, nofun⟩
  | cons w vs ih =>
    have hbest := h.doubleFree best List.mem_cons_self
    have hw := h.doubleFree w (.tail _ List.mem_cons_self)
    obtain ⟨o, ho⟩ := (List.pairwise_cons.mp h.compares).1 w List.mem_cons_self
    have hswap : w.order best = .ok o.swap := order_swap hbest.kind_ne hw.kind_ne ho
    rw [extremeOf_cons hswap]
    split_ifs with hsurpassed
    · obtain ⟨v, hv, hfirst⟩ := ih (h.sublist (List.sublist_cons_self _ _))
      exact ⟨v, hv, hfirst.cons_surpassed hkeep h.doubleFree (hsurpassed ▸ hswap)⟩
    · obtain ⟨v, hv, hfirst⟩ := ih (h.sublist ((List.sublist_cons_self _ _).cons_cons _))
      exact ⟨v, hv, hfirst.insert_withstood hkeep h.doubleFree ⟨o.swap, hswap, hsurpassed⟩⟩

/-- Values without doubles that the loop gets to the end of compare with one another. -/
theorem comparable_of_extremeOf (hfree : ∀ u ∈ best :: vs, DoubleFree u)
    (h : extremeOf keep best vs = .ok v) : Comparable (best :: vs) := by
  induction vs generalizing best with
  | nil => exact ⟨hfree, List.pairwise_singleton _ _⟩
  | cons w vs ih =>
    obtain ⟨hbest, hw, hvs⟩ := (List.forall_mem_cons.mp hfree).imp id List.forall_mem_cons.mp
    cases ho : w.order best with
    | error e => cases (extremeOf_cons_error ho vs).symm.trans h
    | ok o =>
      have hswap : best.order w = .ok o.swap := order_swap hw.kind_ne hbest.kind_ne ho
      rw [extremeOf_cons ho] at h
      -- whichever of the two is kept, the other compares with it and so with all that follow
      split_ifs at h
      · have hrest : Comparable (w :: vs) := ih (List.forall_mem_cons.mpr ⟨hw, hvs⟩) h
        exact hrest.cons hbest (hrest.exists_order hbest hswap)
      · have hrest : Comparable (best :: vs) := ih (List.forall_mem_cons.mpr ⟨hbest, hvs⟩) h
        have hswapped : Comparable (w :: best :: vs) := hrest.cons hw (hrest.exists_order hw ho)
        exact hswapped.perm (.swap _ _ _)

/-- The loop over two lists goes on with what it found in the first. -/
theorem extremeOf_append (done rest : List Value) :
    extremeOf keep first (done ++ rest) =
      extremeOf keep first done >>= fun best => extremeOf keep best rest := by
  induction done generalizing first with
  | nil => rfl
  | cons w done ih =>
    cases hw : w.order first with
    | error e => rw [List.cons_append, extremeOf_cons_error hw, extremeOf_cons_error hw]; rfl
    | ok o => rw [List.cons_append, extremeOf_cons hw, extremeOf_cons hw, ih]

/-- The loop fails where a value does not compare with the best one before it, and only there. -/
theorem extremeOf_eq_error_iff :
    extremeOf keep first vs = .error e ↔
      ∃ done v rest best, vs = done ++ v :: rest ∧
        extremeOf keep first done = .ok best ∧ v.order best = .error e := by
  constructor
  · induction vs generalizing first with
    | nil => exact nofun
    | cons w vs ih =>
      intro h
      cases hw : w.order first with
      | error e' =>
        obtain rfl : e' = e := Except.error.inj ((extremeOf_cons_error hw vs).symm.trans h)
        exact ⟨[], w, vs, first, rfl, rfl, hw⟩
      | ok o =>
        rw [extremeOf_cons hw] at h
        obtain ⟨done, v, rest, best, rfl, hbest, hv⟩ := ih h
        exact ⟨w :: done, v, rest, best, rfl, by rw [extremeOf_cons hw, hbest], hv⟩
  · rintro ⟨done, v, rest, best, rfl, hbest, hv⟩
    rw [extremeOf_append, hbest]
    exact extremeOf_cons_error hv rest

/-- The loop runs over the values that a call binds, with slices spliced in. -/
theorem extreme_of_bound (function : String) (env : Environment) (vs : List Value) :
    extreme keep ⟨function, env.push ⟨[("args", .slice vs)]⟩⟩ =
      match vs.flatMap Call.spliced with
      | [] => .error (.missingArgument function "args")
      | v :: vs => extremeOf keep v vs := by
  have hget : Call.get ⟨function, env.push ⟨[("args", .slice vs)]⟩⟩ "args" = .ok (.slice vs) :=
    resolve_push rfl env
  rw [extreme, Call.flattened, Call.slice, hget]
  rfl

end Builtin

/-! ## Calls -/

namespace Expr

open Value

variable {host : Host Id} {env : Environment} {keep : Ordering} {name : String} {first : Value}
  {args : List (Argument Expr)} {vs rest : List Value}

/-- What holds of the result `r` of a function that finds the extreme of a sequence, which starts
with `first`. The sequence are the values that the function is given, with slices spliced in. -/
structure FindsExtreme (host : Host Id) (env : Environment) (name : String) (keep : Ordering)
    (first : Value) (rest : List Value) (r : Except EvalError Value) : Prop where
  /-- It is the first value that withstands all others. -/
  extreme : Comparable (first :: rest) →
    ∃ v, r = .ok v ∧ FirstExtreme keep (first :: rest) v ∧
      ∀ w ∈ first :: rest, w = v ∨ v.Withstands keep w
  /-- It does not matter how the sequence is grouped into slices. -/
  regrouped : ∀ {args vs}, Gathers host env "args" args vs →
    vs.flatMap Call.spliced = first :: rest → ∀ pos, (call name args pos).result host env = r
  /-- In another order the sequence has the same extreme or one that is equal to it. -/
  permuted : Comparable (first :: rest) → ∀ {args vs}, Gathers host env "args" args vs →
    (vs.flatMap Call.spliced).Perm (first :: rest) → ∀ pos, ∃ v v', r = .ok v ∧
      (call name args pos).result host env = .ok v' ∧ (v' = v ∨ v'.order v = .ok .eq)
  /-- Values without doubles have one only if they compare with one another. -/
  comparable : (∀ v ∈ first :: rest, DoubleFree v) → ∀ {v}, r = .ok v → Comparable (first :: rest)
  /-- It is an error where a value does not compare with the best one before it. -/
  fails : ∀ {e}, r = .error e ↔ ∃ done v behind best, rest = done ++ v :: behind ∧
    Builtin.extremeOf keep first done = .ok best ∧ v.order best = .error e

theorem result_extreme
    (hname : Builtin.ofName? name = some (.plain name [.rest "args"] (Builtin.extreme keep)))
    (hargs : Gathers host env "args" args vs) (hseq : vs.flatMap Call.spliced = first :: rest)
    (pos : Position) :
    (call name args pos).result host env = Builtin.extremeOf keep first rest := by
  have hne : vs ≠ [] := by
    rintro rfl
    cases hseq
  rw [result_call_rest hname hargs hne, Builtin.extreme_of_bound, hseq]

theorem findsExtreme_of_name (hkeep : keep ≠ .eq)
    (hname : Builtin.ofName? name = some (.plain name [.rest "args"] (Builtin.extreme keep)))
    (hargs : Gathers host env "args" args vs) (hseq : vs.flatMap Call.spliced = first :: rest)
    (pos : Position) :
    FindsExtreme host env name keep first rest ((call name args pos).result host env) := by
  rw [result_extreme hname hargs hseq]
  constructor
  case extreme =>
    intro h
    obtain ⟨v, hv, hfirst⟩ := Builtin.exists_extremeOf hkeep h
    exact ⟨v, hv, hfirst, hfirst.withstands hkeep h.doubleFree⟩
  case regrouped =>
    intro args' vs' hargs' hseq' pos'
    exact result_extreme hname hargs' hseq' pos'
  case permuted =>
    intro h args' vs' hargs' hperm pos'
    obtain ⟨first', rest', hseq'⟩ : ∃ first' rest', vs'.flatMap Call.spliced = first' :: rest' :=
      List.exists_cons_of_length_pos (hperm.length_eq ▸ Nat.succ_pos _)
    rw [hseq'] at hperm
    obtain ⟨v, hv, hfirst⟩ := Builtin.exists_extremeOf hkeep h
    obtain ⟨v', hv', hfirst'⟩ := Builtin.exists_extremeOf hkeep (h.perm hperm)
    refine ⟨v, v', hv, (result_extreme hname hargs' hseq' pos').trans hv', ?_⟩
    exact hfirst.eq_or_order_eq hkeep h.doubleFree hfirst' hperm
  case comparable => exact fun hfree _ hr => Builtin.comparable_of_extremeOf hfree hr
  case fails => exact Builtin.extremeOf_eq_error_iff

/-- **`min` and `max` find the extreme** of the values that they are given. -/
theorem finds_extremes (hargs : Gathers host env "args" args vs)
    (hseq : vs.flatMap Call.spliced = first :: rest) (pos : Position) :
    FindsExtreme host env "min" .lt first rest ((call "min" args pos).result host env) ∧
      FindsExtreme host env "max" .gt first rest ((call "max" args pos).result host env) :=
  ⟨findsExtreme_of_name (by decide) rfl hargs hseq pos,
    findsExtreme_of_name (by decide) rfl hargs hseq pos⟩

/-- A day, its midnight and the midnight before, of which the latter two stand in a slice. -/
theorem finds_extremes_of_midnights :
    let host : Host Id := ⟨fun _ => .error .notFound, fun _ => false, fun _ => false, fun _ => 0⟩
    let env : Environment := ⟨.empty, []⟩
    let e (v : Value) : Expr := .literal ⟨.date, "", .start⟩ v none
    let day : Calendar.Date := ⟨2024, 3, 2, by decide, by decide⟩
    let dayBefore : Calendar.Date := ⟨2024, 3, 1, by decide, by decide⟩
    let clock : Calendar.Clock := ⟨0, 0, 0, 0, by decide, by decide, by decide, by decide⟩
    let whole : Value := .moment (.date day)
    let midnight : Value := .moment (.dateTime day clock none)
    let earlier : Value := .moment (.dateTime dayBefore clock none)
    let args : List (Argument Expr) := [⟨none, e whole⟩, ⟨none, .array [e midnight, e earlier]⟩]
    let least := (call "min" args .start).result host env
    let greatest := (call "max" args .start).result host env
    Comparable [whole, midnight, earlier] ∧ least = .ok earlier ∧ greatest = .ok whole ∧
      FindsExtreme host env "min" .lt whole [midnight, earlier] least ∧
      FindsExtreme host env "max" .gt whole [midnight, earlier] greatest := by
  intro host env e day dayBefore clock whole midnight earlier args least greatest
  have hes : HaveValues host env [e whole, .array [e midnight, e earlier]]
      [whole, .slice [midnight, earlier]] := .cons rfl (.cons rfl .nil)
  have hargs : Gathers host env "args" args [whole, .slice [midnight, earlier]] := .each hes
  have hlast : Comparable [earlier] :=
    ⟨List.forall_mem_singleton.mpr (.moment _), List.pairwise_singleton _ _⟩
  have hmidnights : Comparable [midnight, earlier] :=
    hlast.cons (.moment _) (List.forall_mem_singleton.mpr ⟨_, rfl⟩)
  have hcomparable : Comparable [whole, midnight, earlier] :=
    hmidnights.cons (.moment _) (hmidnights.exists_order (.moment _) rfl)
  have horder {m n : Calendar.Moment} {o : Ordering} (h : m.order? n = some o) :
      order (.moment m) (.moment n) = .ok o := by
    rw [order]
    simp only [h]
  have hmidnight : midnight.order whole = .ok .eq := horder (by decide)
  have hearlier : earlier.order whole = .ok .lt := horder (by decide)
  have hextreme (keep : Ordering) (hkeep : .eq ≠ keep) :
      Builtin.extremeOf keep whole [midnight, earlier] =
        .ok (if .lt = keep then earlier else whole) := by
    rw [Builtin.extremeOf_cons hmidnight, if_neg hkeep, Builtin.extremeOf_cons hearlier]
    rfl
  exact ⟨hcomparable, (result_extreme rfl hargs rfl .start).trans (hextreme .lt (by decide)),
    (result_extreme rfl hargs rfl .start).trans (hextreme .gt (by decide)),
    finds_extremes hargs rfl .start⟩

end Expr

end ConfigLang
