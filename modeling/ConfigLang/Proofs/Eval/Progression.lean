import Mathlib
import ConfigLang.Proofs.Eval.Calls

/-!
# Progressions

`seq(first, last, step)` travels from one integer toward another, in strides of the magnitude of the
step.  The travel is one over all integers: the item at `k` is `first + k * d`, and there is one as
long as that is strictly before the end (`Progression`), although it is gone through by additions
that may not fit (`progression_run`).

The least integer has no magnitude that fits, and the next smaller one is taken for it, so that the
travel is the one that is asked for unless the least integer is the step and there is more than one
stride to go (`Expr.evaluate_seq`, `Expr.evaluate_seq_least`).
-/

namespace ConfigLang

open Running

/-! ## Travels over the integers -/

/-- An integer lies strictly before another one, in the direction of a stride. -/
def Ahead (d last x : Int) : Prop :=
  0 < d ∧ x < last ∨ d < 0 ∧ last < x

/-- Some items are all the integers `first + k * d` that lie strictly before `last`. -/
structure Progression (first last d : Int) (items : List Int64) : Prop where
  length : ∀ k : Nat, k < items.length ↔ Ahead d last (first + k * d)
  item : ∀ (k : Nat) (h : k < items.length), items[k].toInt = first + k * d

variable {first last d : Int} {items : List Int64}

/-- What a travel has passed lies before what it comes to. -/
theorem Ahead.earlier {x : Int} {k : Nat} (h : Ahead d last (x + k * d)) : Ahead d last x := by
  obtain ⟨hd, hlt⟩ | ⟨hd, hlt⟩ := h
  · have hway : 0 ≤ k * d := Int.mul_nonneg (Int.natCast_nonneg k) hd.le
    exact .inl ⟨hd, by omega⟩
  · have hway : k * d ≤ 0 := Int.mul_nonpos_of_nonneg_of_nonpos (Int.natCast_nonneg k) hd.le
    exact .inr ⟨hd, by omega⟩

namespace Progression

theorem nil (h : ¬Ahead d last first) : Progression first last d [] := by
  refine ⟨fun k => ?_, nofun⟩
  have hnone : ¬Ahead d last (first + k * d) := mt Ahead.earlier h
  simpa using hnone

/-- One stride, and the travel from there. -/
theorem cons {i : Int64} (h : Ahead d last i.toInt) (hrest : Progression (i.toInt + d) last d items) :
    Progression i.toInt last d (i :: items) := by
  have hstride (k : Nat) : i.toInt + (k + 1 : Nat) * d = i.toInt + d + k * d := by
    push_cast
    ring
  constructor
  · intro k
    cases k with
    | zero => simpa using h
    | succ k => rw [List.length_cons, Nat.succ_lt_succ_iff, hstride, hrest.length]
  · intro k hk
    cases k with
    | zero => simp
    | succ k => rw [List.getElem_cons_succ, hstride, hrest.item k (Nat.lt_of_succ_lt_succ hk)]

/-- A travel that has no second item. -/
theorem single {i : Int64} (h : Ahead d last i.toInt) (hover : ¬Ahead d last (i.toInt + d)) :
    Progression i.toInt last d [i] :=
  cons h (nil hover)

/-- Two travels that give the same items make the same strides, if they make any. -/
theorem stride_eq {d' : Int} (h : Progression first last d items)
    (h' : Progression first last d' items) (hnext : Ahead d last (first + d)) : d = d' := by
  have hlt : 1 < items.length := (h.length 1).mpr (by simpa using hnext)
  have hitem := (h.item 1 hlt).symm.trans (h'.item 1 hlt)
  simpa using hitem

/-- Where the first stride passes the end, its size does not matter. -/
theorem of_over {d' : Int} (h : Progression first last d items) (hdirection : 0 < d ↔ 0 < d')
    (hdirection' : d < 0 ↔ d' < 0) (hover : ¬Ahead d last (first + d))
    (hover' : ¬Ahead d' last (first + d')) : Progression first last d' items := by
  have hshort : ¬1 < items.length := fun hlt => hover (by simpa using (h.length 1).mp hlt)
  constructor
  · intro k
    cases k with
    | zero =>
        have hfirst := h.length 0
        simp only [Nat.cast_zero, Int.zero_mul, Int.add_zero, Ahead] at hfirst ⊢
        rw [hfirst, hdirection, hdirection']
    | succ k =>
        have hnone : ¬Ahead d' last (first + (k + 1 : Nat) * d') := by
          have hstride : first + (k + 1 : Nat) * d' = first + d' + k * d' := by
            push_cast
            ring
          rw [hstride]
          exact mt Ahead.earlier hover'
        exact iff_of_false (by omega) hnone
  · intro k hk
    obtain rfl : k = 0 := by omega
    simpa using h.item 0 hk

end Progression

/-! ## The loop -/

namespace Integer

theorem toInt_magnitude (n : Int64) : (magnitude n).toInt = min (n.toInt.natAbs : Int) greatest := by
  have hlow : -2 ^ 63 ≤ n.toInt := Int64.le_toInt n
  have hhigh : n.toInt < 2 ^ 63 := Int64.toInt_lt n
  have hgreatest := greatest_eq
  have hleast := least_eq
  unfold magnitude
  by_cases hfits : (n.toInt.natAbs : Int) ≤ greatest
  · obtain ⟨i, hi, htoInt⟩ := exists_ofInt? (by omega) hfits
    rw [hi, Option.getD_some, htoInt]
    omega
  · rw [ofInt?, if_neg (by omega), Option.getD_none, Int64.toInt_ofInt_of_le (by omega) (by omega)]
    omega

theorem toInt_neg_of_nonneg {n : Int64} (h : 0 ≤ n.toInt) : (-n).toInt = -n.toInt := by
  have hhigh : n.toInt < 2 ^ 63 := Int64.toInt_lt n
  rw [Int64.toInt_neg, Int.bmod_eq_of_le (by omega) (by omega)]

end Integer

/-- The stride of some size of a travel from one integer toward another. -/
def stride (first last size : Int) : Int :=
  if last < first then -size else size

namespace Builtin

open Integer

/-- The stride of the loop, which is not zero if the step is not. -/
theorem toInt_stride (first last step : Int64) :
    (if last < first then -magnitude step else magnitude step).toInt =
      stride first.toInt last.toInt (min (step.toInt.natAbs : Int) greatest) := by
  have hmagnitude := toInt_magnitude step
  have hgreatest := greatest_eq
  unfold stride
  by_cases hback : last < first
  · rw [if_pos hback, if_pos (Int64.lt_iff_toInt_lt.mp hback),
      toInt_neg_of_nonneg (by omega), hmagnitude]
  · rw [if_neg hback, if_neg (mt Int64.lt_iff_toInt_lt.mpr hback), hmagnitude]

/-- **The loop goes through a progression**, behind what it has gone through already. -/
theorem progression_run (step stop : Int64) (done : List Int64) (i : Int64) :
    ∃ items, progression step stop done i = done.reverse ++ items ∧
      Progression i.toInt stop.toInt step.toInt items := by
  have hahead (i : Int64) : 0 < step ∧ i < stop ∨ step < 0 ∧ stop < i ↔
      Ahead step.toInt stop.toInt i.toInt := by
    simp only [Ahead, Int64.lt_iff_toInt_lt, Int64.toInt_zero]
  have hlow : -2 ^ 63 ≤ stop.toInt := Int64.le_toInt stop
  have hhigh : stop.toInt < 2 ^ 63 := Int64.toInt_lt stop
  fun_induction progression step stop done i with
  | case1 done i hbefore next hnext ih =>
      obtain ⟨items, heq, hitems⟩ := ih
      rw [(toInt_of_ofInt? hnext).1] at hitems
      refine ⟨i :: items, ?_, .cons ((hahead i).mp hbefore) hitems⟩
      rw [heq, List.reverse_cons, List.append_assoc, List.singleton_append]
  | case2 done i hbefore hnext =>
      refine ⟨[i], List.reverse_cons, .single ((hahead i).mp hbefore) ?_⟩
      -- the next number is beyond all that fit, and so beyond the end
      rintro hnot
      have hfits : least ≤ i.toInt + step.toInt ∧ i.toInt + step.toInt ≤ greatest := by
        have hbefore := (hahead i).mp hbefore
        have hleast := least_eq
        have hgreatest := greatest_eq
        have hlow' : -2 ^ 63 ≤ i.toInt := Int64.le_toInt i
        have hhigh' : i.toInt < 2 ^ 63 := Int64.toInt_lt i
        unfold Ahead at hbefore hnot
        omega
      rw [ofInt?, if_pos hfits] at hnext
      cases hnext
  | case3 done i hbefore =>
      exact ⟨[], by simp, .nil (mt (hahead i).mpr hbefore)⟩

/-- The loop of a travel in a direction. -/
theorem seq_eq {c : Call} {first last step : Int64} (hfirst : c.get "first" = .ok (.int first))
    (hlast : c.get "last" = .ok (.int last)) (hstep : c.get "step" = .ok (.int step)) :
    seq c = if step = 0 then .error (c.invalid .zeroStep) else
      .ok (.slice ((progression (if last < first then -magnitude step else magnitude step) last []
        first).map .int)) := by
  simp only [seq, Call.int, hfirst, hlast, hstep, ok_bind]
  change (if step = 0 then _ else _) = _
  by_cases hzero : step = 0
  · rw [if_pos hzero, if_pos hzero]
    rfl
  · rw [if_neg hzero, if_neg hzero]
    rfl

end Builtin

/-! ## What is travelled -/

/-- What `seq` gives for three integers. -/
structure Travels (first last step : Int64) (result : Except EvalError Value) : Prop where
  /-- A travel needs strides. -/
  zero : step = 0 → result = .error (.invalidArgument "seq" .zeroStep)
  /-- They are of the magnitude of the step, or the greatest integer if that does not fit. -/
  progression : step ≠ 0 → ∃ items : List Int64, result = .ok (.slice (items.map .int)) ∧
    Progression first.toInt last.toInt
      (stride first.toInt last.toInt (min (step.toInt.natAbs : Int) Integer.greatest)) items
  /-- The items are those that the magnitude itself gives, unless it does not fit and the travel
  has more than one stride. -/
  asked : step ≠ 0 → ∀ items : List Int64, result = .ok (.slice (items.map .int)) →
    (Progression first.toInt last.toInt (stride first.toInt last.toInt step.toInt.natAbs) items ↔
      (step.toInt = Integer.least → (last.toInt - first.toInt).natAbs < 2 ^ 63))

/-- A size that does not fit shows if there is more than one stride to go. -/
theorem progression_stride_iff {first last step : Int64} {items : List Int64}
    (h : Progression first.toInt last.toInt
      (stride first.toInt last.toInt (min (step.toInt.natAbs : Int) Integer.greatest)) items) :
    Progression first.toInt last.toInt (stride first.toInt last.toInt step.toInt.natAbs) items ↔
      (step.toInt = Integer.least → (last.toInt - first.toInt).natAbs < 2 ^ 63) := by
  have hlow : -2 ^ 63 ≤ step.toInt := Int64.le_toInt step
  have hhigh : step.toInt < 2 ^ 63 := Int64.toInt_lt step
  have hleast := Integer.least_eq
  have hgreatest := Integer.greatest_eq
  by_cases hfits : step.toInt = Integer.least
  · have hcut : min (step.toInt.natAbs : Int) Integer.greatest = 2 ^ 63 - 1 := by omega
    have hsize : (step.toInt.natAbs : Int) = 2 ^ 63 := by omega
    rw [hcut] at h
    rw [hsize]
    constructor
    · intro h' _
      by_contra hfar
      have hnext : Ahead (stride first.toInt last.toInt (2 ^ 63 - 1)) last.toInt
          (first.toInt + stride first.toInt last.toInt (2 ^ 63 - 1)) := by
        unfold Ahead stride
        split <;> omega
      have heq := h.stride_eq h' hnext
      unfold stride at heq
      split at heq <;> omega
    · intro hnear
      have hnear := hnear hfits
      refine h.of_over ?up ?down ?passed ?passed'
      case up | down =>
        unfold stride
        split <;> omega
      case passed | passed' =>
        unfold Ahead stride
        split <;> omega
  · have hsame : min (step.toInt.natAbs : Int) Integer.greatest = step.toInt.natAbs := by omega
    rw [hsame] at h
    exact iff_of_true h fun hleast => absurd hleast hfits

namespace Expr

variable {host : Host Id} {env : Environment} {e₁ e₂ e₃ : Expr} {first last step : Int64}

/-- The function of the table. -/
def seq : Builtin :=
  .plain "seq" [.required "first", .required "last", .optional "step" "1" (.int 1)] Builtin.seq

/-- The call `seq(e₁, e₂, e₃)`. -/
def seqOf (e₁ e₂ e₃ : Expr) (pos : Position) : Expr :=
  .call "seq" [⟨none, e₁⟩, ⟨none, e₂⟩, ⟨none, e₃⟩] pos

theorem evaluate_seqOf (hfirst : Id.run (e₁.evaluate host env).run = .ok (.int first))
    (hlast : Id.run (e₂.evaluate host env).run = .ok (.int last))
    (hstep : Id.run (e₃.evaluate host env).run = .ok (.int step)) (pos : Position) :
    Id.run ((seqOf e₁ e₂ e₃ pos).evaluate host env).run =
      if step = 0 then .error (.invalidArgument "seq" .zeroStep) else
        .ok (.slice ((Builtin.progression
          (if last < first then -Integer.magnitude step else Integer.magnitude step) last []
          first).map .int)) := by
  let bound : Frame := ⟨[("first", .int first), ("last", .int last), ("step", .int step)]⟩
  have hvalues : HaveValues host env [e₁, e₂, e₃] [.int first, .int last, .int step] :=
    .cons hfirst (.cons hlast (.cons hstep .nil))
  have hcall : (seqOf e₁ e₂ e₃ pos).result host env = Builtin.seq ⟨"seq", env.push bound⟩ :=
    result_call_plain (rfl : Builtin.ofName? "seq" = some seq) (by decide) (by decide) hvalues rfl
      pos
  have hget (name : String) (value : Value) (h : bound.get? name = some value) :
      Call.get ⟨"seq", env.push bound⟩ name = .ok value :=
    Builtin.resolve_push h env
  change (seqOf e₁ e₂ e₃ pos).result host env = _
  rw [hcall]
  exact Builtin.seq_eq (hget _ _ rfl) (hget _ _ rfl) (hget _ _ rfl)

/-- **`seq` gives a progression**, in strides of the magnitude of the step as far as that fits. -/
theorem evaluate_seq (hfirst : Id.run (e₁.evaluate host env).run = .ok (.int first))
    (hlast : Id.run (e₂.evaluate host env).run = .ok (.int last))
    (hstep : Id.run (e₃.evaluate host env).run = .ok (.int step)) (pos : Position) :
    Travels first last step (Id.run ((seqOf e₁ e₂ e₃ pos).evaluate host env).run) := by
  rw [evaluate_seqOf hfirst hlast hstep]
  let d : Int64 := if last < first then -Integer.magnitude step else Integer.magnitude step
  obtain ⟨items, heq, hitems⟩ := Builtin.progression_run d last [] first
  rw [Builtin.toInt_stride] at hitems
  rw [List.reverse_nil, List.nil_append] at heq
  constructor
  case zero =>
    intro hzero
    rw [if_pos hzero]
  case progression =>
    intro hne
    rw [if_neg hne, heq]
    exact ⟨items, rfl, hitems⟩
  case asked =>
    intro hne items' hresult
    rw [if_neg hne, heq] at hresult
    have hmap : items.map Value.int = items'.map Value.int := by simpa using hresult
    obtain rfl : items = items' := List.map_injective_iff.mpr (fun _ _ => Value.int.inj) hmap
    exact progression_stride_iff hitems

/-- From 5 down to 0 in steps of 2. -/
theorem evaluate_seq_of_descent :
    let host : Host Id := ⟨fun _ => .error .notFound, fun _ => false, fun _ => false, fun _ => 0⟩
    let e (n : Int64) : Expr := .literal ⟨.integer, "", .start⟩ (.int n) none
    let result := Id.run ((seqOf (e 5) (e 0) (e 2) .start).evaluate host ⟨.empty, []⟩).run
    Travels 5 0 2 result ∧ result = .ok (.slice ([5, 3, 1].map .int)) := by
  intro host e result
  have hitems : Builtin.progression (-Integer.magnitude 2) 0 [] 5 = [5, 3, 1] := by decide +kernel
  have hresult := @evaluate_seqOf host ⟨.empty, []⟩ (e 5) (e 0) (e 2) 5 0 2 rfl rfl rfl .start
  rw [if_neg (by decide), if_pos (by decide), hitems] at hresult
  exact ⟨evaluate_seq rfl rfl rfl .start, hresult⟩

/-- The least integer is a step whose magnitude does not fit: from the least integer to the greatest
it makes three items of two. -/
theorem evaluate_seq_least :
    let host : Host Id := ⟨fun _ => .error .notFound, fun _ => false, fun _ => false, fun _ => 0⟩
    let e (n : Int64) : Expr := .literal ⟨.integer, "", .start⟩ (.int n) none
    let least : Int64 := -9223372036854775808
    let greatest : Int64 := 9223372036854775807
    let result := Id.run
      ((seqOf (e least) (e greatest) (e least) .start).evaluate host ⟨.empty, []⟩).run
    result = .ok (.slice ([least, -1, 9223372036854775806].map .int)) ∧
      ∀ items : List Int64, result = .ok (.slice (items.map .int)) →
        ¬Progression least.toInt greatest.toInt least.toInt.natAbs items := by
  intro host e least greatest result
  have hitems : Builtin.progression (Integer.magnitude least) greatest [] least =
      [least, -1, 9223372036854775806] := by decide +kernel
  have hresult := @evaluate_seqOf host ⟨.empty, []⟩ (e least) (e greatest) (e least) least greatest
    least rfl rfl rfl .start
  rw [if_neg (by decide), if_neg (by decide), hitems] at hresult
  refine ⟨hresult, fun items hgives h => ?_⟩
  have hlength : items.length = 3 := by
    have hmap : items.map Value.int = [least, -1, 9223372036854775806].map .int := by
      simpa using hgives.symm.trans hresult
    simpa using congrArg List.length hmap
  have hthird : Ahead least.toInt.natAbs greatest.toInt (least.toInt + 2 * least.toInt.natAbs) :=
    (h.length 2).mp (by omega)
  exact absurd hthird (by unfold Ahead; decide +kernel)

end Expr

end ConfigLang
