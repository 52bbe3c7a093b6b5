import Mathlib
import ConfigLang.Value.Order

/-!
# Equality and order of values

Values that have an order come in families, and each of them has its place among those of its
family (`Value.standing?`).  Two values without doubles compare just as their places do
(`Value.toOption_order`), so the order is one of lists of numbers and texts, part by part.

Equality is the order where there is one, and goes item by item through slices, in which values that
cannot be compared are different.  It is an equivalence of all values without doubles
(`Value.coherent`).

## Strategy

* **Places.**  A `Rank` is a list that is compared part by part, so the laws of the order come from
  those of lists: `order_swap_iff`, `exists_order`, `order_trans`.
* **What has no place.**  Null and slices have none.  `toOption_equals` says that all other values
  are equal just if they compare as equal; nothing equals null but null (`null_equals_iff`), and a
  slice equals the slices with equal items (`slice_equals_iff`).
* **Slices.**  `equals_refl`, `equals_trans` and `equals_comm` are inductions over slices, in which
  items correspond one by one (`equalItems_iff`).
-/

namespace ConfigLang

open Calendar

namespace Value

/-! ## Families -/

/-- The families of values that have an order. Times of day are one of their own. -/
inductive Family where
  | bool
  | int
  | text
  | moment (isTime : Bool)
deriving DecidableEq

/-- Where a value stands in its family. -/
abbrev Rank := Int ×ₗ Nat ×ₗ String

def rank (number : Int) (nanos : Nat) (text : String) : Rank :=
  toLex (number, toLex (nanos, text))

theorem compare_rank (n n' : Int) (k k' : Nat) (s s' : String) :
    compare (rank n k s) (rank n' k' s') =
      (compare n n').then ((compare k k').then (compare s s')) := by
  simp only [rank, Prod.Lex.compare_def, compareLex, compareOn, ofLex_toLex]

/-- The family of a value, and where it stands there. -/
def standing? : Value → Option (Family × Rank)
  | bool p => some (.bool, rank p.toNat 0 "")
  | int n => some (.int, rank n.toInt 0 "")
  | text s => some (.text, rank 0 0 s)
  | moment m => some (.moment m.isTime, rank m.instant.seconds m.instant.nanos "")
  | null | double _ | slice _ => none

/-- The order of two values by where they stand, if they are of one family. -/
def familyOrder? (a b : Value) : Option Ordering := do
  let (f, r) ← a.standing?
  let (g, s) ← b.standing?
  if f = g then some (compare r s) else none

variable {a b c : Value} {o o' : Ordering}

/-- Values without doubles compare by where they stand in their families. -/
theorem toOption_order (ha : a.kind ≠ .double) (hb : b.kind ≠ .double) :
    (a.order b).toOption = a.familyOrder? b := by
  cases a <;> cases b
  case bool.bool p q => cases p <;> cases q <;> rfl
  case int.int m n => simp [order, familyOrder?, standing?, Except.toOption, compare_rank]
  case text.text s t =>
    have htext : compare (rank 0 0 s) (rank 0 0 t) =
        if s < t then .lt else if s = t then .eq else .gt := by
      rw [compare_rank]
      rfl
    simp only [order, familyOrder?, standing?, Except.toOption, Option.bind_eq_bind,
      Option.bind_some, if_pos, htext]
  case moment.moment m n =>
    by_cases h : m.isTime = n.isTime <;>
      simp [order, familyOrder?, standing?, Moment.order?, Instant.order, Except.toOption,
        compare_rank, h]
  all_goals first | rfl | exact absurd rfl ha | exact absurd rfl hb

theorem familyOrder?_eq_some :
    a.familyOrder? b = some o ↔
      ∃ f r s, a.standing? = some (f, r) ∧ b.standing? = some (f, s) ∧ compare r s = o := by
  unfold familyOrder?
  cases ha : a.standing? with
  | none => simp
  | some x =>
    cases hb : b.standing? with
    | none => simp
    | some y =>
      obtain ⟨f, r⟩ := x
      obtain ⟨g, s⟩ := y
      simp only [Option.bind_eq_bind, Option.bind_some, Option.some.injEq, Prod.mk.injEq]
      constructor
      · intro h
        by_cases hfg : f = g
        · rw [if_pos hfg] at h
          exact ⟨f, r, s, ⟨rfl, rfl⟩, ⟨hfg.symm, rfl⟩, Option.some.inj h⟩
        · rw [if_neg hfg] at h
          cases h
      · rintro ⟨_, _, _, ⟨rfl, rfl⟩, ⟨rfl, rfl⟩, rfl⟩
        rw [if_pos rfl]

theorem toOption_eq_some {ε α : Type} {x : Except ε α} {y : α} :
    x.toOption = some y ↔ x = .ok y := by
  cases x <;> simp [Except.toOption]

theorem order_eq_ok_iff (ha : a.kind ≠ .double) (hb : b.kind ≠ .double) :
    a.order b = .ok o ↔
      ∃ f r s, a.standing? = some (f, r) ∧ b.standing? = some (f, s) ∧ compare r s = o := by
  rw [← toOption_eq_some, toOption_order ha hb, familyOrder?_eq_some]

/-! ## The order -/

theorem order_swap (ha : a.kind ≠ .double) (hb : b.kind ≠ .double) (h : a.order b = .ok o) :
    b.order a = .ok o.swap := by
  obtain ⟨f, r, s, har, hbs, rfl⟩ := (order_eq_ok_iff ha hb).mp h
  exact (order_eq_ok_iff hb ha).mpr ⟨f, s, r, hbs, har, Std.OrientedCmp.eq_swap⟩

theorem order_swap_iff (ha : a.kind ≠ .double) (hb : b.kind ≠ .double) :
    a.order b = .ok o ↔ b.order a = .ok o.swap := by
  constructor
  · exact order_swap ha hb
  · intro h
    rw [← o.swap_swap]
    exact order_swap hb ha h

theorem toOption_order_comm (ha : a.kind ≠ .double) (hb : b.kind ≠ .double) :
    (b.order a).toOption = (a.order b).toOption.map Ordering.swap := by
  cases hab : a.order b with
  | ok o => rw [order_swap ha hb hab]; rfl
  | error =>
    cases hba : b.order a with
    | ok o => exact absurd (hab.symm.trans (order_swap hb ha hba)) nofun
    | error => rfl

/-- Values that compare with one value compare with each other. -/
theorem exists_order (ha : a.kind ≠ .double) (hb : b.kind ≠ .double) (hc : c.kind ≠ .double)
    (h : a.order b = .ok o) (h' : b.order c = .ok o') : ∃ o'', a.order c = .ok o'' := by
  obtain ⟨f, r, s, har, hbs, -⟩ := (order_eq_ok_iff ha hb).mp h
  obtain ⟨g, s', t, hbs', hct, -⟩ := (order_eq_ok_iff hb hc).mp h'
  obtain ⟨rfl, rfl⟩ := Prod.mk.inj (Option.some.inj (hbs.symm.trans hbs'))
  exact ⟨compare r t, (order_eq_ok_iff ha hc).mpr ⟨f, r, t, har, hct, rfl⟩⟩

/-- Of three places, each no further than the next, the first is before the last if one of them is
before the next. -/
theorem compare_then {r s t : Rank} (hrs : compare r s ≠ .gt) (hst : compare s t ≠ .gt) :
    compare r t = (compare r s).then (compare s t) := by
  cases h : compare r s with
  | gt => exact absurd h hrs
  | lt =>
    cases h' : compare s t with
    | gt => exact absurd h' hst
    | lt => exact Std.TransCmp.lt_trans h h'
    | eq => exact Std.TransCmp.lt_of_lt_of_eq h h'
  | eq => exact Std.TransCmp.congr_left h

theorem order_trans (ha : a.kind ≠ .double) (hb : b.kind ≠ .double) (hc : c.kind ≠ .double)
    (h : a.order b = .ok o) (h' : b.order c = .ok o') (hle : o ≠ .gt) (hle' : o' ≠ .gt) :
    a.order c = .ok (o.then o') := by
  obtain ⟨f, r, s, har, hbs, rfl⟩ := (order_eq_ok_iff ha hb).mp h
  obtain ⟨g, s', t, hbs', hct, rfl⟩ := (order_eq_ok_iff hb hc).mp h'
  obtain ⟨rfl, rfl⟩ := Prod.mk.inj (Option.some.inj (hbs.symm.trans hbs'))
  exact (order_eq_ok_iff ha hc).mpr ⟨f, r, t, har, hct, compare_then hle hle'⟩

/-! ## Values without doubles -/

/-- The values in which no double occurs, at any depth of slices. -/
inductive DoubleFree : Value → Prop where
  | null : DoubleFree null
  | bool (p : Bool) : DoubleFree (bool p)
  | int (n : Int64) : DoubleFree (int n)
  | text (s : String) : DoubleFree (text s)
  | moment (m : Moment) : DoubleFree (moment m)
  | slice {items : List Value} (h : ∀ v ∈ items, DoubleFree v) : DoubleFree (slice items)

theorem DoubleFree.kind_ne (h : DoubleFree a) : a.kind ≠ .double := by
  cases h <;> exact nofun

theorem kind_of_standing {x : Family × Rank} (h : a.standing? = some x) :
    a.kind ≠ .null ∧ a.kind ≠ .double ∧ a.kind ≠ .slice := by
  cases a <;> first | cases h; done | exact ⟨nofun, nofun, nofun⟩

/-! ## Equality -/

theorem equals_null_left (b : Value) : null.equals b = .ok (b.kind == .null) := by
  unfold equals
  rfl

theorem equals_null_right (a : Value) : a.equals null = .ok (a.kind == .null) := by
  cases a <;> (unfold equals; rfl)

theorem equals_slice (xs ys : List Value) :
    (slice xs).equals (slice ys) = .ok (equalItems xs ys) := by
  rw [equals]

/-- But for null and slices, equality is the order. -/
theorem toOption_equals (ha : a.kind ≠ .double) (hb : b.kind ≠ .double)
    (hnull : a.kind ≠ .null ∧ b.kind ≠ .null) (hslice : a.kind ≠ .slice ∨ b.kind ≠ .slice) :
    (a.equals b).toOption = (a.order b).toOption.map (· == .eq) := by
  unfold equals
  cases a <;> cases b
  case int.int m n =>
    have hiff : (m == n) = (compare m.toInt n.toInt == .eq) := by
      rw [Bool.eq_iff_iff, beq_iff_eq, beq_iff_eq, compare_eq_iff_eq, Int64.toInt_inj]
    exact congrArg some hiff
  case bool.bool p q => cases p <;> cases q <;> rfl
  case text.text s t =>
    simp only [order, Except.toOption, Option.map_some]
    split_ifs with hlt heq
    · simp [hlt.ne]
    · simp [heq]
    · simp [heq]
  case moment.moment m n =>
    dsimp only
    cases order (moment m) (moment n) <;> rfl
  case slice.slice => exact absurd hslice (by simp [kind])
  all_goals first
    | rfl
    | exact absurd rfl ha
    | exact absurd rfl hb
    | exact absurd rfl hnull.1
    | exact absurd rfl hnull.2

/-- Values that compare are equal if neither is before the other. -/
theorem equals_of_order (ha : a.kind ≠ .double) (hb : b.kind ≠ .double) (h : a.order b = .ok o) :
    a.equals b = .ok (o == .eq) := by
  obtain ⟨f, r, s, hfr, hfs, -⟩ := (order_eq_ok_iff ha hb).mp h
  have hka := kind_of_standing hfr
  have hkb := kind_of_standing hfs
  rw [← toOption_eq_some, toOption_equals ha hb ⟨hka.1, hkb.1⟩ (.inl hka.2.2), h]
  rfl

/-- Nothing equals null but null. -/
theorem null_equals_iff : null.equals b = .ok true ↔ b = null := by
  rw [equals_null_left]
  cases b <;> simp [kind]

/-- What stands in a family equals what stands at the same place there. -/
theorem equals_iff_standing {x : Family × Rank} (h : a.standing? = some x) (hb : b.kind ≠ .double) :
    a.equals b = .ok true ↔ b.standing? = some x := by
  have ha := kind_of_standing h
  by_cases hnull : b.kind = .null
  · obtain rfl : b = null := by cases b <;> first | rfl | cases hnull
    rw [equals_null_right]
    simp [ha.1, standing?]
  · rw [← toOption_eq_some, toOption_equals ha.2.1 hb ⟨ha.1, hnull⟩ (.inl ha.2.2),
      toOption_order ha.2.1 hb]
    simp only [Option.map_eq_some_iff, familyOrder?_eq_some, h]
    constructor
    · rintro ⟨o, ⟨f, r, s, hr, hs, rfl⟩, ho⟩
      rw [beq_iff_eq, compare_eq_iff_eq] at ho
      rw [hs, hr, ho]
    · intro hs
      exact ⟨.eq, ⟨x.1, x.2, x.2, rfl, hs, Std.ReflCmp.compare_self⟩, rfl⟩

theorem equalItems_cons (x y : Value) (xs ys : List Value) :
    equalItems (x :: xs) (y :: ys) = ((x.equals y).toOption.getD false && equalItems xs ys) := by
  rw [equalItems]
  cases x.equals y <;> rfl

theorem equalItems_iff {xs ys : List Value} :
    equalItems xs ys = true ↔ List.Forall₂ (fun x y => x.equals y = .ok true) xs ys := by
  induction xs generalizing ys with
  | nil => cases ys <;> simp [equalItems]
  | cons x xs ih =>
    cases ys with
    | nil => simp [equalItems]
    | cons y ys =>
      rw [List.forall₂_cons, ← ih, equalItems_cons, Bool.and_eq_true]
      cases x.equals y <;> simp [Except.toOption]

/-- A slice equals the slices with equal items. -/
theorem slice_equals_iff {xs : List Value} (hb : b.kind ≠ .double) :
    (slice xs).equals b = .ok true ↔
      ∃ ys, b = slice ys ∧ List.Forall₂ (fun x y => x.equals y = .ok true) xs ys := by
  cases b with
  | slice ys => rw [equals_slice]; simp [equalItems_iff]
  | null => rw [equals_null_right]; simp [kind]
  | double => exact absurd rfl hb
  | bool | int | text | moment => unfold equals; simp

/-! ## Equality is an equivalence -/

theorem equals_refl (ha : DoubleFree a) : a.equals a = .ok true := by
  induction ha with
  | null => exact null_equals_iff.mpr rfl
  | bool | int | text | moment =>
    refine (equals_iff_standing rfl ?_).mpr rfl
    exact nofun
  | slice h ih =>
    exact (slice_equals_iff (DoubleFree.slice h).kind_ne).mpr ⟨_, rfl, List.forall₂_same.mpr ih⟩

/-- Lists that correspond to one list correspond to each other. -/
theorem forall₂_trans {α : Type} {R : α → α → Prop} {xs ys zs : List α}
    (htrans : ∀ x ∈ xs, ∀ y ∈ ys, ∀ z ∈ zs, R x y → R y z → R x z)
    (hxy : List.Forall₂ R xs ys) (hyz : List.Forall₂ R ys zs) : List.Forall₂ R xs zs := by
  induction hxy generalizing zs with
  | nil => exact hyz
  | cons hx _ ih =>
    cases hyz with
    | cons hy hys =>
      have hhead := htrans _ List.mem_cons_self _ List.mem_cons_self _ List.mem_cons_self hx hy
      refine .cons hhead (ih ?_ hys)
      intro x hx y hy z hz
      exact htrans x (.tail _ hx) y (.tail _ hy) z (.tail _ hz)

theorem equals_trans (ha : DoubleFree a) (hb : DoubleFree b) (hc : DoubleFree c)
    (hab : a.equals b = .ok true) (hbc : b.equals c = .ok true) : a.equals c = .ok true := by
  induction ha generalizing b c with
  | null => rwa [null_equals_iff.mp hab] at hbc
  | bool | int | text | moment =>
    have hb' := (equals_iff_standing rfl hb.kind_ne).mp hab
    have hc' := (equals_iff_standing hb' hc.kind_ne).mp hbc
    exact (equals_iff_standing rfl hc.kind_ne).mpr hc'
  | slice _ ih =>
    obtain ⟨ys, rfl, hxy⟩ := (slice_equals_iff hb.kind_ne).mp hab
    obtain ⟨zs, rfl, hyz⟩ := (slice_equals_iff hc.kind_ne).mp hbc
    cases hb with | slice hys =>
    refine (slice_equals_iff hc.kind_ne).mpr ⟨zs, rfl, forall₂_trans ?_ hxy hyz⟩
    cases hc with | slice hzs =>
    intro x hx y hy z hz
    exact ih x hx (hys y hy) (hzs z hz)

theorem equalItems_comm {xs ys : List Value}
    (h : ∀ x ∈ xs, ∀ y ∈ ys, (x.equals y).toOption = (y.equals x).toOption) :
    equalItems xs ys = equalItems ys xs := by
  induction xs generalizing ys with
  | nil => cases ys <;> simp [equalItems]
  | cons x xs ih =>
    cases ys with
    | nil => simp [equalItems]
    | cons y ys =>
      rw [equalItems_cons, equalItems_cons, h x List.mem_cons_self y List.mem_cons_self]
      rw [ih fun x hx y hy => h x (.tail _ hx) y (.tail _ hy)]

theorem equals_comm_of_ne_slice (ha : a.kind ≠ .double) (hb : b.kind ≠ .double)
    (hslice : a.kind ≠ .slice ∨ b.kind ≠ .slice) :
    (a.equals b).toOption = (b.equals a).toOption := by
  by_cases hnull : a = null ∨ b = null
  · rcases hnull with rfl | rfl <;> rw [equals_null_left, equals_null_right]
  · have hkinds : a.kind ≠ .null ∧ b.kind ≠ .null := by
      constructor <;> intro h <;> cases a <;> cases b <;> simp_all [kind]
    rw [toOption_equals ha hb hkinds hslice, toOption_equals hb ha hkinds.symm hslice.symm,
      toOption_order_comm hb ha, Option.map_map]
    refine congrArg (Option.map · _) ?_
    funext o
    cases o <;> rfl

theorem equals_comm (ha : DoubleFree a) (hb : DoubleFree b) :
    (a.equals b).toOption = (b.equals a).toOption := by
  induction ha generalizing b with
  | null => exact equals_comm_of_ne_slice nofun hb.kind_ne (.inl nofun)
  | bool | int | text | moment => exact equals_comm_of_ne_slice nofun hb.kind_ne (.inl nofun)
  | slice _ ih =>
    cases hb with
    | slice hys =>
      rw [equals_slice, equals_slice, equalItems_comm fun x hx y hy => ih x hx (hys y hy)]
    | null | bool | int | text | moment => exact equals_comm_of_ne_slice nofun nofun (.inr nofun)

/-! ## The laws together -/

/-- What holds of three values where equality and order are coherent. -/
structure Coherent (a b c : Value) : Prop where
  /-- Both ways round give one answer, or both are errors. -/
  equals_comm : (a.equals b).toOption = (b.equals a).toOption
  equals_refl : a.equals a = .ok true
  equals_trans : a.equals b = .ok true → b.equals c = .ok true → a.equals c = .ok true
  order_swap : ∀ o, a.order b = .ok o ↔ b.order a = .ok o.swap
  /-- What compares with one value compares with each other. -/
  exists_order : ∀ o o', a.order b = .ok o → b.order c = .ok o' → ∃ o'', a.order c = .ok o''
  order_trans : ∀ o o', a.order b = .ok o → b.order c = .ok o' → o ≠ .gt → o' ≠ .gt →
    a.order c = .ok (o.then o')
  equals_of_order : ∀ o, a.order b = .ok o → a.equals b = .ok (o == .eq)

/-- **Equality and order are coherent** on the values without doubles. -/
theorem coherent (ha : DoubleFree a) (hb : DoubleFree b) (hc : DoubleFree c) : Coherent a b c where
  equals_comm := equals_comm ha hb
  equals_refl := equals_refl ha
  equals_trans := equals_trans ha hb hc
  order_swap _ := order_swap_iff ha.kind_ne hb.kind_ne
  exists_order _ _ := exists_order ha.kind_ne hb.kind_ne hc.kind_ne
  order_trans _ _ := order_trans ha.kind_ne hb.kind_ne hc.kind_ne
  equals_of_order _ := equals_of_order ha.kind_ne hb.kind_ne

/-- The laws for a slice that holds a date, one with the midnight of that day in UTC, and one with
the same instant as it is read an hour ahead. -/
theorem coherent_of_one_instant :
    let day : Calendar.Date := ⟨2024, 3, 1, by decide, by decide⟩
    let midnight : Clock := ⟨0, 0, 0, 0, by decide, by decide, by decide, by decide⟩
    let one : Clock := ⟨1, 0, 0, 0, by decide, by decide, by decide, by decide⟩
    let a := slice [slice [moment (.date day)], null]
    let b := slice [slice [moment (.dateTime day midnight none)], null]
    let c := slice [slice [moment (.dateTime day one (some ⟨60, by decide⟩))], null]
    a.equals b = .ok true ∧ b.equals c = .ok true ∧ Coherent a b c := by
  intro day midnight one a b c
  have hfree (m : Moment) : DoubleFree (slice [slice [moment m], null]) := by
    refine .slice (List.forall_mem_cons.mpr ⟨.slice ?_, List.forall_mem_singleton.mpr .null⟩)
    exact List.forall_mem_singleton.mpr (.moment m)
  have heq {m n : Moment} (h : m.isTime = n.isTime ∧ m.instant = n.instant) :
      (slice [slice [moment m], null]).equals (slice [slice [moment n], null]) = .ok true := by
    simp [equals, equalItems, order, Moment.order?, Instant.order, kind, h.1, h.2]
  exact ⟨heq (by decide), heq (by decide), coherent (hfree _) (hfree _) (hfree _)⟩

end Value

end ConfigLang
