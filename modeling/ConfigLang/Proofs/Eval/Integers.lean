import Mathlib
import ConfigLang.Proofs.Eval.Calls
import ConfigLang.Proofs.Token.Sign

/-!
# Arithmetic on integers

Whatever is computed of integers is the exact result or, if that is not one of 64 bits, an overflow
of the operation (`Value.Yields`); only a division by zero is another error
(`Expr.exact_arithmetic`).

A remainder is computed together with its quotient, and there is none where the quotient does not
fit.  That is so for the least integer by -1 only (`Integer.fits_tdiv_iff`), where the remainder
would be zero (`Expr.remainder_overflows`).
-/

namespace ConfigLang

/-! ## Integers of 64 bits -/

namespace Integer

/-- An integer is one of 64 bits. -/
def Fits (n : Int) : Prop :=
  least ≤ n ∧ n ≤ greatest

theorem fits_toInt (n : Int64) : Fits n.toInt := by
  have hlow : -2 ^ 63 ≤ n.toInt := Int64.le_toInt n
  have hhigh : n.toInt < 2 ^ 63 := Int64.toInt_lt n
  have hleast := least_eq
  have hgreatest := greatest_eq
  exact ⟨by omega, by omega⟩

theorem Fits.of_between {n k : Int} (h : Fits n) (hbetween : 0 ≤ k ∧ k ≤ n ∨ n ≤ k ∧ k ≤ 0) :
    Fits k := by
  have hleast := least_eq
  have hgreatest := greatest_eq
  unfold Fits at *
  omega

/-- A remainder lies between zero and what is divided. -/
theorem tmod_between (x y : Int) :
    0 ≤ x.tmod y ∧ x.tmod y ≤ x ∨ x ≤ x.tmod y ∧ x.tmod y ≤ 0 := by
  have hle : (x.tmod y).natAbs ≤ x.natAbs := by
    rw [Int.natAbs_tmod]
    exact Nat.mod_le _ _
  rcases Int.le_total 0 x with h | h
  · have hsign : 0 ≤ x.tmod y := Int.tmod_nonneg y h
    omega
  · have hsign : 0 ≤ (-x).tmod y := Int.tmod_nonneg y (Int.neg_nonneg_of_nonpos h)
    rw [Int.neg_tmod] at hsign
    omega

/-- Only one quotient of integers is not an integer of 64 bits. -/
theorem fits_tdiv_iff {a b : Int64} (hb : b.toInt ≠ 0) :
    Fits (a.toInt.tdiv b.toInt) ↔ ¬(a.toInt = least ∧ b.toInt = -1) := by
  obtain ⟨hlow, hhigh⟩ := fits_toInt a
  have hleast := least_eq
  have hgreatest := greatest_eq
  constructor
  · rintro ⟨-, hfits⟩ ⟨hleast', hminus⟩
    rw [hleast', hminus, Int.tdiv_neg, Int.tdiv_one] at hfits
    omega
  · intro hne
    unfold Fits
    by_cases hunit : b.toInt.natAbs = 1
    · rcases Int.natAbs_eq b.toInt with hone | hminus
      · rw [hone, hunit, Int.natCast_one, Int.tdiv_one]
        omega
      · rw [hunit, Int.natCast_one] at hminus
        rw [hminus, Int.tdiv_neg, Int.tdiv_one]
        omega
    · -- a divisor other than 1 and -1 halves at least
      have hmagnitude : (a.toInt.tdiv b.toInt).natAbs = a.toInt.natAbs / b.toInt.natAbs :=
        Int.natAbs_tdiv _ _
      have hhalf : a.toInt.natAbs / b.toInt.natAbs ≤ a.toInt.natAbs / 2 :=
        Nat.div_le_div_left (by omega) (by decide)
      omega

end Integer

/-! ## Operations -/

namespace Value

open Integer

/-- A result is an integer or, if that does not fit, the overflow of an operation. -/
structure Yields (op : Operation) (n : Int) (r : Except EvalError Value) : Prop where
  value : Fits n → ∃ i : Int64, i.toInt = n ∧ r = .ok (.int i)
  overflow : r = .error (.overflow op) ↔ ¬Fits n

theorem yields_exact (op : Operation) (n : Int) : Yields op n (exact op n) := by
  by_cases h : Fits n
  · obtain ⟨i, hi, htoInt⟩ := exists_ofInt? h.1 h.2
    have hexact : exact op n = .ok (int i) := by rw [exact, hi]
    exact ⟨fun _ => ⟨i, htoInt, hexact⟩, by simp [hexact, h]⟩
  · have hnone : ofInt? n = none := if_neg h
    have hexact : exact op n = .error (.overflow op) := by rw [exact, hnone]
    exact ⟨fun hfits => absurd hfits h, by simp [hexact, h]⟩

theorem Yields.eq_int {op : Operation} {i : Int64} {r : Except EvalError Value}
    (h : Yields op i.toInt r) : r = .ok (.int i) := by
  obtain ⟨j, hj, hr⟩ := h.value (fits_toInt i)
  rw [hr, Int64.toInt_inj.mp hj]

theorem Yields.ne_zeroDivision {op : Operation} {n : Int} {r : Except EvalError Value}
    (h : Yields op n r) : r ≠ .error .zeroDivision := by
  rintro rfl
  by_cases hfits : Fits n
  · obtain ⟨i, -, hi⟩ := h.value hfits
    cases hi
  · cases h.overflow.mpr hfits

variable {a b : Int64}

theorem toInt_eq_zero : b.toInt = 0 ↔ b = 0 :=
  ⟨fun h => Int64.toInt_inj.mp h, fun h => h ▸ rfl⟩

theorem arith_div (hb : b ≠ 0) :
    arith .div (int a) (int b) = exact (.binary .div) (a.toInt.tdiv b.toInt) :=
  if_neg (mt toInt_eq_zero.mp hb)

theorem arith_mod (hb : b ≠ 0) :
    arith .mod (int a) (int b) = (do
      let _ ← exact (.binary .mod) (a.toInt.tdiv b.toInt)
      exact (.binary .mod) (a.toInt.tmod b.toInt)) :=
  if_neg (mt toInt_eq_zero.mp hb)

theorem arith_mod_of_fits (hb : b ≠ 0) (h : Fits (a.toInt.tdiv b.toInt)) :
    arith .mod (int a) (int b) = exact (.binary .mod) (a.toInt.tmod b.toInt) := by
  obtain ⟨i, -, hquotient⟩ := (yields_exact (.binary .mod) (a.toInt.tdiv b.toInt)).value h
  rw [arith_mod hb, hquotient]
  rfl

theorem arith_mod_of_not_fits (hb : b ≠ 0) (h : ¬Fits (a.toInt.tdiv b.toInt)) :
    arith .mod (int a) (int b) = .error (.overflow (.binary .mod)) := by
  rw [arith_mod hb, (yields_exact (.binary .mod) (a.toInt.tdiv b.toInt)).overflow.mpr h]
  rfl

theorem arith_div_eq_zeroDivision_iff :
    arith .div (int a) (int b) = .error .zeroDivision ↔ b = 0 := by
  constructor
  · intro h
    by_contra hb
    rw [arith_div hb] at h
    exact (yields_exact _ _).ne_zeroDivision h
  · rintro rfl
    rfl

theorem yields_mod (hb : b ≠ 0) (h : Fits (a.toInt.tdiv b.toInt)) :
    Yields (.binary .mod) (a.toInt.tmod b.toInt) (arith .mod (int a) (int b)) := by
  rw [arith_mod_of_fits hb h]
  exact yields_exact _ _

theorem arith_mod_eq_zeroDivision_iff :
    arith .mod (int a) (int b) = .error .zeroDivision ↔ b = 0 := by
  constructor
  · intro h
    by_contra hb
    by_cases hquotient : Fits (a.toInt.tdiv b.toInt)
    · exact (yields_mod hb hquotient).ne_zeroDivision h
    · rw [arith_mod_of_not_fits hb hquotient] at h
      cases h
  · rintro rfl
    rfl

/-- Where a quotient fits, so does the remainder. -/
theorem arith_mod_eq_overflow_iff (hb : b ≠ 0) :
    arith .mod (int a) (int b) = .error (.overflow (.binary .mod)) ↔
      ¬Fits (a.toInt.tdiv b.toInt) := by
  constructor
  · intro h hquotient
    refine (yields_mod hb hquotient).overflow.mp h ?_
    exact (fits_toInt a).of_between (tmod_between _ _)
  · exact arith_mod_of_not_fits hb

/-- A quotient and its remainder give back what was divided. -/
theorem arith_recomposed (hb : b ≠ 0) (h : Fits (a.toInt.tdiv b.toInt)) :
    ∃ q p r : Int64, arith .div (int a) (int b) = .ok (int q) ∧
      arith .mul (int q) (int b) = .ok (int p) ∧ arith .mod (int a) (int b) = .ok (int r) ∧
      arith .add (int p) (int r) = .ok (int a) := by
  have hbetween := tmod_between a.toInt b.toInt
  obtain ⟨q, hq, hdivides⟩ := (yields_exact (.binary .div) _).value h
  have hsum : q.toInt * b.toInt + a.toInt.tmod b.toInt = a.toInt := by
    rw [hq]
    exact Int.tdiv_mul_add_tmod _ _
  -- what the remainder leaves of an integer lies between zero and the integer as well
  obtain ⟨p, hp, hproduct⟩ := (yields_exact (.binary .mul) (q.toInt * b.toInt)).value
    ((fits_toInt a).of_between (by omega))
  obtain ⟨r, hr, hremains⟩ := (yields_mod hb h).value ((fits_toInt a).of_between hbetween)
  refine ⟨q, p, r, (arith_div hb).trans hdivides, hproduct, hremains, ?_⟩
  refine Yields.eq_int (?_ : Yields (.binary .add) a.toInt _)
  rw [← hsum, ← hp, ← hr]
  exact yields_exact _ _

end Value

/-! ## Expressions -/

open Integer Value

/-- How arithmetic comes out on two expressions that have integers as values, where `result` is what
an expression comes to. -/
structure ExactArithmetic (result : Expr → Except EvalError Value) (e₁ e₂ : Expr) (a b : Int64) :
    Prop where
  add : Yields (.binary .add) (a.toInt + b.toInt) (result (.binary .add e₁ e₂))
  sub : Yields (.binary .sub) (a.toInt - b.toInt) (result (.binary .sub e₁ e₂))
  mul : Yields (.binary .mul) (a.toInt * b.toInt) (result (.binary .mul e₁ e₂))
  neg : Yields (.unary .neg) (-a.toInt) (result (.unary .neg e₁))
  abs : ∀ pos, Yields .abs |a.toInt| (result (.call "abs" [⟨none, e₁⟩] pos))
  unit : ∀ token unit,
    Yields (.binary .mul) (a.toInt * unit.factor) (result (.literal token (.int a) (some unit)))
  /-- A quotient is cut toward zero. -/
  div : b ≠ 0 → Yields (.binary .div) (a.toInt.tdiv b.toInt) (result (.binary .div e₁ e₂))
  div_zero : result (.binary .div e₁ e₂) = .error .zeroDivision ↔ b = 0
  /-- A remainder has the sign of what is divided, -/
  mod : b ≠ 0 → ¬(a.toInt = least ∧ b.toInt = -1) →
    Yields (.binary .mod) (a.toInt.tmod b.toInt) (result (.binary .mod e₁ e₂))
  mod_zero : result (.binary .mod e₁ e₂) = .error .zeroDivision ↔ b = 0
  /-- and there is none where the quotient does not fit. -/
  mod_overflow : result (.binary .mod e₁ e₂) = .error (.overflow (.binary .mod)) ↔
    a.toInt = least ∧ b.toInt = -1
  identity : b ≠ 0 → Fits (a.toInt.tdiv b.toInt) →
    result (.binary .add (.binary .mul (.binary .div e₁ e₂) e₂) (.binary .mod e₁ e₂)) =
      .ok (.int a)

namespace Expr

variable {host : Host Id} {env : Environment} {e e₁ e₂ : Expr} {a b : Int64}

theorem result_abs (h : e.result host env = .ok (.int a)) (pos : Position) :
    (call "abs" [⟨none, e⟩] pos).result host env = exact .abs |a.toInt| := by
  have hname : Builtin.ofName? "abs" = some (.plain "abs" [.required "num"] Builtin.abs) := rfl
  have hvalues : HaveValues host env [e] [.int a] := .cons h .nil
  have hcall : (call "abs" [⟨none, e⟩] pos).result host env =
      Builtin.abs ⟨"abs", env.push ⟨[("num", .int a)]⟩⟩ :=
    result_call_plain hname (by decide) (by decide) hvalues rfl pos
  rw [hcall, Int.abs_eq_natAbs]
  rfl

theorem result_unit (token : Token) (unit : UnitSuffix) :
    (literal token (.int a) (some unit)).result host env =
      exact (.binary .mul) (a.toInt * unit.factor) := by
  rw [← (Literal.toInt_factor unit).1]
  rfl

theorem result_arith (h₁ : e₁.result host env = .ok (.int a))
    (h₂ : e₂.result host env = .ok (.int b)) (op : Arith) :
    (binary op.op e₁ e₂).result host env = arith op (int a) (int b) := by
  rw [result_binary h₁ h₂ (by cases op <;> decide) (by cases op <;> decide)]
  cases op <;> rfl

/-- **Arithmetic on integers is exact or an error.** -/
theorem exact_arithmetic (h₁ : e₁.result host env = .ok (.int a))
    (h₂ : e₂.result host env = .ok (.int b)) :
    ExactArithmetic (result host env) e₁ e₂ a b := by
  have hdiv : (binary .div e₁ e₂).result host env = _ := result_arith h₁ h₂ .div
  have hmod : (binary .mod e₁ e₂).result host env = _ := result_arith h₁ h₂ .mod
  have hfits (hb : b ≠ 0) := fits_tdiv_iff (a := a) (mt toInt_eq_zero.mp hb)
  constructor
  case add => exact result_arith h₁ h₂ .add ▸ yields_exact _ _
  case sub => exact result_arith h₁ h₂ .sub ▸ yields_exact _ _
  case mul => exact result_arith h₁ h₂ .mul ▸ yields_exact _ _
  case neg => exact result_unary h₁ .neg ▸ yields_exact _ _
  case abs => exact fun pos => result_abs h₁ pos ▸ yields_exact _ _
  case unit => exact fun token unit => result_unit token unit ▸ yields_exact _ _
  case div =>
    intro hb
    rw [hdiv, arith_div hb]
    exact yields_exact _ _
  case div_zero =>
    rw [hdiv]
    exact arith_div_eq_zeroDivision_iff
  case mod =>
    intro hb hne
    rw [hmod]
    exact yields_mod hb ((hfits hb).mpr hne)
  case mod_zero =>
    rw [hmod]
    exact arith_mod_eq_zeroDivision_iff
  case mod_overflow =>
    rw [hmod]
    by_cases hb : b = 0
    · subst hb
      exact iff_of_false nofun fun h => absurd h.2 (by decide)
    · rw [arith_mod_eq_overflow_iff hb, hfits hb, not_not]
  case identity =>
    intro hb hquotient
    obtain ⟨q, p, r, hquotient, hproduct, hremainder, hsum⟩ := arith_recomposed hb hquotient
    have hleft : (binary .mul (binary .div e₁ e₂) e₂).result host env = .ok (.int p) :=
      (result_arith (hdiv.trans hquotient) h₂ .mul).trans hproduct
    exact (result_arith hleft (hmod.trans hremainder) .add).trans hsum

/-- What can be computed with the least integer and 3. -/
theorem exact_arithmetic_of_least :
    let host : Host Id := ⟨fun _ => .error .notFound, fun _ => false, fun _ => false, fun _ => 0⟩
    let e (n : Int64) : Expr := .literal ⟨.integer, "", .start⟩ (.int n) none
    let least : Int64 := -9223372036854775808
    let result := result host ⟨.empty, []⟩
    ExactArithmetic result (e least) (e 3) least 3 ∧
      result (.unary .neg (e least)) = .error (.overflow (.unary .neg)) ∧
      result (.binary .div (e least) (e 3)) = .ok (.int (-3074457345618258602)) ∧
      result (.binary .mod (e least) (e 3)) = .ok (.int (-2)) :=
  ⟨exact_arithmetic rfl rfl, rfl, rfl, rfl⟩

/-- The remainder of the least integer by -1 is zero, and its computation an overflow. -/
theorem remainder_overflows :
    let host : Host Id := ⟨fun _ => .error .notFound, fun _ => false, fun _ => false, fun _ => 0⟩
    let e (n : Int64) : Expr := .literal ⟨.integer, "", .start⟩ (.int n) none
    let least : Int64 := -9223372036854775808
    let minus : Int64 := -1
    let remainder := (binary .mod (e least) (e minus)).result host ⟨.empty, []⟩
    least.toInt.tmod minus.toInt = 0 ∧ remainder = .error (.overflow (.binary .mod)) ∧
      ¬Yields (.binary .mod) (least.toInt.tmod minus.toInt) remainder := by
  intro host e least minus remainder
  have hoverflow : remainder = .error (.overflow (.binary .mod)) := rfl
  have hzero : least.toInt.tmod minus.toInt = 0 := by decide
  refine ⟨hzero, hoverflow, fun h => h.overflow.mp hoverflow ?_⟩
  rw [hzero]
  exact ⟨by decide, by decide⟩

end Expr

end ConfigLang
