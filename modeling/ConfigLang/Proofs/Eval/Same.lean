import Mathlib
import ConfigLang.Proofs.Eval.Locality
import ConfigLang.Proofs.Token.Sign

/-!
# Expressions that mean the same

Two expressions are `Same` if no environment and no host tells them apart.  Every
construct keeps the relation, so it is enough to know of the parts in which two
expressions differ: a literal with a hyphen is the negation of the literal without
(`Same.negated`).

An expression that `Fails` has no value in any environment.  Whatever is done with its
value does not come about, so everything that evaluates it first is the same as it is.
No number has items, which makes an index of a number fail (`OfNumbers.fails`).
-/

namespace ConfigLang

open Literal (quantity Opposite)

namespace Evaluation

variable {m : Type → Type} [Monad m] [LawfulMonad m] {α β : Type}

theorem settled_ok_bind (a : α) (f : α → Evaluation m β) : (settled (.ok a) >>= f) = f a :=
  pure_bind a f

theorem settled_error_bind (e : EvalError) (f : α → Evaluation m β) :
    (settled (.error e) >>= f) = settled (.error e) := by
  funext env
  exact pure_bind _ _

end Evaluation

namespace Expr

open Evaluation

/-- Two expressions have the same value or error, and have it in the same way, in every environment
and with every host. -/
def Same (e e' : Expr) : Prop :=
  ∀ (m : Type → Type) [Monad m] [LawfulMonad m] (host : Host m), e.eval host = e'.eval host

/-- An expression has no value: what would be done with it is left undone. -/
def Fails (e : Expr) : Prop :=
  ∀ (m : Type → Type) [Monad m] [LawfulMonad m] (host : Host m) (f : Value → Evaluation m Value),
    e.eval host >>= f = e.eval host

/-- Two arguments have the same keyword, and values that are the same. -/
def SameArgument (a a' : Argument Expr) : Prop :=
  a.name = a'.name ∧ Same a.value a'.value

variable {e e' e'' l l' r r' c c' yes yes' no no' i i' : Expr}

theorem Same.refl (e : Expr) : Same e e :=
  fun _ _ _ _ => rfl

theorem Same.symm (h : Same e e') : Same e' e :=
  fun m _ _ host => (h m host).symm

theorem Same.trans (h : Same e e') (h' : Same e' e'') : Same e e'' :=
  fun m _ _ host => (h m host).trans (h' m host)

instance : Trans Same Same Same :=
  ⟨Same.trans⟩

/-! ## Every construct keeps it -/

theorem Same.var (scope : VarScope) (name : String) (p p' : Position) :
    Same (.var scope name p) (.var scope name p') := by
  cases scope <;> exact fun m _ _ host => by rw [eval, eval]

theorem Same.unary (op : UnaryOp) (h : Same e e') : Same (.unary op e) (.unary op e') :=
  fun m _ _ host => by rw [eval, eval, h m host]

theorem Same.binary (op : BinaryOp) (hl : Same l l') (hr : Same r r') :
    Same (.binary op l r) (.binary op l' r') :=
  fun m _ _ host => by rw [eval, eval, hl m host, hr m host]

theorem Same.ternary (hc : Same c c') (hyes : Same yes yes') (hno : Same no no') :
    Same (.ternary c yes no) (.ternary c' yes' no') :=
  fun m _ _ host => by rw [eval, eval, hc m host, hyes m host, hno m host]

theorem Same.index (he : Same e e') (hi : Same i i') : Same (.index e i) (.index e' i') :=
  fun m _ _ host => by rw [eval, eval, he m host, hi m host]

theorem Same.array {items items' : List Expr} (h : List.Forall₂ Same items items') :
    Same (.array items) (.array items') := by
  intro m _ _ host
  have hlist : evalList host items = evalList host items' := by
    induction h with
    | nil => rfl
    | cons hitem _ ih => rw [evalList, evalList, hitem m host, ih]
  rw [eval, eval, hlist]

theorem Same.call (name : String) {args args' : List (Argument Expr)}
    (h : List.Forall₂ SameArgument args args') (p p' : Position) :
    Same (.call name args p) (.call name args' p') := by
  intro m _ _ host
  have hbind (function : String) (params : List Parameter) (count : Nat) (bound : Binder) :
      bindArgs host function params count bound args =
        bindArgs host function params count bound args' := by
    -- each argument is bound to what the ones before it have left
    induction h generalizing bound with
    | nil => rfl
    | @cons a a' _ _ harg _ ih =>
        obtain ⟨name, value⟩ := a
        obtain ⟨name', value'⟩ := a'
        obtain ⟨rfl, hvalue⟩ := harg
        have hvalue : value.eval host = value'.eval host := hvalue m host
        simp only [bindArgs, hvalue, ih]
  simp only [eval, h.length_eq, hbind]

/-! ## Literals -/

theorem eval_literal {m : Type → Type} [Monad m] (host : Host m) (t : Token) (value : Value)
    (unit : Option UnitSuffix) :
    (literal t value unit).eval host = .settled (quantity value unit) := by
  cases unit <;> rw [eval] <;> rfl

theorem Same.literal (t t' : Token) (value : Value) (unit : Option UnitSuffix) :
    Same (.literal t value unit) (.literal t' value unit) :=
  fun m _ _ host => by rw [eval_literal, eval_literal]

/-- A number is the negation of the one of opposite sign. -/
theorem Same.negated {value value' : Value} {unit : Option UnitSuffix}
    (h : Opposite value value' unit) (t t' : Token) :
    Same (.literal t value unit) (.unary .neg (.literal t' value' unit)) := by
  obtain ⟨x, x', hx, hx', hneg, -⟩ := h
  intro m _ _ host
  rw [eval, eval_literal, eval_literal, hx, hx', settled_ok_bind, hneg]

/-! ## Expressions without a value -/

theorem Fails.congr (h : Fails e) (hsame : Same e e') : Fails e' :=
  fun m _ _ host f => by rw [← hsame m host, h m host f]

theorem Fails.unary (h : Fails e) (op : UnaryOp) : Same e (.unary op e) :=
  fun m _ _ host => by rw [eval, h m host]

theorem Fails.binary (h : Fails l) (op : BinaryOp) (r : Expr) : Same l (.binary op l r) :=
  fun m _ _ host => by rw [eval, h m host]

theorem Fails.index (h : Fails e) (i : Expr) : Same e (.index e i) :=
  fun m _ _ host => by rw [eval, h m host]

/-- The error of an index of a value of a kind that has no items. -/
def indexFault (kind : Value.Kind) : Value → EvalError
  | .int _ => .unsupported .index (.value kind)
  | j => .incompatible .index kind j.kind

theorem index_number {x : Value} (h : x.kind = .int ∨ x.kind = .double) (j : Value) :
    x.index j = .error (indexFault x.kind j) := by
  cases x <;> first | (rcases h with h | h <;> cases h; done) | (cases j <;> rfl)

/-- Two expressions cannot be told apart by an index, which fails. -/
structure OfNumbers (e e' : Expr) : Prop where
  same : ∀ {i i'}, Same i i' → Same (.index e i) (.index e' i')
  fails : ∀ i, Fails (.index e i)

theorem ofNumbers_of_opposite {value value' : Value} {unit : Option UnitSuffix}
    (h : Opposite value value' unit) (t t' : Token) :
    OfNumbers (.literal t value unit) (.literal t' value' unit) := by
  obtain ⟨x, x', hx, hx', -, hkind, hnumber⟩ := h
  have heval {m : Type → Type} [Monad m] [LawfulMonad m] (host : Host m) (i : Expr) :
      (Expr.index (.literal t value unit) i).eval host =
        i.eval host >>= fun j => .settled (.error (indexFault x.kind j)) := by
    rw [eval, eval_literal, hx, settled_ok_bind]
    simp only [index_number hnumber]
  constructor
  · intro i i' hi m _ _ host
    rw [heval, eval, eval_literal, hx', settled_ok_bind, hi m host, hkind]
    simp only [index_number (hkind ▸ hnumber)]
  · intro i m _ _ host f
    rw [heval, bind_assoc]
    simp only [settled_error_bind]

end Expr

end ConfigLang
