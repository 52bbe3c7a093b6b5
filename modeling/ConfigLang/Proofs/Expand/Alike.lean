import Mathlib
import ConfigLang.Proofs.Document.Rearranged
import ConfigLang.Proofs.Expand.Arguments

/-!
# Directives with blocks that expand alike

What a directive brings depends on the blocks among its arguments only by what they expand
to, and only a definition expands one; that any other argument is a block is an error
(`Expander.effect_alike`).
-/

namespace ConfigLang

open Running

/-! ## Arguments that are alike -/

/-- Two arguments that are the same, or are blocks that expand alike. -/
inductive Payload.Alike {m : Type → Type} (expand : Object → Expansion m Object) :
    Payload → Payload → Prop
  | expr (e : Expr) : Payload.Alike expand (.expr e) (.expr e)
  | ident (name : String) : Payload.Alike expand (.ident name) (.ident name)
  | block {o o' : Object} (h : expand o = expand o') : Payload.Alike expand (.block o) (.block o')

/-- Two arguments of directives with one name. -/
structure Argument.Alike {m : Type → Type} (expand : Object → Expansion m Object)
    (arg arg' : Argument Payload) : Prop where
  name_eq : arg.name = arg'.name
  value : arg.value.Alike expand arg'.value

/-- Two parameters with what they are bound to. -/
structure BoundAlike {m : Type → Type} (expand : Object → Expansion m Object)
    (entry entry' : String × Payload) : Prop where
  key_eq : entry.1 = entry'.1
  value : entry.2.Alike expand entry'.2

section

variable {m : Type → Type} {expand : Object → Expansion m Object}
  {bound bound' : List (String × Payload)}

theorem get?_alike (h : List.Forall₂ (BoundAlike expand) bound bound') (key : String) :
    Option.Rel (Payload.Alike expand) (Keyed.get? bound key) (Keyed.get? bound' key) := by
  induction h with
  | nil => exact .none
  | cons hentry _ ih =>
      rw [Keyed.get?_cons, Keyed.get?_cons, ← hentry.key_eq]
      split
      · exact .some hentry.value
      · exact ih

theorem contains_alike (h : List.Forall₂ (BoundAlike expand) bound bound') (key : String) :
    Keyed.contains bound key = Keyed.contains bound' key := by
  have hget := get?_alike h key
  unfold Keyed.contains
  generalize Keyed.get? bound key = x, Keyed.get? bound' key = x' at hget
  cases hget <;> rfl

theorem put_alike (h : List.Forall₂ (BoundAlike expand) bound bound') (key : String)
    {value value' : Payload} (hvalue : value.Alike expand value') :
    List.Forall₂ (BoundAlike expand) (Keyed.put key value bound) (Keyed.put key value' bound') := by
  induction h with
  | nil => exact .cons ⟨rfl, hvalue⟩ .nil
  | @cons entry entry' _ _ hentry hrest ih =>
      obtain ⟨k, v⟩ := entry
      obtain ⟨k', v'⟩ := entry'
      obtain rfl : k = k' := hentry.key_eq
      rw [Keyed.put, Keyed.put]
      split
      · exact .cons ⟨rfl, hvalue⟩ hrest
      · exact .cons hentry ih

end

namespace Directive

theorem bindArgs_alike {m : Type → Type} {expand : Object → Expansion m Object}
    {bound bound' : List (String × Payload)} {args args' : List (Argument Payload)}
    (hargs : List.Forall₂ (Argument.Alike expand) args args') (params : List String)
    (reached : Nat) (hbound : List.Forall₂ (BoundAlike expand) bound bound') :
    Paired Eq (List.Forall₂ (BoundAlike expand)) (bindArgs params reached bound args)
      (bindArgs params reached bound' args') := by
  induction hargs generalizing reached bound bound' with
  | nil => exact .ok hbound
  | @cons arg arg' _ _ harg _ ih =>
      obtain ⟨name, value⟩ := arg
      obtain ⟨name', value'⟩ := arg'
      obtain rfl : name = name' := harg.name_eq
      cases name with
      | none =>
          rw [bindArgs, bindArgs]
          split
          · exact .error rfl
          · rw [contains_alike hbound]
            split
            · exact .error rfl
            · exact ih _ (put_alike hbound _ harg.value)
      | some name =>
          rw [bindArgs, bindArgs, contains_alike hbound]
          split
          · exact .error rfl
          · split
            · exact .error rfl
            · exact ih _ (put_alike hbound _ harg.value)

variable {m : Type → Type} [Monad m] {expand : Object → Expansion m Object}
  {bound bound' : List (String × Payload)} {args' : List (Argument Payload)}

/-! ## Reading -/

section Reading

variable {payload payload' : Payload} (d : Directive) (s : Scene m) (parameter : String)

theorem nameOf_alike (h : payload.Alike expand payload') :
    d.nameOf s parameter payload =
      ({ d with args := args' } : Directive).nameOf s parameter payload' := by
  cases h <;> rfl

theorem textOf_alike (h : payload.Alike expand payload') :
    d.textOf s parameter payload =
      ({ d with args := args' } : Directive).textOf s parameter payload' := by
  cases h <;> rfl

theorem flagOf_alike {payload payload' : Option Payload}
    (h : Option.Rel (Payload.Alike expand) payload payload') :
    d.flagOf s parameter payload =
      ({ d with args := args' } : Directive).flagOf s parameter payload' := by
  cases h with
  | none => rfl
  | some h => cases h <;> rfl

theorem methodOf_alike {payload payload' : Option Payload}
    (h : Option.Rel (Payload.Alike expand) payload payload') :
    d.methodOf s payload = ({ d with args := args' } : Directive).methodOf s payload' := by
  cases h with
  | none => rfl
  | some h => cases h <;> rfl

end Reading

/-! ## Binding -/

section Binding

variable [LawfulMonad m] {α : Type} {d : Directive}

theorem bind_alike (hargs : List.Forall₂ (Argument.Alike expand) d.args args')
    (params : List String) {k k' : List (String × Payload) → Expansion m α}
    (hk : ∀ bound bound', List.Forall₂ (BoundAlike expand) bound bound' → k bound = k' bound') :
    d.bind params >>= k = ({ d with args := args' } : Directive).bind params >>= k' := by
  have hbind := bindArgs_alike hargs params 0 .nil
  unfold bind
  dsimp only
  generalize bindArgs params 0 [] d.args = x, bindArgs params 0 [] args' = x' at hbind ⊢
  cases hbind with
  | error h =>
      subst h
      exact (throw_bind _ k).trans (throw_bind _ k').symm
  | ok h => exact (pure_bind _ k).trans ((hk _ _ h).trans (pure_bind _ k').symm)

theorem required_alike (hbound : List.Forall₂ (BoundAlike expand) bound bound')
    (parameter : String) {k k' : Payload → Expansion m α}
    (hk : ∀ payload payload', payload.Alike expand payload' → k payload = k' payload') :
    d.required bound parameter >>= k =
      ({ d with args := args' } : Directive).required bound' parameter >>= k' := by
  have hget := get?_alike hbound parameter
  unfold required
  generalize Keyed.get? bound parameter = x, Keyed.get? bound' parameter = x' at hget ⊢
  cases hget with
  | none => exact (throw_bind _ k).trans (throw_bind _ k').symm
  | some h => exact (pure_bind _ k).trans ((hk _ _ h).trans (pure_bind _ k').symm)

theorem readInclude_alike (s : Scene m)
    (hargs : List.Forall₂ (Argument.Alike expand) d.args args') :
    d.readInclude s = ({ d with args := args' } : Directive).readInclude s := by
  unfold readInclude
  refine bind_alike hargs _ fun bound bound' hbound => ?_
  refine required_alike hbound _ fun payload payload' hlocation => ?_
  rw [d.textOf_alike s _ hlocation, d.flagOf_alike s _ (get?_alike hbound "fatal"),
    d.methodOf_alike s (get?_alike hbound "method")]
  have hname := get?_alike hbound "name"
  generalize Keyed.get? bound "name" = x, Keyed.get? bound' "name" = x' at hname ⊢
  cases hname with
  | none => rfl
  | some h => cases h <;> rfl

end Binding

end Directive

namespace Expander

variable {m : Type → Type} [Monad m] {expand : Object → Expansion m Object}
  {bound bound' : List (String × Payload)} {args' : List (Argument Payload)}

theorem selectFields_alike (x : Expander m) (d : Directive)
    (hbound : List.Forall₂ (BoundAlike expand) bound bound') (block : Object) :
    x.selectFields d bound block =
      x.selectFields ({ d with args := args' } : Directive) bound' block := by
  have hfields := get?_alike hbound "fields"
  have hdepth := get?_alike hbound "depth"
  unfold selectFields
  generalize Keyed.get? bound "fields" = y, Keyed.get? bound' "fields" = y' at hfields ⊢
  generalize Keyed.get? bound "depth" = z, Keyed.get? bound' "depth" = z' at hdepth ⊢
  cases hdepth with
  | none =>
      cases hfields with
      | none => rfl
      | some hfields => cases hfields <;> rfl
  | some hdepth =>
      cases hfields with
      | none => cases hdepth <;> rfl
      | some hfields => cases hfields <;> cases hdepth <;> rfl

variable [LawfulMonad m] {x : Expander m} {d : Directive} {scope : Scope}

theorem define_alike {expandBlock : Scope → Object → Expansion m Object}
    (hargs : List.Forall₂ (Argument.Alike (expandBlock scope)) d.args args') :
    x.define expandBlock d scope = x.define expandBlock { d with args := args' } scope := by
  unfold define
  refine Directive.bind_alike hargs _ fun bound bound' hbound => ?_
  refine Directive.required_alike hbound _ fun payload payload' hname => ?_
  rw [d.nameOf_alike x.toScene _ hname]
  refine bind_congr fun name => ?_
  refine Directive.required_alike hbound _ fun payload payload' hfragment => ?_
  cases hfragment with
  | expr e => rfl
  | ident ident => rfl
  | block h =>
      dsimp only
      rw [h]

theorem apply_alike (hargs : List.Forall₂ (Argument.Alike expand) d.args args') :
    x.apply d scope = x.apply { d with args := args' } scope := by
  unfold apply
  refine Directive.bind_alike hargs _ fun bound bound' hbound => ?_
  refine Directive.required_alike hbound _ fun payload payload' hname => ?_
  rw [d.nameOf_alike x.toScene _ hname,
    d.methodOf_alike x.toScene (get?_alike hbound "method")]
  refine bind_congr fun name => bind_congr fun method => ?_
  split
  · rfl
  · rfl
  · rw [selectFields_alike x d hbound]

/-- **A directive brings the same** if the blocks among its arguments expand alike. -/
theorem effect_alike {expandBlock : Scope → Object → Expansion m Object}
    (hargs : List.Forall₂ (Argument.Alike (expandBlock scope)) d.args args') :
    x.effect expandBlock d scope = x.effect expandBlock { d with args := args' } scope := by
  unfold effect
  dsimp only
  split
  · exact define_alike hargs
  · exact apply_alike hargs
  · unfold includeDocument
    rw [Directive.readInclude_alike _ hargs]

end Expander

end ConfigLang
