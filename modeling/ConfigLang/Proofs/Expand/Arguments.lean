import Mathlib
import ConfigLang.Expand.Basic
import ConfigLang.Proofs.Keyed
import ConfigLang.Proofs.Running

/-!
# What arguments are read from

Binding the arguments of a directive to its parameters moves them and nothing else, so
what holds of every argument holds of what a parameter is bound to
(`Directive.ensures_bind`).  How they are read depends on the host and the base
variables of the scene, and not on where included documents come from.

What an application asks of the fields of a fragment leaves some of them out, and cuts the
others down (`Expander.ensures_selectFields`).
-/

namespace ConfigLang

open Running

variable {m : Type → Type} [Monad m]

namespace Directive

/-! ## Binding -/

section Binding

variable {P : Payload → Prop} {bound : List (String × Payload)}

private theorem forall_put {name : String} {value : Payload} (hbound : ∀ entry ∈ bound, P entry.2)
    (hvalue : P value) : ∀ entry ∈ Keyed.put name value bound, P entry.2 := by
  intro entry hmem
  rcases Keyed.mem_put hmem with rfl | hmem
  · exact hvalue
  · exact hbound entry hmem

theorem forall_bindArgs {params : List String} {reached : Nat} {args : List (Argument Payload)}
    {out : List (String × Payload)} (hbound : ∀ entry ∈ bound, P entry.2)
    (hargs : ∀ arg ∈ args, P arg.value) (h : bindArgs params reached bound args = .ok out) :
    ∀ entry ∈ out, P entry.2 := by
  induction args generalizing reached bound with
  | nil =>
      cases h
      exact hbound
  | cons arg args ih =>
      obtain ⟨name, value⟩ := arg
      have hvalue : P value := hargs _ List.mem_cons_self
      have hrest : ∀ other ∈ args, P other.value :=
        fun other hmem => hargs other (List.mem_cons_of_mem _ hmem)
      cases name with
      | none =>
          rw [bindArgs] at h
          split at h
          · cases h
          · split at h
            · cases h
            · exact ih (forall_put hbound hvalue) hrest h
      | some name =>
          rw [bindArgs] at h
          split at h
          · cases h
          · split at h
            · cases h
            · exact ih (forall_put hbound hvalue) hrest h

variable [LawfulMonad m]

theorem ensures_bind {d : Directive} (h : ∀ arg ∈ d.args, P arg.value) (params : List String) :
    Ensures (d.bind params : Expansion m _) fun bound => ∀ entry ∈ bound, P entry.2 := by
  refine .of_except fun bound hbound => ?_
  cases hargs : bindArgs params 0 [] d.args with
  | error fault =>
      rw [hargs] at hbound
      cases hbound
  | ok out =>
      rw [hargs] at hbound
      cases hbound
      exact forall_bindArgs (List.forall_mem_nil _) h hargs

theorem ensures_required (d : Directive) (h : ∀ entry ∈ bound, P entry.2) (parameter : String) :
    Ensures (d.required bound parameter : Expansion m _) P := by
  unfold required
  split
  · rename_i payload hget
    exact .pure (h _ (Keyed.mem_of_get? hget))
  · exact .throw _

end Binding

/-! ## Reading -/

section Reading

variable (d : Directive) (s : Scene m) (source : Source m) (parameter : String)

@[simp] theorem evaluate_source (payload : Payload) :
    d.evaluate { s with source } parameter payload = d.evaluate s parameter payload := by
  cases payload <;> rfl

@[simp] theorem nameOf_source (payload : Payload) :
    d.nameOf { s with source } parameter payload = d.nameOf s parameter payload := by
  cases payload <;> rfl

@[simp] theorem textOf_source (payload : Payload) :
    d.textOf { s with source } parameter payload = d.textOf s parameter payload := by
  unfold textOf
  rw [evaluate_source]

@[simp] theorem textsOf_source (payload : Payload) :
    d.textsOf { s with source } parameter payload = d.textsOf s parameter payload := by
  unfold textsOf
  rw [evaluate_source]

@[simp] theorem depthOf_source (payload : Payload) :
    d.depthOf { s with source } parameter payload = d.depthOf s parameter payload := by
  unfold depthOf
  rw [evaluate_source]

@[simp] theorem flagOf_source (payload : Option Payload) :
    d.flagOf { s with source } parameter payload = d.flagOf s parameter payload := by
  cases payload with
  | none => rfl
  | some payload =>
      unfold flagOf
      simp only [evaluate_source]

@[simp] theorem methodOf_source (payload : Option Payload) :
    d.methodOf { s with source } payload = d.methodOf s payload := by
  cases payload with
  | none => rfl
  | some payload =>
      unfold methodOf
      simp only [nameOf_source]

@[simp] theorem readInclude_source : d.readInclude { s with source } = d.readInclude s := by
  unfold readInclude
  simp only [textOf_source, nameOf_source, flagOf_source, methodOf_source]

end Reading

end Directive

/-! ## Selecting -/

/-- What holds of an object that has fields left out, or is cut down, holds of the fields that an
application asks for. -/
theorem Expander.ensures_selectFields [LawfulMonad m] (x : Expander m) (d : Directive)
    (args : List (String × Payload)) {P : Object → Prop} {block : Object}
    (hfilter : ∀ (o : Object) (keep : String × Node → Bool), P o →
      P { o with fields := o.fields.filter keep })
    (htruncate : ∀ (o : Object) (depth : Nat), P o → P (o.truncate depth)) (h : P block) :
    Ensures (x.selectFields d args block) P := by
  unfold selectFields
  extract_lets cut
  have hcut : ∀ block, P block → Ensures (cut block) P := by
    intro block hblock
    simp only [cut]
    split
    · exact .pure hblock
    · refine .bind_of fun depth => .pure ?_
      split
      · exact hblock
      · exact htruncate block _ hblock
  split
  · rw [pure_bind]
    exact hcut block h
  · refine .bind_of fun keys => ?_
    rw [pure_bind]
    exact hcut _ (hfilter block _ h)

end ConfigLang
