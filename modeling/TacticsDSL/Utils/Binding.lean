import Mathlib.Logic.Function.Basic
import Mathlib.Tactic.Common

/-!
# Bindings built by matching

A matcher of first-order patterns reads off, left to right, equations between variables and
values, and keeps what is bound so far. `Binding.extendAll` runs the equations;
`extendAll_isSome_iff` says that it succeeds exactly when they have a solution that agrees with
what was bound before, `extendAll_get` what is bound then.
-/

/-- What is bound so far. -/
abbrev Binding (V A : Type) := V → Option A

namespace Binding

variable {V A : Type} [DecidableEq V] [DecidableEq A]

/-- Bind a variable, or compare with what it is bound to. -/
def extend (σ : Binding V A) (v : V) (a : A) : Option (Binding V A) :=
  match σ v with
  | none => some (Function.update σ v (some a))
  | some b => if b = a then some σ else none

/-- Run a list of equations, left to right. -/
def extendAll : List (V × A) → Binding V A → Option (Binding V A)
  | [], σ => some σ
  | (v, a) :: eqs, σ => (σ.extend v a).bind (extendAll eqs)

omit [DecidableEq V] [DecidableEq A] in
/-- The assignment `f` gives every bound variable its value. -/
def Agrees (σ : Binding V A) (f : V → A) : Prop := ∀ v a, σ v = some a → f v = a

/-- The assignment `f` solves the equations. -/
def Solves (f : V → A) (eqs : List (V × A)) : Prop := ∀ eq ∈ eqs, f eq.1 = eq.2

omit [DecidableEq V] [DecidableEq A] in
/-- The equations of both lists have to hold. -/
theorem solves_append {f : V → A} {eqs eqs' : List (V × A)} :
    Solves f (eqs ++ eqs') ↔ Solves f eqs ∧ Solves f eqs' := by
  simp only [Solves, List.mem_append, or_imp, forall_and]

@[simp] theorem extendAll_nil (σ : Binding V A) : extendAll [] σ = some σ := rfl

theorem extendAll_cons (v : V) (a : A) (eqs : List (V × A)) (σ : Binding V A) :
    extendAll ((v, a) :: eqs) σ = (σ.extend v a).bind (extendAll eqs) := rfl

/-- A binding extended by one equation binds that variable, and the others as before. -/
theorem extend_eq_some {σ τ : Binding V A} {v : V} {a : A} (h : σ.extend v a = some τ) :
    τ = Function.update σ v (some a) := by
  rw [extend] at h
  split at h
  next => exact (Option.some.inj h).symm
  next b hb =>
    split at h
    next heq =>
      rw [← Option.some.inj h, ← heq, ← hb, Function.update_eq_self]
    next => cases h

/-- One equation succeeds exactly when it is compatible with what is bound. -/
theorem extend_isSome_iff {σ : Binding V A} {v : V} {a : A} :
    (σ.extend v a).isSome ↔ ∀ b, σ v = some b → b = a := by
  rw [extend]
  split
  next h => simp [h]
  next b h =>
    rw [h]
    split
    next heq => simp [heq]
    next hne => simp [hne]

/-- What is bound after the equations: what was bound before, and what they say. -/
theorem extendAll_get {eqs : List (V × A)} {σ τ : Binding V A} (h : extendAll eqs σ = some τ)
    (v : V) (a : A) : τ v = some a ↔ σ v = some a ∨ (v, a) ∈ eqs := by
  induction eqs generalizing σ with
  | nil =>
    cases h
    simp
  | cons eq eqs ih =>
    obtain ⟨w, b⟩ := eq
    rw [extendAll_cons] at h
    obtain ⟨ρ, hρ, hτ⟩ := Option.bind_eq_some_iff.1 h
    have hcompat := extend_isSome_iff.1 (Option.isSome_of_eq_some hρ)
    rw [ih hτ, extend_eq_some hρ, List.mem_cons, Prod.mk.injEq]
    -- the first equation is about `v` or about another variable
    by_cases hvw : v = w
    · subst hvw
      rw [Function.update_self, Option.some.injEq]
      constructor
      · rintro (rfl | hmem)
        · exact Or.inr (Or.inl ⟨rfl, rfl⟩)
        · exact Or.inr (Or.inr hmem)
      · rintro (hσ | ⟨-, rfl⟩ | hmem)
        · exact Or.inl (hcompat a hσ).symm
        · exact Or.inl rfl
        · exact Or.inr hmem
    · rw [Function.update_of_ne hvw]
      simp [hvw]

/-- The equations succeed exactly when they have a solution that agrees with what is bound. -/
theorem extendAll_isSome_iff [Inhabited A] {eqs : List (V × A)} {σ : Binding V A} :
    (extendAll eqs σ).isSome ↔ ∃ f, σ.Agrees f ∧ Solves f eqs := by
  constructor
  · intro h
    obtain ⟨τ, hτ⟩ := Option.isSome_iff_exists.1 h
    -- the solution of a table assigns anything to the variables outside
    refine ⟨fun v => (τ v).getD default, fun v a hv => ?_, fun eq heq => ?_⟩
    · have : τ v = some a := (extendAll_get hτ v a).2 (Or.inl hv)
      simp [this]
    · have : τ eq.1 = some eq.2 := (extendAll_get hτ eq.1 eq.2).2 (Or.inr heq)
      simp [this]
  · rintro ⟨f, hagree, hsolves⟩
    induction eqs generalizing σ with
    | nil => rfl
    | cons eq eqs ih =>
      obtain ⟨v, a⟩ := eq
      have hv : f v = a := hsolves (v, a) (List.mem_cons_self ..)
      -- a function that solves the equations keeps each extension consistent
      have hsome : (σ.extend v a).isSome :=
        extend_isSome_iff.2 fun b hb => (hagree v b hb).symm.trans hv
      obtain ⟨ρ, hρ⟩ := Option.isSome_iff_exists.1 hsome
      rw [extendAll_cons, hρ, Option.bind_some]
      refine ih ?_ fun eq heq => hsolves eq (List.mem_cons_of_mem _ heq)
      intro w b hw
      rw [extend_eq_some hρ] at hw
      by_cases hwv : w = v
      · subst hwv
        rw [Function.update_self] at hw
        rw [hv, Option.some.inj hw]
      · rw [Function.update_of_ne hwv] at hw
        exact hagree w b hw

end Binding
