import Mathlib.Data.List.Forall2
import TacticsDSL.Utils.Outcome

/-!
# Programs in lockstep

Two programs, from two states, that return together with related results or throw together with
related errors. Unlike a simulation this speaks of both directions at once, so that what one of the
programs does can be read off the other.
-/

namespace Prog

variable {ε ε₀ σ σ₀ α α₀ β β₀ : Type}

/-- Both programs return and `Q` holds of what they return and leave, or both throw and `E` holds of
their errors. -/
def Lockstep (p : Prog ε σ α) (p₀ : Prog ε₀ σ₀ α₀) (s : σ) (s₀ : σ₀) (E : ε → ε₀ → Prop)
    (Q : α → σ → α₀ → σ₀ → Prop) : Prop :=
  match run p s, run p₀ s₀ with
  | (.ok a, s'), (.ok a₀, s₀') => Q a s' a₀ s₀'
  | (.error e, _), (.error e₀, _) => E e e₀
  | _, _ => False

variable {p : Prog ε σ α} {p₀ : Prog ε₀ σ₀ α₀} {s s' : σ} {s₀ s₀' : σ₀} {E : ε → ε₀ → Prop}
variable {Q : α → σ → α₀ → σ₀ → Prop}

/-- How the two programs end. -/
theorem Lockstep.outcomes (h : Lockstep p p₀ s s₀ E Q) :
    (∃ a s' a₀ s₀', run p s = (.ok a, s') ∧ run p₀ s₀ = (.ok a₀, s₀') ∧ Q a s' a₀ s₀') ∨
      ∃ e s' e₀ s₀', run p s = (.error e, s') ∧ run p₀ s₀ = (.error e₀, s₀') ∧ E e e₀ := by
  unfold Lockstep at h
  split at h
  next a s' a₀ s₀' hp hp₀ => exact Or.inl ⟨a, s', a₀, s₀', hp, hp₀, h⟩
  next e s' e₀ s₀' hp hp₀ => exact Or.inr ⟨e, s', e₀, s₀', hp, hp₀, h⟩
  next => cases h

theorem Lockstep.of_returns {a : α} {a₀ : α₀} (h : run p s = (.ok a, s'))
    (h₀ : run p₀ s₀ = (.ok a₀, s₀')) (hQ : Q a s' a₀ s₀') : Lockstep p p₀ s s₀ E Q := by
  unfold Lockstep
  rw [h, h₀]
  exact hQ

theorem Lockstep.of_throws {e : ε} {e₀ : ε₀} (h : run p s = (.error e, s'))
    (h₀ : run p₀ s₀ = (.error e₀, s₀')) (hE : E e e₀) : Lockstep p p₀ s s₀ E Q := by
  unfold Lockstep
  rw [h, h₀]
  exact hE

theorem Lockstep.pure {a : α} {a₀ : α₀} (h : Q a s a₀ s₀) :
    Lockstep (Pure.pure a : Prog ε σ α) (Pure.pure a₀ : Prog ε₀ σ₀ α₀) s s₀ E Q := h

theorem Lockstep.throw_bind {f : α → Prog ε σ β} {f₀ : α₀ → Prog ε₀ σ₀ β₀} {e : ε} {e₀ : ε₀}
    {R : β → σ → β₀ → σ₀ → Prop} (h : E e e₀) :
    Lockstep ((throw e : Prog ε σ α) >>= f) ((throw e₀ : Prog ε₀ σ₀ α₀) >>= f₀) s s₀ E R := h

/-- More may be concluded of what both programs return. -/
theorem Lockstep.mono {R : α → σ → α₀ → σ₀ → Prop} (h : Lockstep p p₀ s s₀ E Q)
    (hQ : ∀ a s' a₀ s₀', Q a s' a₀ s₀' → R a s' a₀ s₀') : Lockstep p p₀ s s₀ E R := by
  rcases h.outcomes with ⟨a, s', a₀, s₀', hp, hp₀, h⟩ | ⟨e, s', e₀, s₀', hp, hp₀, h⟩
  · exact Lockstep.of_returns hp hp₀ (hQ a s' a₀ s₀' h)
  · exact Lockstep.of_throws hp hp₀ h

/-- Programs whose first parts are in lockstep, and whose second parts are whatever these return. -/
theorem Lockstep.bind {f : α → Prog ε σ β} {f₀ : α₀ → Prog ε₀ σ₀ β₀}
    {R : β → σ → β₀ → σ₀ → Prop} (h : Lockstep p p₀ s s₀ E Q)
    (hf : ∀ a s' a₀ s₀', Q a s' a₀ s₀' → Lockstep (f a) (f₀ a₀) s' s₀' E R) :
    Lockstep (p >>= f) (p₀ >>= f₀) s s₀ E R := by
  rcases h.outcomes with ⟨a, s', a₀, s₀', hp, hp₀, h⟩ | ⟨e, s', e₀, s₀', hp, hp₀, h⟩
  · unfold Lockstep
    rw [run_bind_of_ok hp, run_bind_of_ok hp₀]
    exact hf a s' a₀ s₀' h
  · exact Lockstep.of_throws (run_bind_of_error hp f) (run_bind_of_error hp₀ f₀) h

/-- A step that only the first program makes. -/
theorem Lockstep.left_bind {q₀ : Prog ε₀ σ₀ β₀} {f : α → Prog ε σ β} {a : α}
    {R : β → σ → β₀ → σ₀ → Prop} (h : run p s = (.ok a, s'))
    (hf : Lockstep (f a) q₀ s' s₀ E R) : Lockstep (p >>= f) q₀ s s₀ E R := by
  unfold Lockstep at hf ⊢
  rw [run_bind_of_ok h]
  exact hf

/-- Steps that only the first program makes, of which it is known that they return. -/
theorem Lockstep.left_meets_bind {q₀ : Prog ε₀ σ₀ β₀} {f : α → Prog ε σ β} {P : α → σ → Prop}
    {R : β → σ → β₀ → σ₀ → Prop} (h : Meets p s (fun _ => False) P)
    (hf : ∀ a s', P a s' → Lockstep (f a) q₀ s' s₀ E R) : Lockstep (p >>= f) q₀ s s₀ E R := by
  rcases hrun : run p s with ⟨e | a, s'⟩
  · exact (h.of_error hrun).elim
  · exact Lockstep.left_bind hrun (hf a s' (h.of_ok hrun))

/-- A step that only the second program makes. -/
theorem Lockstep.right_bind {q : Prog ε σ β} {f₀ : α₀ → Prog ε₀ σ₀ β₀} {a₀ : α₀}
    {R : β → σ → β₀ → σ₀ → Prop} (h : run p₀ s₀ = (.ok a₀, s₀'))
    (hf : Lockstep q (f₀ a₀) s s₀' E R) : Lockstep q (p₀ >>= f₀) s s₀ E R := by
  unfold Lockstep at hf ⊢
  rw [run_bind_of_ok h]
  exact hf

theorem Lockstep.get_bind {f : σ → Prog ε σ β} {f₀ : σ₀ → Prog ε₀ σ₀ β₀}
    {R : β → σ → β₀ → σ₀ → Prop} (h : Lockstep (f s) (f₀ s₀) s s₀ E R) :
    Lockstep (get >>= f) (get >>= f₀) s s₀ E R := h

/-- The same branch is taken by both programs. -/
theorem Lockstep.ite {c c₀ : Prop} [Decidable c] [Decidable c₀] {q : Prog ε σ α}
    {q₀ : Prog ε₀ σ₀ α₀} (hc : c ↔ c₀) (ht : c → c₀ → Lockstep p p₀ s s₀ E Q)
    (he : ¬ c → ¬ c₀ → Lockstep q q₀ s s₀ E Q) :
    Lockstep (if c then p else q) (if c₀ then p₀ else q₀) s s₀ E Q := by
  by_cases h : c
  · rw [if_pos h, if_pos (hc.1 h)]
    exact ht h (hc.1 h)
  · have h₀ : ¬ c₀ := fun h₀ => h (hc.2 h₀)
    rw [if_neg h, if_neg h₀]
    exact he h h₀

/-- Computations without a state that fail with one error. -/
theorem Lockstep.ofExcept_bind {E : ε → ε → Prop} (hE : ∀ e, E e e) {x : Except ε α}
    {x₀ : Except ε α₀} {R₀ : α → α₀ → Prop} {f : α → Prog ε σ β} {f₀ : α₀ → Prog ε σ₀ β₀}
    {R : β → σ → β₀ → σ₀ → Prop}
    (h : (∃ e, x = .error e ∧ x₀ = .error e) ∨ ∃ a a₀, x = .ok a ∧ x₀ = .ok a₀ ∧ R₀ a a₀)
    (hf : ∀ a a₀, R₀ a a₀ → Lockstep (f a) (f₀ a₀) s s₀ E R) :
    Lockstep (Prog.ofExcept x >>= f) (Prog.ofExcept x₀ >>= f₀) s s₀ E R := by
  rcases h with ⟨e, rfl, rfl⟩ | ⟨a, a₀, rfl, rfl, h⟩
  · exact hE e
  · exact hf a a₀ h

/-- One computation without a state in both programs. -/
theorem Lockstep.ofExcept_same_bind {E : ε → ε → Prop} (hE : ∀ e, E e e) (x : Except ε α)
    {f : α → Prog ε σ β} {f₀ : α → Prog ε σ₀ β₀} {R : β → σ → β₀ → σ₀ → Prop}
    (hf : ∀ a, Lockstep (f a) (f₀ a) s s₀ E R) :
    Lockstep (Prog.ofExcept x >>= f) (Prog.ofExcept x >>= f₀) s s₀ E R := by
  cases x with
  | error e => exact hE e
  | ok a => exact hf a

/-- What is known of the first program alone. -/
theorem Lockstep.and_meets {E' : ε → Prop} {R : α → σ → Prop} (h : Lockstep p p₀ s s₀ E Q)
    (hp : Meets p s E' R) :
    Lockstep p p₀ s s₀ E fun a s' a₀ s₀' => Q a s' a₀ s₀' ∧ R a s' := by
  rcases h.outcomes with ⟨a, s', a₀, s₀', hrun, hrun₀, h⟩ | ⟨e, s', e₀, s₀', hrun, hrun₀, h⟩
  · exact Lockstep.of_returns hrun hrun₀ ⟨h, hp.of_ok hrun⟩
  · exact Lockstep.of_throws hrun hrun₀ h

/-- One after the other; the invariant speaks of what is still to be done. -/
theorem Lockstep.mapM {f : α → Prog ε σ β} {f₀ : α₀ → Prog ε₀ σ₀ β₀} {S : α → α₀ → Prop}
    {R : β → β₀ → Prop} {I : List α → σ → σ₀ → Prop}
    (hstep : ∀ a a₀ as s s₀, S a a₀ → I (a :: as) s s₀ → Lockstep (f a) (f₀ a₀) s s₀ E
      fun b s' b₀ s₀' => R b b₀ ∧ I as s' s₀')
    {as : List α} {as₀ : List α₀} (h : List.Forall₂ S as as₀) (hI : I as s s₀) :
    Lockstep (as.mapM f) (as₀.mapM f₀) s s₀ E
      fun bs s' bs₀ s₀' => List.Forall₂ R bs bs₀ ∧ I [] s' s₀' := by
  induction h generalizing s s₀ with
  | nil => exact Lockstep.pure ⟨.nil, hI⟩
  | @cons a a₀ as as₀ ha _ ih =>
    rw [List.mapM_cons, List.mapM_cons]
    refine (hstep a a₀ as s s₀ ha hI).bind fun b s' b₀ s₀' hb => ?_
    refine (ih hb.2).bind fun bs s'' bs₀ s₀'' hbs => ?_
    exact Lockstep.pure ⟨.cons hb.1 hbs.1, hbs.2⟩

/-- Loops in lockstep, with an invariant of both states. -/
theorem Lockstep.forM {f : α → Prog ε σ PUnit} {f₀ : α₀ → Prog ε₀ σ₀ PUnit}
    {S : α → α₀ → Prop} {I : σ → σ₀ → Prop}
    (hstep : ∀ a a₀ s s₀, S a a₀ → I s s₀ → Lockstep (f a) (f₀ a₀) s s₀ E
      fun _ s' _ s₀' => I s' s₀')
    {as : List α} {as₀ : List α₀} (h : List.Forall₂ S as as₀) (hI : I s s₀) :
    Lockstep (as.forM f) (as₀.forM f₀) s s₀ E fun _ s' _ s₀' => I s' s₀' := by
  rw [List.forM_eq_forM, List.forM_eq_forM]
  induction h generalizing s s₀ with
  | nil => exact Lockstep.pure hI
  | @cons a a₀ as as₀ ha _ ih =>
    rw [List.forM_cons, List.forM_cons]
    exact (hstep a a₀ s s₀ ha hI).bind fun _ s' _ s₀' hI' => ih hI'

/-- In lockstep with the same errors, the results of one program are those of the other. -/
theorem Lockstep.map_fst {p₀ : Prog ε σ₀ α₀} {g : α → α₀}
    (h : Lockstep p p₀ s s₀ Eq fun a _ a₀ _ => g a = a₀) :
    (run p s).1.map g = (run p₀ s₀).1 := by
  rcases h.outcomes with ⟨a, s', a₀, s₀', hp, hp₀, h⟩ | ⟨e, s', e₀, s₀', hp, hp₀, h⟩
  · rw [hp, hp₀]
    exact congrArg Except.ok h
  · rw [hp, hp₀]
    exact congrArg Except.error h

/-- In lockstep one program returns exactly where the other does. -/
theorem Lockstep.isOk_eq (h : Lockstep p p₀ s s₀ E Q) : (run p s).1.isOk = (run p₀ s₀).1.isOk := by
  rcases h.outcomes with ⟨a, s', a₀, s₀', hp, hp₀, -⟩ | ⟨e, s', e₀, s₀', hp, hp₀, -⟩
  · rw [hp, hp₀]
    rfl
  · rw [hp, hp₀]
    rfl

end Prog
