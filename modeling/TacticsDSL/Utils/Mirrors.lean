import TacticsDSL.Utils.Prog

/-!
# One program mirrors another

Two programs, from two states. `Mirrors` says that where the second one returns, the first one
returns as well, with a value and a state that are related to those of the second one, or throws
an error that is allowed. The rules have the shape of the programs: both do the same thing at each
step, and the relation between their states is carried along.
-/

namespace Prog

variable {ε ε₀ σ σ₀ α α₀ β β₀ : Type}

/-- Where `p₀` returns from `s₀`, `p` throws an error with `E` from `s`, or returns; then `Q` holds
of what it returns and leaves and what `p₀` returns and leaves. -/
def Mirrors (p : Prog ε σ α) (p₀ : Prog ε₀ σ₀ α₀) (s : σ) (s₀ : σ₀) (E : ε → Prop)
    (Q : α → σ → α₀ → σ₀ → Prop) : Prop :=
  ∀ a₀ s₀', run p₀ s₀ = (.ok a₀, s₀') →
    (∃ e s', run p s = (.error e, s') ∧ E e) ∨ ∃ a s', run p s = (.ok a, s') ∧ Q a s' a₀ s₀'

variable {p : Prog ε σ α} {p₀ : Prog ε₀ σ₀ α₀} {s s' : σ} {s₀ s₀' : σ₀} {E : ε → Prop}
variable {Q : α → σ → α₀ → σ₀ → Prop}

/-- Programs that return at once. -/
theorem Mirrors.pure {a : α} {a₀ : α₀} (h : Q a s a₀ s₀) :
    Mirrors (Pure.pure a : Prog ε σ α) (Pure.pure a₀ : Prog ε₀ σ₀ α₀) s s₀ E Q := by
  rintro b s₀' hrun
  cases hrun
  exact Or.inr ⟨a, s, rfl, h⟩

/-- Nothing is asked where the second program does not return. -/
theorem Mirrors.of_not_returns (h : ∀ a₀ s₀', run p₀ s₀ ≠ (.ok a₀, s₀')) :
    Mirrors p p₀ s s₀ E Q := fun a₀ s₀' hrun => absurd hrun (h a₀ s₀')

theorem Mirrors.throw_right {e₀ : ε₀} : Mirrors p (throw e₀ : Prog ε₀ σ₀ α₀) s s₀ E Q :=
  Mirrors.of_not_returns fun a₀ s₀' h => by cases h

theorem Mirrors.of_returns {a : α} {a₀ : α₀} (h : run p s = (.ok a, s'))
    (h₀ : run p₀ s₀ = (.ok a₀, s₀')) (hQ : Q a s' a₀ s₀') : Mirrors p p₀ s s₀ E Q := by
  rintro b t hrun
  rw [h₀] at hrun
  cases hrun
  exact Or.inr ⟨a, s', h, hQ⟩

/-- One part after the other is mirrored. -/
theorem Mirrors.bind {f : α → Prog ε σ β} {f₀ : α₀ → Prog ε₀ σ₀ β₀}
    {R : β → σ → β₀ → σ₀ → Prop} (hp : Mirrors p p₀ s s₀ E Q)
    (hf : ∀ a s' a₀ s₀', Q a s' a₀ s₀' → Mirrors (f a) (f₀ a₀) s' s₀' E R) :
    Mirrors (p >>= f) (p₀ >>= f₀) s s₀ E R := by
  intro b₀ s₀'' hrun
  obtain ⟨a₀, s₀', hrun₀, hrun⟩ := run_bind_ok.1 hrun
  rcases hp a₀ s₀' hrun₀ with ⟨e, s', herror, he⟩ | ⟨a, s', hok, hQ⟩
  · exact Or.inl ⟨e, s', run_bind_of_error herror f, he⟩
  · rw [run_bind_of_ok hok]
    exact hf a s' a₀ s₀' hQ b₀ s₀'' hrun

/-- The same branch is taken by both. -/
theorem Mirrors.ite {c c₀ : Prop} [Decidable c] [Decidable c₀] {q : Prog ε σ α}
    {q₀ : Prog ε₀ σ₀ α₀} (hc : c ↔ c₀) (ht : c → Mirrors p p₀ s s₀ E Q)
    (he : ¬ c → Mirrors q q₀ s s₀ E Q) :
    Mirrors (if c then p else q) (if c₀ then p₀ else q₀) s s₀ E Q := by
  by_cases h : c
  · rw [if_pos h, if_pos (hc.1 h)]
    exact ht h
  · rw [if_neg h, if_neg fun h₀ => h (hc.2 h₀)]
    exact he h

/-- Computations without a state, of which the second one may fail. -/
theorem Mirrors.ofExcept {x : Except ε α} {x₀ : Except ε₀ α₀}
    (h : ∀ a₀, x₀ = .ok a₀ → (∃ e, x = .error e ∧ E e) ∨ ∃ a, x = .ok a ∧ Q a s a₀ s₀) :
    Mirrors (Prog.ofExcept x) (Prog.ofExcept x₀) s s₀ E Q := by
  rintro a₀ s₀' hrun
  cases hrun
  rcases h a₀ rfl with ⟨e, rfl, he⟩ | ⟨a, rfl, hQ⟩
  · exact Or.inl ⟨e, s, rfl, he⟩
  · exact Or.inr ⟨a, s, rfl, hQ⟩

end Prog
