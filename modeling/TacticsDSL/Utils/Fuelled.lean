import TacticsDSL.Utils.Prog

/-!
# Programs with a recursion bound

A recursive program that the source leaves unbounded is a family of programs, one for each
bound on the recursion. `Returns` says that the family returns, for every large enough bound,
the same value in the same state. `Returns₂` is the same for two bounds, of an outer and an
inner recursion.
-/

namespace Prog

variable {ε σ α β : Type}

/-- With enough fuel the program returns `a`, and leaves `s'`. -/
def Returns (p : ℕ → Prog ε σ α) (s : σ) (a : α) (s' : σ) : Prop :=
  ∃ N, ∀ n ≥ N, run (p n) s = (.ok a, s')

/-- With enough of either fuel the program returns `a` and leaves `s'`. -/
def Returns₂ (p : ℕ → ℕ → Prog ε σ α) (s : σ) (a : α) (s' : σ) : Prop :=
  ∃ N, ∀ n ≥ N, ∀ m ≥ N, run (p n m) s = (.ok a, s')

/-- A program that needs no fuel. -/
theorem Returns.of_run {x : Prog ε σ α} {s s' : σ} {a : α} (h : run x s = (.ok a, s')) :
    Returns (fun _ => x) s a s' := ⟨0, fun _ _ => h⟩

/-- One level of the recursion. -/
theorem Returns.succ {p q : ℕ → Prog ε σ α} {s s' : σ} {a : α} (hpq : ∀ n, p (n + 1) = q n)
    (hq : Returns q s a s') : Returns p s a s' := by
  obtain ⟨N, hN⟩ := hq
  refine ⟨N + 1, fun n hn => ?_⟩
  obtain ⟨n, rfl⟩ : ∃ m, n = m + 1 := ⟨n - 1, by omega⟩
  rw [hpq]
  exact hN n (by omega)

/-- The same fuel for both recursions. -/
theorem Returns₂.diag {p : ℕ → ℕ → Prog ε σ α} {s s' : σ} {a : α} (h : Returns₂ p s a s') :
    Returns (fun n => p n n) s a s' := by
  obtain ⟨N, hN⟩ := h
  exact ⟨N, fun n hn => hN n hn n hn⟩

/-- One level of the inner recursion. -/
theorem Returns₂.succ {p q : ℕ → ℕ → Prog ε σ α} {s s' : σ} {a : α}
    (hpq : ∀ n m, p n (m + 1) = q n m) (hq : Returns₂ q s a s') : Returns₂ p s a s' := by
  obtain ⟨N, hN⟩ := hq
  refine ⟨N + 1, fun n hn m hm => ?_⟩
  obtain ⟨m, rfl⟩ : ∃ k, m = k + 1 := ⟨m - 1, by omega⟩
  rw [hpq]
  exact hN n (by omega) m (by omega)

/-! ## Termination -/

section Ends

variable {ι κ : Type}

/-- Within every bound that satisfies `I` the program has the same outcome: a value and a state
with `Q`, or an error with `E`. -/
def Ends (I : ι → Prop) (p : ι → Prog ε σ α) (s : σ) (E : ε → Prop) (Q : α → σ → Prop) : Prop :=
  ∃ r s', (∀ i, I i → run (p i) s = (r, s')) ∧ (∀ a, r = .ok a → Q a s') ∧ ∀ e, r = .error e → E e

variable {I : ι → Prop} {p : ι → Prog ε σ α} {s : σ} {E : ε → Prop} {Q : α → σ → Prop}

theorem Ends.pure {a : α} (h : Q a s) : Ends I (fun _ => (Pure.pure a : Prog ε σ α)) s E Q := by
  refine ⟨.ok a, s, fun _ _ => rfl, ?_, by simp⟩
  rintro b hb
  cases hb
  exact h

theorem Ends.throw {e : ε} (h : E e) : Ends I (fun _ => (throw e : Prog ε σ α)) s E Q := by
  refine ⟨.error e, s, fun _ _ => rfl, by simp, ?_⟩
  rintro e' he
  cases he
  exact h

/-- A program without a bound. -/
theorem Ends.of_run {x : Prog ε σ α} (hok : ∀ a s', run x s = (.ok a, s') → Q a s')
    (herror : ∀ e s', run x s = (.error e, s') → E e) : Ends I (fun _ => x) s E Q := by
  obtain ⟨⟨r, s'⟩, hr⟩ : ∃ r, run x s = r := ⟨_, rfl⟩
  refine ⟨r, s', fun _ _ => hr, ?_, ?_⟩
  · rintro a rfl
    exact hok a s' hr
  · rintro e rfl
    exact herror e s' hr

/-- More may be concluded of how the program ends. -/
theorem Ends.mono {Q' : α → σ → Prop} (h : Ends I p s E Q) (hQ : ∀ a s', Q a s' → Q' a s') :
    Ends I p s E Q' := by
  obtain ⟨r, s', hrun, hok, herror⟩ := h
  exact ⟨r, s', hrun, fun a ha => hQ a s' (hok a ha), herror⟩

/-- The ends of two programs one after the other. -/
theorem Ends.bind {f : ι → α → Prog ε σ β} {R : β → σ → Prop} (hp : Ends I p s E Q)
    (hf : ∀ a s', Q a s' → Ends I (fun i => f i a) s' E R) :
    Ends I (fun i => p i >>= f i) s E R := by
  obtain ⟨r, s', hrun, hok, herror⟩ := hp
  cases r with
  | ok a =>
    obtain ⟨r, s'', hrun', hok', herror'⟩ := hf a s' (hok a rfl)
    refine ⟨r, s'', fun i hi => ?_, hok', herror'⟩
    rw [run_bind_of_ok (hrun i hi)]
    exact hrun' i hi
  | error e =>
    refine ⟨.error e, s', fun i hi => run_bind_of_error (hrun i hi) _, by simp, ?_⟩
    rintro e' he
    cases he
    exact herror e rfl

/-- The ends of a program with two branches. -/
theorem Ends.ite {c : Prop} [Decidable c] {q : ι → Prog ε σ α} (ht : c → Ends I p s E Q)
    (he : ¬c → Ends I q s E Q) : Ends I (fun i => if c then p i else q i) s E Q := by
  by_cases hc : c
  · simp only [if_pos hc]
    exact ht hc
  · simp only [if_neg hc]
    exact he hc

/-- The program may have another bound, as long as each bound comes from one that suffices. -/
theorem Ends.reindex {J : κ → Prop} {q : κ → Prog ε σ α} (h : Ends I p s E Q)
    (hJ : ∀ j, J j → ∃ i, I i ∧ q j = p i) : Ends J q s E Q := by
  obtain ⟨r, s', hrun, hpost⟩ := h
  refine ⟨r, s', fun j hj => ?_, hpost⟩
  obtain ⟨i, hi, hq⟩ := hJ j hj
  rw [hq]
  exact hrun i hi

end Ends

end Prog
