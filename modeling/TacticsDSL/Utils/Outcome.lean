import TacticsDSL.Utils.Prog

/-!
# What a program returns and what it throws

`x.Meets s E Q` says of a run from the state `s` that it returns a value and a state with `Q`, or
throws an error with `E`. The state after a throw is not spoken of.
-/

namespace Prog

variable {ε σ α β : Type} {E : ε → Prop} {s : σ}

/-- The run from `s` ends in a value and a state with `Q`, or in an error with `E`. -/
def Meets (x : Prog ε σ α) (s : σ) (E : ε → Prop) (Q : α → σ → Prop) : Prop :=
  match run x s with
  | (.ok a, s') => Q a s'
  | (.error e, _) => E e

/-- What is known of a run that returns. -/
theorem Meets.of_ok {x : Prog ε σ α} {Q : α → σ → Prop} {a : α} {s' : σ} (h : Meets x s E Q)
    (hrun : run x s = (.ok a, s')) : Q a s' := by
  unfold Meets at h
  rw [hrun] at h
  exact h

/-- What is known of a run that throws. -/
theorem Meets.of_error {x : Prog ε σ α} {Q : α → σ → Prop} {e : ε} {s' : σ} (h : Meets x s E Q)
    (hrun : run x s = (.error e, s')) : E e := by
  unfold Meets at h
  rw [hrun] at h
  exact h

theorem Meets.pure {a : α} {Q : α → σ → Prop} (h : Q a s) :
    Meets (Pure.pure a : Prog ε σ α) s E Q := h

theorem Meets.trivial (x : Prog ε σ α) : Meets x s (fun _ => True) fun _ _ => True := by
  unfold Meets
  split <;> exact True.intro

theorem Meets.throw_bind {e : ε} {f : α → Prog ε σ β} {R : β → σ → Prop} (h : E e) :
    Meets ((throw e : Prog ε σ α) >>= f) s E R := h

theorem Meets.modify_bind {g : σ → σ} {f : PUnit → Prog ε σ β} {R : β → σ → Prop}
    (hf : Meets (f ⟨⟩) (g s) E R) : Meets (modify g >>= f) s E R := hf

theorem Meets.throw {e : ε} {Q : α → σ → Prop} (h : E e) : Meets (throw e : Prog ε σ α) s E Q := h

/-- The second program starts from what the first one returns and leaves. -/
theorem Meets.bind {x : Prog ε σ α} {f : α → Prog ε σ β} {Q : α → σ → Prop} {R : β → σ → Prop}
    (hx : Meets x s E Q) (hf : ∀ a s', Q a s' → Meets (f a) s' E R) : Meets (x >>= f) s E R := by
  unfold Meets at hx ⊢
  rw [run_bind]
  cases hrun : run x s with
  | mk r s' =>
    rw [hrun] at hx
    cases r with
    | ok a => exact hf a s' hx
    | error e => exact hx

theorem Meets.get_bind {f : σ → Prog ε σ β} {R : β → σ → Prop} (hf : Meets (f s) s E R) :
    Meets (get >>= f) s E R :=
  Meets.bind (Q := fun a s' => a = s ∧ s' = s) ⟨rfl, rfl⟩ (by rintro a s' ⟨rfl, rfl⟩; exact hf)

/-- A computation without a state, of which it is known how it ends. -/
theorem Meets.ofExcept_bind {x : Except ε α} {f : α → Prog ε σ β} {R : β → σ → Prop}
    (herror : ∀ e, x = .error e → E e) (hok : ∀ a, x = .ok a → Meets (f a) s E R) :
    Meets (Prog.ofExcept x >>= f) s E R := by
  cases x with
  | ok a => exact hok a rfl
  | error e => exact herror e rfl

/-- A branch meets what is asked of it under its condition. -/
theorem Meets.ite {c : Prop} [Decidable c] {x y : Prog ε σ α} {Q : α → σ → Prop}
    (hx : c → Meets x s E Q) (hy : ¬c → Meets y s E Q) : Meets (if c then x else y) s E Q := by
  split
  next h => exact hx h
  next h => exact hy h

/-- More may be concluded of what is returned. -/
theorem Meets.mono {x : Prog ε σ α} {Q R : α → σ → Prop} (h : Meets x s E Q)
    (hQ : ∀ a s', Q a s' → R a s') : Meets x s E R := by
  unfold Meets at h ⊢
  cases hrun : run x s with
  | mk r s' =>
    rw [hrun] at h
    cases r with
    | ok a => exact hQ a s' h
    | error e => exact h

/-! ## Programs that throw one kind of error -/

/-- Whatever state it starts from, every error of the program has `E`. -/
def Throws (E : ε → Prop) (x : Prog ε σ α) : Prop := ∀ s, Meets x s E fun _ _ => True

theorem Throws.pure (a : α) : Throws E (Pure.pure a : Prog ε σ α) := fun _ => True.intro

theorem Throws.modify (f : σ → σ) : Throws E (modify f : Prog ε σ PUnit) := fun _ => True.intro

theorem Throws.ofExcept {x : Except ε α} (h : ∀ e, x = .error e → E e) :
    Throws E (Prog.ofExcept x : Prog ε σ α) := by
  intro s
  cases x with
  | ok a => exact True.intro
  | error e => exact h e rfl

/-- The errors of a sequence are those of its parts. -/
theorem Throws.bind {x : Prog ε σ α} {f : α → Prog ε σ β} (hx : Throws E x)
    (hf : ∀ a, Throws E (f a)) : Throws E (x >>= f) :=
  fun s => (hx s).bind fun a s' _ => hf a s'

theorem Throws.get_bind {f : σ → Prog ε σ β} (hf : ∀ s, Throws E (f s)) : Throws E (get >>= f) :=
  fun s => Meets.get_bind (hf s s)

theorem Throws.ite {c : Prop} [Decidable c] {x y : Prog ε σ α} (hx : Throws E x)
    (hy : Throws E y) : Throws E (if c then x else y) :=
  fun s => Meets.ite (fun _ => hx s) fun _ => hy s

/-- The errors of a loop are those of its body. -/
theorem Throws.forM {f : α → Prog ε σ PUnit} (h : ∀ a, Throws E (f a)) (as : List α) :
    Throws E (as.forM f) := by
  rw [List.forM_eq_forM]
  induction as with
  | nil => exact Throws.pure _
  | cons a as ih =>
    rw [List.forM_cons]
    exact (h a).bind fun _ => ih

/-- The errors of a loop that collects results are those of its body. -/
theorem Throws.mapM {f : α → Prog ε σ β} (h : ∀ a, Throws E (f a)) (as : List α) :
    Throws E (as.mapM f) := by
  induction as with
  | nil => exact Throws.pure _
  | cons a as ih =>
    rw [List.mapM_cons]
    exact (h a).bind fun b => ih.bind fun bs => Throws.pure _

end Prog
