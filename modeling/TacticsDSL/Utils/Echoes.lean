import TacticsDSL.Utils.Prog

/-!
# One computation echoes another

Two computations of the same shape, the second one on data of which something was taken away. It
returns what is left of the value of the first one, or throws what is left of its error, and a state
is changed by both in the same way.
-/

namespace Except

variable {ε ε' α α' β β' : Type}

/-- `x'` ends as `x` does, with `e` applied to the error and `g` to the value. -/
def Echoes (e : ε → ε') (g : α → α') (x : Except ε α) (x' : Except ε' α') : Prop :=
  x' = (x.map g).mapError e

variable {e : ε → ε'} {g : α → α'} {h : β → β'} {x : Except ε α} {x' : Except ε' α'}

namespace Echoes

theorem pure (a : α) : Echoes e g (Pure.pure a) (Pure.pure (g a)) := rfl

theorem throw (err : ε) : Echoes e g (MonadExcept.throw err) (MonadExcept.throw (e err)) := rfl

/-- Echoes of both parts are an echo of the whole. -/
theorem bind {f : α → Except ε β} {f' : α' → Except ε' β'} (hx : Echoes e g x x')
    (hf : ∀ a, Echoes e h (f a) (f' (g a))) : Echoes e h (x >>= f) (x' >>= f') := by
  cases x with
  | ok a =>
    obtain rfl : x' = .ok (g a) := hx
    exact hf a
  | error err =>
    obtain rfl : x' = .error (e err) := hx
    rfl

/-- The same branch is taken on both sides. -/
theorem ite {c c' : Prop} [Decidable c] [Decidable c'] {y : Except ε α} {y' : Except ε' α'}
    (hc : c ↔ c') (ht : Echoes e g x x') (he : Echoes e g y y') :
    Echoes e g (if c then x else y) (if c' then x' else y') := by
  by_cases hcase : c
  · rwa [if_pos hcase, if_pos (hc.1 hcase)]
  · rwa [if_neg hcase, if_neg (mt hc.2 hcase)]

/-- A computation that reads nothing of the data and throws nothing that changes. -/
theorem refl {e : ε → ε} {x : Except ε α} (hx : ∀ err, x = .error err → e err = err) :
    Echoes e id x x := by
  cases x with
  | ok a => rfl
  | error err => exact congrArg Except.error (hx err rfl).symm

/-- A loop over the changed list, the body of which echoes that of the other loop. -/
theorem mapM {l : List α} {f : α → Except ε β} {f' : α' → Except ε' β'}
    (hf : ∀ a, Echoes e h (f a) (f' (g a))) :
    Echoes e (List.map h) (l.mapM f) ((l.map g).mapM f') := by
  induction l with
  | nil => exact .pure []
  | cons a l ih =>
    rw [List.mapM_cons, List.map_cons, List.mapM_cons]
    exact .bind (hf a) fun b => .bind ih fun bs => .pure (b :: bs)

/-- One computation returns exactly if the other does. -/
theorem toOption (hx : Echoes e g x x') : x'.toOption = x.toOption.map g := by
  rw [hx]
  cases x <;> rfl

end Echoes

end Except

namespace Prog

variable {ε ε' σ α α' β β' : Type}

/-- `p'` runs as `p` does, with `e` applied to the error and `g` to the value. -/
def Echoes (e : ε → ε') (g : α → α') (p : Prog ε σ α) (p' : Prog ε' σ α') : Prop :=
  ∀ s, Except.Echoes e g (run p s).1 (run p' s).1 ∧ (run p' s).2 = (run p s).2

variable {e : ε → ε'} {g : α → α'} {h : β → β'} {p : Prog ε σ α} {p' : Prog ε' σ α'}

namespace Echoes

theorem pure (a : α) : Echoes e g (Pure.pure a : Prog ε σ α) (Pure.pure (g a)) :=
  fun _ => ⟨rfl, rfl⟩

theorem throw (err : ε) :
    Echoes e g (MonadExcept.throw err : Prog ε σ α) (MonadExcept.throw (e err)) :=
  fun _ => ⟨rfl, rfl⟩

/-- An echo without a state is one with a state that is not touched. -/
theorem ofExcept {x : Except ε α} {x' : Except ε' α'} (hx : Except.Echoes e g x x') :
    Echoes e g (Prog.ofExcept x : Prog ε σ α) (Prog.ofExcept x') := fun _ => ⟨hx, rfl⟩

/-- The second part starts from the same state on both sides. -/
theorem bind {f : α → Prog ε σ β} {f' : α' → Prog ε' σ β'} (hp : Echoes e g p p')
    (hf : ∀ a, Echoes e h (f a) (f' (g a))) : Echoes e h (p >>= f) (p' >>= f') := by
  intro s
  obtain ⟨houtcome, hstate⟩ := hp s
  cases hrun : run p s with
  | mk r t =>
    cases hrun' : run p' s with
    | mk r' t' =>
      rw [hrun, hrun'] at houtcome hstate
      obtain rfl : t' = t := hstate
      cases r with
      | ok a =>
        obtain rfl : r' = .ok (g a) := houtcome
        rw [run_bind_of_ok hrun, run_bind_of_ok hrun']
        exact hf a _
      | error err =>
        obtain rfl : r' = .error (e err) := houtcome
        rw [run_bind_of_error hrun, run_bind_of_error hrun']
        exact ⟨rfl, rfl⟩

/-- The same branch is taken in programs with a state. -/
theorem ite {c c' : Prop} [Decidable c] [Decidable c'] {q : Prog ε σ α} {q' : Prog ε' σ α'}
    (hc : c ↔ c') (ht : Echoes e g p p') (he : Echoes e g q q') :
    Echoes e g (if c then p else q) (if c' then p' else q') := by
  by_cases hcase : c
  · rwa [if_pos hcase, if_pos (hc.1 hcase)]
  · rwa [if_neg hcase, if_neg (mt hc.2 hcase)]

/-- A program that reads nothing of the data and throws nothing that changes. -/
theorem refl {e : ε → ε} {p : Prog ε σ α} (hp : ∀ s err, (run p s).1 = .error err → e err = err) :
    Echoes e id p p := fun s => ⟨.refl (hp s), rfl⟩

/-- A loop over the changed list, for its effects. -/
theorem forM {l : List β} {f : β → Prog ε σ PUnit} {f' : β' → Prog ε' σ PUnit}
    (hf : ∀ b, Echoes e id (f b) (f' (h b))) : Echoes e id (l.forM f) ((l.map h).forM f') := by
  induction l with
  | nil => exact fun _ => ⟨rfl, rfl⟩
  | cons b l ih =>
    rw [List.forM_eq_forM, List.forM_cons, List.map_cons, List.forM_eq_forM, List.forM_cons]
    exact .bind (hf b) fun _ => ih

end Echoes

end Prog
