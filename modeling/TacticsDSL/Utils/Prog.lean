import Mathlib.Tactic.Common

/-!
# Programs whose state survives an exception

`Prog ε σ α` is a computation over a mutable state `σ` that either returns an `α` or throws
an `ε`. A throw leaves the state as it is, as in a language with exceptions and mutable
objects: what was written before the throw stays written.

The lemmas peel a run apart: `run_bind` for evaluating, `run_bind_ok` for inverting a run
that returned.
-/

/-- Computations over a state `σ` that return an `α` or throw an `ε`. -/
abbrev Prog (ε σ α : Type) := ExceptT ε (StateM σ) α

namespace Prog

variable {ε σ α β : Type}

/-- Run from a state: the outcome, and the state it leaves. -/
def run (x : Prog ε σ α) (s : σ) : Except ε α × σ := StateT.run (ExceptT.run x) s

/-- The state is read but not changed; an error is thrown. -/
def ofExcept (x : Except ε α) : Prog ε σ α := ExceptT.mk (pure x)

@[simp] theorem run_pure (a : α) (s : σ) : run (pure a : Prog ε σ α) s = (.ok a, s) := rfl

@[simp] theorem run_throw (e : ε) (s : σ) :
    run (throw e : Prog ε σ α) s = (.error e, s) := rfl

@[simp] theorem run_get (s : σ) : run (get : Prog ε σ σ) s = (.ok s, s) := rfl

@[simp] theorem run_set (s s' : σ) : run (set s' : Prog ε σ PUnit) s = (.ok ⟨⟩, s') := rfl

@[simp] theorem run_modify (f : σ → σ) (s : σ) :
    run (modify f : Prog ε σ PUnit) s = (.ok ⟨⟩, f s) := rfl

@[simp] theorem run_ofExcept (x : Except ε α) (s : σ) :
    run (ofExcept x : Prog ε σ α) s = (x, s) := rfl

@[simp] theorem ofExcept_ok (a : α) : (ofExcept (.ok a) : Prog ε σ α) = pure a := rfl

@[simp] theorem ofExcept_error (e : ε) : (ofExcept (.error e) : Prog ε σ α) = throw e := rfl

/-- A computation without a state can be lifted in one piece or step by step. -/
theorem ofExcept_bind (x : Except ε α) (f : α → Except ε β) :
    (ofExcept (x >>= f) : Prog ε σ β) = ofExcept x >>= fun a => ofExcept (f a) := by
  cases x with
  | ok a => rfl
  | error e => rfl

/-- Running a sequence: a throw of the first part ends it. -/
theorem run_bind (x : Prog ε σ α) (f : α → Prog ε σ β) (s : σ) :
    run (x >>= f) s = match run x s with
      | (.ok a, s') => run (f a) s'
      | (.error e, s') => (.error e, s') := by
  simp only [run, ExceptT.run_bind, StateT.run_bind]
  show (match (ExceptT.run x s).1 with
    | .ok a => (ExceptT.run (f a))
    | .error e => pure (.error e)) (ExceptT.run x s).2 = _
  cases h : ExceptT.run x s with
  | mk r s' =>
    cases r with
    | ok a => simp [StateT.run, h]
    | error e => simp [StateT.run, h]; rfl

/-- A sequence goes on from what its first part returned. -/
theorem run_bind_of_ok {x : Prog ε σ α} {s s' : σ} {a : α} (h : run x s = (.ok a, s'))
    (f : α → Prog ε σ β) : run (x >>= f) s = run (f a) s' := by
  rw [run_bind, h]

/-- A sequence throws what its first part threw. -/
theorem run_bind_of_error {x : Prog ε σ α} {s s' : σ} {e : ε} (h : run x s = (.error e, s'))
    (f : α → Prog ε σ β) : run (x >>= f) s = (.error e, s') := by
  rw [run_bind, h]

/-- A sequence returned exactly when both parts did. -/
theorem run_bind_ok {x : Prog ε σ α} {f : α → Prog ε σ β} {s s'' : σ} {b : β} :
    run (x >>= f) s = (.ok b, s'') ↔
      ∃ a s', run x s = (.ok a, s') ∧ run (f a) s' = (.ok b, s'') := by
  rw [run_bind]
  constructor
  · intro h
    cases hx : run x s with
    | mk r s' =>
      rw [hx] at h
      cases r with
      | ok a => exact ⟨a, s', rfl, h⟩
      | error e => simp at h
  · rintro ⟨a, s', hx, hf⟩
    rw [hx]
    exact hf

/-- A sequence threw exactly when its first part did, or its second part after it. -/
theorem run_bind_error {x : Prog ε σ α} {f : α → Prog ε σ β} {s s'' : σ} {e : ε} :
    run (x >>= f) s = (.error e, s'') ↔
      run x s = (.error e, s'') ∨ ∃ a s', run x s = (.ok a, s') ∧ run (f a) s' = (.error e, s'') := by
  rw [run_bind]
  cases hx : run x s with
  | mk r s' =>
    cases r with
    | ok a => simp
    | error e' => simp

/-- A run that only counts where it returned. -/
def exec (x : Prog ε σ α) (s : σ) : Except ε (α × σ) :=
  match run x s with
  | (.ok a, s') => .ok (a, s')
  | (.error e, _) => .error e

/-- A run that returns, from its outcome alone. -/
theorem run_of_exec {x : Prog ε σ α} {s s' : σ} {a : α} (h : exec x s = .ok (a, s')) :
    run x s = (.ok a, s') := by
  unfold exec at h
  split at h
  next a' s'' hrun =>
    cases h
    exact hrun
  next => cases h

/-- What comes after a branching program comes after each branch. -/
theorem ite_bind {c : Prop} [Decidable c] (x y : Prog ε σ α) (f : α → Prog ε σ β) :
    (if c then x else y) >>= f = if c then x >>= f else y >>= f := by
  split
  next => rfl
  next => rfl

/-- A function on the value does not touch the state. -/
@[simp] theorem run_map (f : α → β) (x : Prog ε σ α) (s : σ) :
    run (f <$> x) s = match run x s with
      | (.ok a, s') => (.ok (f a), s')
      | (.error e, s') => (.error e, s') := by
  rw [map_eq_pure_bind, run_bind]
  rfl

end Prog

/-! ## Computations without a state -/

namespace Except

variable {ε α β : Type}

@[simp] theorem ok_bind (a : α) (f : α → Except ε β) : (Except.ok a >>= f) = f a := rfl

@[simp] theorem error_bind (e : ε) (f : α → Except ε β) :
    (Except.error e >>= f) = Except.error e := rfl

@[simp] theorem pure_eq_ok (a : α) : (pure a : Except ε α) = Except.ok a := rfl

@[simp] theorem throw_eq_error (e : ε) : (throw e : Except ε α) = Except.error e := rfl

/-- A sequence returned exactly when both parts did. -/
theorem bind_eq_ok {x : Except ε α} {f : α → Except ε β} {b : β} :
    (x >>= f) = .ok b ↔ ∃ a, x = .ok a ∧ f a = .ok b := by
  cases x with
  | ok a => simp
  | error e => simp

/-- How a mapped computation can return. -/
theorem map_eq_ok {f : α → β} {x : Except ε α} {b : β} :
    x.map f = .ok b ↔ ∃ a, x = .ok a ∧ f a = b := by
  cases x with
  | ok a => simp [Except.map]
  | error e => simp [Except.map]

/-- A computation that has a value returns it. -/
theorem eq_ok_of_toOption {x : Except ε α} {a : α} (h : x.toOption = some a) : x = .ok a := by
  cases x with
  | ok b =>
    cases h
    rfl
  | error e => cases h

/-- A computation that is well returns something. -/
theorem exists_of_isOk {x : Except ε α} (h : x.isOk = true) : ∃ a, x = .ok a := by
  cases x with
  | ok a => exact ⟨a, rfl⟩
  | error e => cases h

/-- A list of computations that all returned. -/
theorem mapM_of_map_eq {f : α → Except ε β} {as : List α} {bs : List β}
    (h : as.map f = bs.map .ok) : as.mapM f = .ok bs := by
  induction as generalizing bs with
  | nil =>
    cases List.map_eq_nil_iff.1 h.symm
    rfl
  | cons a as ih =>
    obtain ⟨b, bs, rfl, hb, hbs⟩ := List.map_eq_cons_iff.1 h.symm
    rw [List.mapM_cons, ← hb, ok_bind, ih hbs.symm]
    rfl

/-- A sequence threw exactly when its first part did, or its second part after it. -/
theorem bind_eq_error {x : Except ε α} {f : α → Except ε β} {e : ε} :
    (x >>= f) = .error e ↔ x = .error e ∨ ∃ a, x = .ok a ∧ f a = .error e := by
  cases x with
  | ok a => simp
  | error e' => simp

end Except
