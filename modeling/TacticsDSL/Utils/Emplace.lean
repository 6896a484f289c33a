import Mathlib.Tactic.Common

/-!
# Tables that keep their first entries

A table is a partial function. `emplace` adds an entry where there is none and does nothing where
there is one, so that a table only ever grows.
-/

section
variable {κ α : Type} [DecidableEq κ]

/-- The table with the entry `a` at `k`, unless there is one. -/
def emplace (g : κ → Option α) (k : κ) (a : α) : κ → Option α := fun x =>
  (g x).or (if x = k then some a else none)

/-- Every entry of `g` is one of `g'`. -/
def Retains (g g' : κ → Option α) : Prop := ∀ x a, g x = some a → g' x = some a

omit [DecidableEq κ] in
theorem Retains.refl (g : κ → Option α) : Retains g g := fun _ _ h => h

omit [DecidableEq κ] in
/-- Retaining is transitive. -/
theorem Retains.trans {g g' g'' : κ → Option α} (h : Retains g g') (h' : Retains g' g'') :
    Retains g g'' := fun x a hx => h' x a (h x a hx)

/-- A key that is there keeps its value. -/
theorem emplace_of_some {g : κ → Option α} {k : κ} {a b : α} (h : g k = some b) :
    emplace g k a = g := by
  funext x
  unfold emplace
  by_cases hx : x = k
  · rw [hx, h, Option.some_or]
  · rw [if_neg hx, Option.or_none]

/-- The key has a value afterwards. -/
theorem emplace_self (g : κ → Option α) (k : κ) (a : α) :
    emplace g k a k = some ((g k).getD a) := by
  unfold emplace
  cases h : g k with
  | none => simp
  | some b => simp

/-- Other keys are not touched. -/
theorem emplace_of_ne {g : κ → Option α} {k x : κ} {a : α} (h : x ≠ k) : emplace g k a x = g x := by
  unfold emplace
  rw [if_neg h, Option.or_none]

/-- No value is lost. -/
theorem retains_emplace (g : κ → Option α) (k : κ) (a : α) : Retains g (emplace g k a) := by
  intro x b hx
  unfold emplace
  rw [hx, Option.some_or]

end
