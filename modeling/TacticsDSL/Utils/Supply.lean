import Mathlib.Tactic.Common
import Mathlib.Data.List.Basic

/-!
# Names numbered by a counter that wraps around

A supply gives out `name 0`, `name 1`, ..., its counter being kept modulo `N`. A name is new
until the counter wraps around.
-/

namespace Supply

variable {α : Type} (name : ℕ → α) (N : ℕ)

/-- The first `k` names. -/
def names (k : ℕ) : List α := (List.range k).map fun i => name (i % N)

@[simp] theorem length_names (k : ℕ) : (names name N k).length = k := by simp [names]

/-- The last of the names that are drawn. -/
theorem names_succ (k : ℕ) : names name N (k + 1) = names name N k ++ [name (k % N)] := by
  simp [names, List.range_succ]

/-- The next name is new exactly as long as the counter has not wrapped around. -/
theorem not_mem_names_iff {name : ℕ → α} {N : ℕ} (hname : Function.Injective name) (hN : 0 < N)
    {k : ℕ} : name (k % N) ∉ names name N k ↔ k < N := by
  rw [names, List.mem_map, not_exists]
  constructor
  · intro h
    by_contra hk
    have hlt := Nat.mod_lt k hN
    refine h (k % N) ⟨List.mem_range.2 (by omega), ?_⟩
    rw [Nat.mod_eq_of_lt hlt]
  · rintro hk i ⟨hi, heq⟩
    have hlt := List.mem_range.1 hi
    rw [Nat.mod_eq_of_lt hk, Nat.mod_eq_of_lt (by omega)] at heq
    have := hname heq
    omega

/-- Each of the names differs from those to avoid, from those given out before, and from the ones
that come before it in the list. -/
def Fresh (avoid : List α) : List α → List α → Prop
  | _, [] => True
  | before, n :: ns => n ∉ avoid ∧ n ∉ before ∧ Fresh avoid (before ++ [n]) ns

/-- Two lists of names, the second one drawn after the first. -/
theorem fresh_append {avoid before ns ns' : List α} :
    Fresh avoid before (ns ++ ns') ↔ Fresh avoid before ns ∧ Fresh avoid (before ++ ns) ns' := by
  induction ns generalizing before with
  | nil => simp [Fresh]
  | cons n ns ih =>
    rw [List.cons_append, Fresh, ih, Fresh, List.append_assoc, List.singleton_append]
    simp only [and_assoc]

end Supply
