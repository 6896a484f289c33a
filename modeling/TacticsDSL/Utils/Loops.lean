import Mathlib.Algebra.BigOperators.Group.Finset.Basic
import Mathlib.Algebra.BigOperators.Ring.Finset
import Mathlib.Data.List.Dedup
import Mathlib.Algebra.Order.Ring.Int
import Mathlib.Tactic.Ring

/-!
# Sums over loop variables

Loops that bind variables to `0`, ..., up to an extent of their own, and add up what their body
computes. An environment gives every variable a value; a loop rebinds its own.
-/

namespace Loops

variable {V : Type} [DecidableEq V]

/-- The sum of `f` over all values of the variables below their extents, as nested loops. -/
def sumOver (ext : V → ℕ) : List V → ((V → ℤ) → ℤ) → (V → ℤ) → ℤ
  | [], f, σ => f σ
  | v :: vs, f, σ => ∑ i ∈ Finset.range (ext v), sumOver ext vs f (Function.update σ v i)

@[simp] theorem sumOver_nil (ext : V → ℕ) (f : (V → ℤ) → ℤ) (σ : V → ℤ) :
    sumOver ext [] f σ = f σ := rfl

@[simp] theorem sumOver_cons (ext : V → ℕ) (v : V) (vs : List V) (f : (V → ℤ) → ℤ) (σ : V → ℤ) :
    sumOver ext (v :: vs) f σ =
      ∑ i ∈ Finset.range (ext v), sumOver ext vs f (Function.update σ v i) := rfl

/-- A body that is always zero. -/
theorem sumOver_eq_zero {ext : V → ℕ} {f : (V → ℤ) → ℤ} (h : ∀ σ, f σ = 0) (vs : List V)
    (σ : V → ℤ) : sumOver ext vs f σ = 0 := by
  induction vs generalizing σ with
  | nil => exact h σ
  | cons v vs ih => simp [ih]

/-- A body that does not depend on the variables is added as often as there are values. -/
theorem sumOver_const (n : ℕ) (c : ℤ) (vs : List V) (σ : V → ℤ) :
    sumOver (fun _ => n) vs (fun _ => c) σ = (n : ℤ) ^ vs.length * c := by
  induction vs generalizing σ with
  | nil => simp
  | cons v vs ih =>
    rw [sumOver_cons]
    simp only [ih, Finset.sum_const, Finset.card_range, nsmul_eq_mul, List.length_cons, pow_succ]
    ring

/-- Only the loop variables change under a loop. -/
theorem sumOver_congr {ext : V → ℕ} {f g : (V → ℤ) → ℤ} {vs : List V} {σ : V → ℤ}
    (h : ∀ τ, (∀ v, v ∉ vs → τ v = σ v) → f τ = g τ) : sumOver ext vs f σ = sumOver ext vs g σ := by
  induction vs generalizing σ with
  | nil => exact h σ fun _ _ => rfl
  | cons v vs ih =>
    refine Finset.sum_congr rfl fun i _ => ih fun τ hτ => h τ fun w hw => ?_
    obtain ⟨hwv, hwvs⟩ := not_or.1 (mt List.mem_cons.2 hw)
    rw [hτ w hwvs, Function.update_of_ne hwv]

/-- The loop variables stay below their extents. -/
theorem sumOver_congr_bounds {ext : V → ℕ} {f g : (V → ℤ) → ℤ} {vs : List V} (hvs : vs.Nodup)
    {σ : V → ℤ} (h : ∀ τ : V → ℤ, (∀ v, v ∉ vs → τ v = σ v) →
      (∀ v ∈ vs, 0 ≤ τ v ∧ τ v < ext v) → f τ = g τ) : sumOver ext vs f σ = sumOver ext vs g σ := by
  induction vs generalizing σ with
  | nil => exact h σ (fun _ _ => rfl) (by simp)
  | cons v vs ih =>
    obtain ⟨hv, hvs⟩ := List.nodup_cons.1 hvs
    refine Finset.sum_congr rfl fun i hi => ih hvs fun τ hτ hbounds => h τ (fun w hw => ?_) ?_
    · obtain ⟨hwv, hwvs⟩ := not_or.1 (mt List.mem_cons.2 hw)
      rw [hτ w hwvs, Function.update_of_ne hwv]
    · refine List.forall_mem_cons.2 ⟨?_, hbounds⟩
      rw [hτ v hv, Function.update_self]
      exact ⟨Int.natCast_nonneg i, Int.ofNat_lt.2 (Finset.mem_range.1 hi)⟩

/-- Of a body that asks for the values of the loop variables only one value is left. -/
theorem sumOver_ite_map {ext : V → ℕ} {f : (V → ℤ) → ℤ} {vs : List V} (hvs : vs.Nodup)
    {σ τ : V → ℤ} (hτ : ∀ v ∈ vs, 0 ≤ τ v ∧ τ v < ext v) :
    sumOver ext vs (fun ρ => if vs.map ρ = vs.map τ then f ρ else 0) σ =
      f fun v => if v ∈ vs then τ v else σ v := by
  induction vs generalizing f σ with
  | nil => simp
  | cons v vs ih =>
    obtain ⟨hv, hvs⟩ := List.nodup_cons.1 hvs
    obtain ⟨hτv, hτvs⟩ := List.forall_mem_cons.1 hτ
    have hbody : ∀ ρ : V → ℤ, (if (v :: vs).map ρ = (v :: vs).map τ then f ρ else 0) =
        if vs.map ρ = vs.map τ then if ρ v = τ v then f ρ else 0 else 0 := by
      intro ρ
      by_cases hρ : ρ v = τ v <;> simp [hρ]
    have hinner : ∀ i : ℕ, sumOver ext vs
        (fun ρ => if vs.map ρ = vs.map τ then if ρ v = τ v then f ρ else 0 else 0)
        (Function.update σ v i) =
          if (i : ℤ) = τ v then f fun w => if w ∈ v :: vs then τ w else σ w else 0 := by
      intro i
      rw [ih hvs hτvs]
      simp only [if_neg hv, Function.update_self]
      refine ite_congr rfl (fun hi => congrArg f (funext fun w => ?_)) fun _ => rfl
      by_cases hwv : w = v
      · subst hwv
        rw [if_neg hv, Function.update_self, if_pos List.mem_cons_self, hi]
      · simp [hwv]
    obtain ⟨n, hn⟩ := Int.eq_ofNat_of_zero_le hτv.1
    have hlt : n < ext v := by
      have := hτv.2
      omega
    simp only [sumOver_cons, hbody, hinner]
    rw [Finset.sum_eq_single_of_mem n (Finset.mem_range.2 hlt), if_pos hn.symm]
    intro i _ hi
    rw [if_neg]
    omega

/-! ## Loops over part of their values -/

/-- The sum of `f` over the values that `vals` gives each variable when its loop begins. -/
def sumIn (vals : V → (V → ℤ) → Finset ℕ) : List V → ((V → ℤ) → ℤ) → (V → ℤ) → ℤ
  | [], f, σ => f σ
  | v :: vs, f, σ => ∑ i ∈ vals v σ, sumIn vals vs f (Function.update σ v i)

@[simp] theorem sumIn_nil (vals : V → (V → ℤ) → Finset ℕ) (f : (V → ℤ) → ℤ) (σ : V → ℤ) :
    sumIn vals [] f σ = f σ := rfl

@[simp] theorem sumIn_cons (vals : V → (V → ℤ) → Finset ℕ) (v : V) (vs : List V)
    (f : (V → ℤ) → ℤ) (σ : V → ℤ) :
    sumIn vals (v :: vs) f σ = ∑ i ∈ vals v σ, sumIn vals vs f (Function.update σ v i) := rfl

/-- Loops over all values below the extents. -/
theorem sumIn_eq_sumOver {vals : V → (V → ℤ) → Finset ℕ} {ext : V → ℕ} {vs : List V}
    (h : ∀ v ∈ vs, ∀ σ, vals v σ = Finset.range (ext v)) (f : (V → ℤ) → ℤ) (σ : V → ℤ) :
    sumIn vals vs f σ = sumOver ext vs f σ := by
  induction vs generalizing σ with
  | nil => rfl
  | cons v vs ih =>
    rw [sumIn_cons, sumOver_cons, h v List.mem_cons_self]
    exact Finset.sum_congr rfl fun i _ => ih (fun w hw => h w (List.mem_cons_of_mem v hw)) _

/-- Only the loop variables change under a loop, so a body that is zero wherever the others have
their values adds nothing. -/
theorem sumIn_eq_zero {vals : V → (V → ℤ) → Finset ℕ} {f : (V → ℤ) → ℤ} {vs : List V} {σ : V → ℤ}
    (h : ∀ τ, (∀ v, v ∉ vs → τ v = σ v) → f τ = 0) : sumIn vals vs f σ = 0 := by
  induction vs generalizing σ with
  | nil => exact h σ fun _ _ => rfl
  | cons v vs ih =>
    refine Finset.sum_eq_zero fun i _ => ih fun τ hτ => h τ fun w hw => ?_
    obtain ⟨hwv, hwvs⟩ := not_or.1 (mt List.mem_cons.2 hw)
    rw [hτ w hwvs, Function.update_of_ne hwv]

/-- A variable without values leaves nothing to add. -/
theorem sumIn_of_empty {vals : V → (V → ℤ) → Finset ℕ} {f : (V → ℤ) → ℤ} {vs : List V} {v : V}
    (hv : v ∈ vs) (h : ∀ σ, vals v σ = ∅) (σ : V → ℤ) : sumIn vals vs f σ = 0 := by
  induction vs generalizing σ with
  | nil => cases hv
  | cons w vs ih =>
    rw [sumIn_cons]
    rcases List.mem_cons.1 hv with rfl | hvs
    · rw [h, Finset.sum_empty]
    · exact Finset.sum_eq_zero fun i _ => ih hvs _

end Loops
