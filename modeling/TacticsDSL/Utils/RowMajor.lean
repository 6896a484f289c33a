import Mathlib.Algebra.BigOperators.Group.List.Basic
import Mathlib.Algebra.Order.Ring.Int
import Mathlib.Data.List.Forall2
import Mathlib.Tactic.Linarith
import Mathlib.Tactic.Ring

/-!
# Row-major order

The elements of an array of extents `d₁, ..., dₙ` in the order in which the last index runs fastest.
Consecutive dimensions can be taken together: the array with the one extent `dᵢ * ... * dⱼ` has the
same elements in the same order.
-/

namespace RowMajor

/-- An index within the extents. -/
def Within : List ℕ → List ℤ → Prop := List.Forall₂ fun d i => 0 ≤ i ∧ i < d

instance (ds : List ℕ) (is : List ℤ) : Decidable (Within ds is) :=
  inferInstanceAs (Decidable (List.Forall₂ _ ds is))

/-- The number of the element at an index. -/
def flatten : List ℕ → List ℤ → ℤ
  | _ :: ds, i :: is => i * (ds.prod : ℕ) + flatten ds is
  | _, _ => 0

/-- The index of the element with a number. -/
def unflatten : List ℕ → ℤ → List ℤ
  | [], _ => []
  | _ :: ds, n => n / (ds.prod : ℕ) :: unflatten ds (n % (ds.prod : ℕ))

variable {ds es : List ℕ} {is js : List ℤ}

theorem Within.length_eq (h : Within ds is) : ds.length = is.length := List.Forall₂.length_eq h

/-- The number of an element is below the number of elements. -/
theorem Within.flatten_bounds (h : Within ds is) :
    0 ≤ flatten ds is ∧ flatten ds is < (ds.prod : ℕ) := by
  induction h with
  | nil => simp [flatten]
  | @cons d i ds is hi _ ih =>
    rw [flatten, List.prod_cons, Nat.cast_mul]
    constructor
    · have hmul : 0 ≤ i * (ds.prod : ℤ) := mul_nonneg hi.1 (by positivity)
      linarith [ih.1]
    · nlinarith [ih.2, hi.2]

/-- An index is found again from its number. -/
theorem Within.unflatten_flatten (h : Within ds is) : unflatten ds (flatten ds is) = is := by
  induction h with
  | nil => rfl
  | @cons d i ds is hi hrest ih =>
    obtain ⟨hnonneg, hlt⟩ := Within.flatten_bounds hrest
    have hdiv : (i * (ds.prod : ℕ) + flatten ds is) / (ds.prod : ℕ) = i := by
      rw [add_comm, Int.add_mul_ediv_right _ _ (by linarith), Int.ediv_eq_zero_of_lt hnonneg hlt,
        zero_add]
    have hmod : (i * (ds.prod : ℕ) + flatten ds is) % (ds.prod : ℕ) = flatten ds is := by
      rw [add_comm, Int.add_mul_emod_self_right, Int.emod_eq_of_lt hnonneg hlt]
    rw [flatten, unflatten, hdiv, hmod, ih]

/-- Every number below that of the elements has an index. -/
theorem within_unflatten {n : ℤ} (hn : 0 ≤ n) (hlt : n < (ds.prod : ℕ)) :
    Within ds (unflatten ds n) ∧ flatten ds (unflatten ds n) = n := by
  induction ds generalizing n with
  | nil =>
    have hzero : n = 0 := by
      rw [List.prod_nil, Nat.cast_one] at hlt
      omega
    exact ⟨.nil, hzero.symm⟩
  | cons d ds ih =>
    rw [List.prod_cons, Nat.cast_mul] at hlt
    have hpos : (0 : ℤ) < (ds.prod : ℕ) := by
      refine lt_of_le_of_ne (by positivity) fun hzero => ?_
      rw [← hzero, mul_zero] at hlt
      omega
    obtain ⟨hwithin, hflatten⟩ := ih (Int.emod_nonneg n hpos.ne') (Int.emod_lt_of_pos n hpos)
    refine ⟨.cons ⟨Int.ediv_nonneg hn hpos.le, Int.ediv_lt_of_lt_mul hpos hlt⟩ hwithin, ?_⟩
    rw [unflatten, flatten, hflatten, mul_comm]
    exact Int.mul_ediv_add_emod n _

/-- The index made of the values of variables, in an array that has their extents. -/
theorem within_map {V : Type} {ext : V → ℕ} {σ : V → ℤ} {vs : List V} :
    Within (vs.map ext) (vs.map σ) ↔ ∀ v ∈ vs, 0 ≤ σ v ∧ σ v < ext v := by
  rw [Within, List.forall₂_map_left_iff, List.forall₂_map_right_iff, List.forall₂_same]

/-! ## Dimensions taken together -/

/-- The number of an element whose index is made up of two parts. -/
theorem flatten_append (h : ds.length = is.length) :
    flatten (ds ++ es) (is ++ js) = flatten ds is * (es.prod : ℕ) + flatten es js := by
  induction ds generalizing is with
  | nil =>
    obtain rfl : is = [] := List.length_eq_zero_iff.1 h.symm
    simp [flatten]
  | cons d ds ih =>
    obtain ⟨i, is, rfl⟩ := List.exists_cons_of_length_eq_add_one h.symm
    have hlen : ds.length = is.length := by simpa using h
    rw [List.cons_append, List.cons_append, flatten, flatten, ih hlen, List.prod_append,
      Nat.cast_mul]
    ring

/-- Some dimensions taken together, between others that are not. -/
theorem flatten_together {ds' : List ℕ} {is' : List ℤ} (h : ds.length = is.length)
    (h' : es.length = js.length) :
    flatten (ds ++ es.prod :: ds') (is ++ flatten es js :: is') =
      flatten (ds ++ (es ++ ds')) (is ++ (js ++ is')) := by
  rw [flatten_append h, flatten_append h, flatten_append h', flatten, List.prod_append,
    List.prod_cons]

end RowMajor
