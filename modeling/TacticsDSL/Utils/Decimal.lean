import Mathlib.Data.Nat.Notation
import Mathlib.Data.List.Basic
import Mathlib.Tactic.Common

/-!
# Decimal numerals in texts

The text of a number determines it, also when something other than a digit follows.
-/

namespace Decimal

/-- The decimal digits of a number. -/
def digits (n : ℕ) : List Char := Nat.toDigits 10 n

/-- The characters of the text of a number are its digits. -/
theorem toList_toString (n : ℕ) : (toString n).toList = digits n := Nat.toList_repr

/-- Different numbers have different digits. -/
theorem digits_injective {m n : ℕ} (h : digits m = digits n) : m = n := by
  rw [← Nat.ofDigitChars_ten_toDigits (n := m), ← Nat.ofDigitChars_ten_toDigits (n := n)]
  exact congrArg _ h

theorem isDigit_of_mem {n : ℕ} {c : Char} (h : c ∈ digits n) : c.isDigit = true :=
  Nat.isDigit_of_mem_toDigits (by decide) (by decide) h

/-- The digits of a number end before the first character that is none. -/
theorem takeWhile_digits {n : ℕ} {rest : List Char} (hrest : ∀ c ∈ rest.head?, c.isDigit = false) :
    (digits n ++ rest).takeWhile Char.isDigit = digits n := by
  rw [List.takeWhile_append_of_pos fun c hc => isDigit_of_mem hc]
  cases rest with
  | nil => simp
  | cons c rest => rw [List.takeWhile_cons_of_neg (by simp [hrest c rfl]), List.append_nil]

/-- A number and what follows it can be told apart. -/
theorem digits_append_inj {m n : ℕ} {rest rest' : List Char}
    (hrest : ∀ c ∈ rest.head?, c.isDigit = false) (hrest' : ∀ c ∈ rest'.head?, c.isDigit = false)
    (h : digits m ++ rest = digits n ++ rest') : m = n ∧ rest = rest' := by
  have htake := congrArg (List.takeWhile Char.isDigit) h
  rw [takeWhile_digits hrest, takeWhile_digits hrest'] at htake
  refine ⟨digits_injective htake, ?_⟩
  rw [htake] at h
  exact List.append_cancel_left h

/-- Different numbers have different texts. -/
theorem toString_injective {m n : ℕ} (h : toString m = toString n) : m = n := by
  apply digits_injective
  rw [← toList_toString, ← toList_toString, h]

end Decimal
