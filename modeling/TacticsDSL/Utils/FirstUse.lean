import Mathlib.Data.List.Nodup
import Mathlib.Logic.Function.Basic

/-!
# Names that are free at their first use

A walk over a program meets uses of names and bindings of names. A name that is used before anything
binds it is free; the first use counts as binding it. `Occurrence.free` collects these names in a
walk, `mem_free` says which they are.
-/

/-- What a walk over a program meets. -/
inductive Occurrence (α : Type)
  | use (x : α)
  | bind (x : α)

namespace Occurrence

variable {α : Type}

/-- The name that occurs. -/
def name : Occurrence α → α
  | use x => x
  | bind x => x

variable [DecidableEq α]

/-- The names that are known after the walk, from those that are known before it. -/
def known (κ : α → Bool) (os : List (Occurrence α)) : α → Bool :=
  os.foldl (fun κ o => Function.update κ o.name true) κ

/-- The names that are free at their first use, in that order. -/
def free (κ : α → Bool) : List (Occurrence α) → List α
  | [] => []
  | use x :: os =>
    if κ x then free κ os else x :: free (Function.update κ x true) os
  | bind x :: os => free (Function.update κ x true) os

omit [DecidableEq α] in
/-- The name is not known before the walk, and at its first use nothing has bound it. -/
def FreeAtFirstUse (κ : α → Bool) (os : List (Occurrence α)) (x : α) : Prop :=
  κ x = false ∧ ∃ before after, os = before ++ use x :: after ∧ use x ∉ before ∧ bind x ∉ before

variable {κ : α → Bool} {os os' : List (Occurrence α)} {x y : α}

/-! ## Walks one after the other -/

@[simp] theorem known_nil : known κ [] = κ := rfl

@[simp] theorem known_cons (o : Occurrence α) :
    known κ (o :: os) = known (Function.update κ o.name true) os := rfl

/-- The names known after two lists one after the other. -/
theorem known_append : known κ (os ++ os') = known (known κ os) os' := List.foldl_append

/-- A name that is known stays known. -/
theorem update_known (h : κ x = true) : Function.update κ x true = κ := by
  rw [← h, Function.update_eq_self]

/-- A name that is known stays known. -/
theorem known_mono (h : κ x = true) : known κ os x = true := by
  induction os generalizing κ with
  | nil => exact h
  | cons o os ih =>
    rw [known_cons]
    apply ih
    rw [Function.update_apply]
    split
    next => rfl
    next => exact h

/-- What a walk meets is known after it. -/
theorem known_of_mem {o : Occurrence α} (h : o ∈ os) : known κ os o.name = true := by
  induction os generalizing κ with
  | nil => cases h
  | cons o' os ih =>
    rw [known_cons]
    rcases List.mem_cons.1 h with rfl | h
    · apply known_mono
      rw [Function.update_self]
    · exact ih h

/-- The free names of the second list are those not made known by the first one. -/
theorem free_append : free κ (os ++ os') = free κ os ++ free (known κ os) os' := by
  induction os generalizing κ with
  | nil => rfl
  | cons o os ih =>
    cases o with
    | use y =>
      rw [List.cons_append, free, free, known_cons, ih, ih]
      by_cases hy : κ y = true
      · rw [if_pos hy, if_pos hy, name, update_known hy]
      · rw [if_neg hy, if_neg hy, List.cons_append, name]
    | bind y =>
      rw [List.cons_append, free, free, known_cons, ih, name]

/-! ## The names that are free -/

theorem update_eq_false : Function.update κ y true x = false ↔ x ≠ y ∧ κ x = false := by
  by_cases hxy : x = y
  · rw [hxy, Function.update_self]
    simp
  · rw [Function.update_of_ne hxy]
    simp [hxy]

/-- A name is free at its first use here, or it is still unknown and free at its first use later. -/
theorem freeAtFirstUse_cons (o : Occurrence α) : FreeAtFirstUse κ (o :: os) x ↔
    κ x = false ∧ o = use x ∨ FreeAtFirstUse (Function.update κ o.name true) os x := by
  constructor
  · rintro ⟨hx, before, after, heq, huse, hbind⟩
    cases before with
    | nil =>
      cases heq
      exact Or.inl ⟨hx, rfl⟩
    | cons o' before =>
      rw [List.cons_append, List.cons.injEq] at heq
      obtain ⟨rfl, rfl⟩ := heq
      rw [List.mem_cons, not_or] at huse hbind
      have hne : x ≠ o.name := by
        rintro rfl
        cases o with
        | use y => exact huse.1 rfl
        | bind y => exact hbind.1 rfl
      exact Or.inr ⟨update_eq_false.2 ⟨hne, hx⟩, before, after, rfl, huse.2, hbind.2⟩
  · rintro (⟨hx, rfl⟩ | ⟨hknown, before, after, rfl, huse, hbind⟩)
    · exact ⟨hx, [], os, rfl, List.not_mem_nil, List.not_mem_nil⟩
    · obtain ⟨hne, hx⟩ := update_eq_false.1 hknown
      refine ⟨hx, o :: before, after, rfl, ?_, ?_⟩
      · rw [List.mem_cons, not_or]
        exact ⟨fun h => hne (congrArg name h), huse⟩
      · rw [List.mem_cons, not_or]
        exact ⟨fun h => hne (congrArg name h), hbind⟩

/-- The names that are free from a use on. -/
theorem mem_free_use :
    x ∈ free κ (use y :: os) ↔ κ x = false ∧ y = x ∨ x ∈ free (Function.update κ y true) os := by
  rw [free]
  by_cases hy : κ y = true
  · rw [if_pos hy, update_known hy]
    constructor
    · exact Or.inr
    · rintro (⟨hx, rfl⟩ | h)
      · rw [hy] at hx
        cases hx
      · exact h
  · rw [if_neg hy, List.mem_cons]
    constructor
    · rintro (rfl | h)
      · exact Or.inl ⟨Bool.eq_false_iff.2 hy, rfl⟩
      · exact Or.inr h
    · rintro (⟨-, rfl⟩ | h)
      · exact Or.inl rfl
      · exact Or.inr h

/-- The walk collects the names that are free at their first use. -/
theorem mem_free : x ∈ free κ os ↔ FreeAtFirstUse κ os x := by
  induction os generalizing κ with
  | nil =>
    constructor
    · intro h
      cases h
    · rintro ⟨-, before, after, heq, -⟩
      cases before <;> cases heq
  | cons o os ih =>
    rw [freeAtFirstUse_cons, ← ih]
    cases o with
    | use y => rw [mem_free_use, use.injEq, name]
    | bind y => simp [free, name]

/-- No name is collected twice. -/
theorem nodup_free : (free κ os).Nodup := by
  induction os generalizing κ with
  | nil => exact List.nodup_nil
  | cons o os ih =>
    cases o with
    | use y =>
      rw [free]
      by_cases hy : κ y = true
      · rw [if_pos hy]
        exact ih
      · rw [if_neg hy, List.nodup_cons]
        refine ⟨fun hmem => ?_, ih⟩
        have := (mem_free.1 hmem).1
        rw [Function.update_self] at this
        cases this
    | bind y => exact ih

/-- A walk that only binds collects nothing. -/
theorem free_binds (xs : List α) : free κ (xs.map bind) = [] := by
  induction xs generalizing κ with
  | nil => rfl
  | cons x xs ih => exact ih

end Occurrence
