import Mathlib.Data.List.Basic
import Mathlib.Tactic.Common

/-!
# Tries

A trie over keys `List α`: a node carries the value stored under the key that ends there and
a table of children. `get?` is the map the trie denotes, `walk` the descent a scanner makes
character by character. `get?_insert` and `walk_insert_isSome` say what insertion does to
each, and `get?_ofTable`, `walk_ofTable_isSome` read a trie built from a table of keys back
as that table.
-/

/-- A node: the value stored here, and the children by character, the newest first. -/
inductive Trie (α β : Type)
  | node (value : Option β) (children : List (α × Trie α β))

namespace Trie

variable {α β : Type}

/-- No key at all. -/
def empty : Trie α β := .node none []

/-- The value stored at this node. -/
def value : Trie α β → Option β
  | .node v _ => v

variable [DecidableEq α]

/-- The child for a character. -/
def child : Trie α β → α → Option (Trie α β)
  | .node _ cs, a => cs.lookup a

/-- Store a value under a key, making the nodes that are missing on the way. -/
def insert : List α → β → Trie α β → Trie α β
  | [], b, .node _ cs => .node (some b) cs
  | a :: as, b, .node v cs => .node v ((a, insert as b ((cs.lookup a).getD empty)) :: cs)

/-- The node a key leads to. -/
def walk : Trie α β → List α → Option (Trie α β)
  | t, [] => some t
  | t, a :: as => (t.child a).bind fun t' => walk t' as

/-- The value stored under a key. -/
def get? (t : Trie α β) (as : List α) : Option β := (t.walk as).bind value

@[simp] theorem walk_nil (t : Trie α β) : t.walk [] = some t := rfl

@[simp] theorem walk_cons (t : Trie α β) (a : α) (as : List α) :
    t.walk (a :: as) = (t.child a).bind fun t' => walk t' as := rfl

/-- A descent along `as ++ bs` is one along `as` and then one along `bs`. -/
theorem walk_append (t : Trie α β) (as bs : List α) :
    t.walk (as ++ bs) = (t.walk as).bind fun t' => t'.walk bs := by
  induction as generalizing t with
  | nil => rfl
  | cons a as ih =>
    rw [List.cons_append, walk_cons, walk_cons, Option.bind_assoc]
    congr 1
    funext t'
    exact ih t'

theorem walk_concat (t : Trie α β) (as : List α) (a : α) :
    t.walk (as ++ [a]) = (t.walk as).bind fun t' => t'.child a := by
  rw [walk_append]
  congr 1
  funext t'
  cases h : t'.child a <;> simp [h]

@[simp] theorem child_empty (a : α) : (empty : Trie α β).child a = none := rfl

@[simp] theorem child_insert_nil (b : β) (t : Trie α β) (c : α) :
    (insert [] b t).child c = t.child c := by
  cases t; rfl

/-- The children after an insertion: only the first symbol leads to a changed trie. -/
theorem child_insert_cons (a : α) (as : List α) (b : β) (t : Trie α β) (c : α) :
    (insert (a :: as) b t).child c
      = if c = a then some (insert as b ((t.child a).getD empty)) else t.child c := by
  cases t with
  | node v cs =>
    by_cases h : c = a
    · subst h; simp [insert, child]
    · simp [insert, child, List.lookup_cons, h, beq_eq_false_iff_ne.mpr h]

/-- After an insertion the key has the new value and every other key its old one. -/
theorem get?_insert (as : List α) (b : β) (t : Trie α β) (key : List α) :
    (insert as b t).get? key = if key = as then some b else t.get? key := by
  induction as generalizing t key with
  | nil =>
    cases key with
    | nil => cases t; rfl
    | cons c cs => simp [get?]
  | cons a as ih =>
    cases key with
    | nil => cases t; rfl
    | cons c cs =>
      simp only [get?, walk_cons, child_insert_cons]
      -- the two keys part at this character or go on together
      by_cases h : c = a
      · subst h
        have hih := ih ((t.child c).getD empty) cs
        simp only [get?] at hih
        simp only [if_true, Option.bind_some, hih, List.cons.injEq, true_and]
        split
        · rfl
        · cases hc : t.child c with
          | some t' => rfl
          | none => cases cs <;> rfl
      · simp [h]

/-- After an insertion the descents that succeed are those along prefixes of the new key and
those that succeeded before. -/
theorem walk_insert_isSome (as : List α) (b : β) (t : Trie α β) (key : List α) :
    ((insert as b t).walk key).isSome ↔ key <+: as ∨ (t.walk key).isSome := by
  induction as generalizing t key with
  | nil =>
    cases key with
    | nil => simp
    | cons c cs => simp
  | cons a as ih =>
    cases key with
    | nil => simp
    | cons c cs =>
      simp only [walk_cons, child_insert_cons]
      by_cases h : c = a
      · subst h
        simp only [if_true, Option.bind_some, ih, List.cons_prefix_cons, true_and]
        cases hc : t.child c with
        | some t' => rfl
        | none => cases cs <;> simp
      · simp [h]

/-! ## Tries built from a table -/

/-- Insert every entry of a table, in order. -/
def ofTable (table : List (List α × β)) : Trie α β :=
  table.foldl (fun t e => insert e.1 e.2 t) empty

/-- A descent succeeds along the prefixes of the table's keys. -/
theorem walk_ofTable_isSome (table : List (List α × β)) (key : List α) (hkey : key ≠ []) :
    ((ofTable table).walk key).isSome ↔ ∃ e ∈ table, key <+: e.1 := by
  have hfold : ∀ (table : List (List α × β)) (t : Trie α β),
      ((table.foldl (fun t e => insert e.1 e.2 t) t).walk key).isSome
        ↔ (∃ e ∈ table, key <+: e.1) ∨ (t.walk key).isSome := by
    intro table
    induction table with
    | nil => simp
    | cons e table ih =>
      intro t
      rw [List.foldl_cons, ih, walk_insert_isSome, List.exists_mem_cons_iff, or_left_comm,
        or_assoc]
  rw [ofTable, hfold]
  cases key with
  | nil => exact absurd rfl hkey
  | cons c cs => simp

/-- A value found in the trie stands in the table under that key. -/
theorem mem_of_get?_ofTable {table : List (List α × β)} {key : List α} {b : β}
    (h : (ofTable table).get? key = some b) : (key, b) ∈ table := by
  -- over the insertions: a value comes from an entry or from the trie before
  have hfold : ∀ (table : List (List α × β)) (t : Trie α β),
      (table.foldl (fun t e => insert e.1 e.2 t) t).get? key = some b →
        (key, b) ∈ table ∨ t.get? key = some b := by
    intro table
    induction table with
    | nil => intro t ht; exact Or.inr ht
    | cons e table ih =>
      intro t ht
      rw [List.foldl_cons] at ht
      rcases ih _ ht with hmem | hget
      · exact Or.inl (List.mem_cons_of_mem _ hmem)
      · rw [get?_insert] at hget
        split at hget
        · next heq =>
          left
          obtain ⟨k, v⟩ := e
          simp only [Option.some.injEq] at hget
          simp_all
        · exact Or.inr hget
  rcases hfold table empty h with hmem | hempty
  · exact hmem
  · cases key <;> simp [get?, empty, value, child] at hempty

/-- With distinct keys, every entry of the table is found. -/
theorem get?_ofTable_of_mem {table : List (List α × β)} (hnodup : (table.map Prod.fst).Nodup)
    {e : List α × β} (he : e ∈ table) : (ofTable table).get? e.1 = some e.2 := by
  have hfold : ∀ (table : List (List α × β)) (t : Trie α β), (table.map Prod.fst).Nodup →
      (e ∈ table ∨ (t.get? e.1 = some e.2 ∧ e.1 ∉ table.map Prod.fst)) →
        (table.foldl (fun t e => insert e.1 e.2 t) t).get? e.1 = some e.2 := by
    intro table
    induction table with
    | nil => intro t _ h; simpa using h
    | cons e' table ih =>
      intro t hnd h
      rw [List.map_cons, List.nodup_cons] at hnd
      rw [List.foldl_cons]
      refine ih _ hnd.2 ?_
      rw [get?_insert]
      rcases h with hmem | ⟨hget, hnot⟩
      · rcases List.mem_cons.mp hmem with rfl | hmem
        · exact Or.inr ⟨by simp, hnd.1⟩
        · exact Or.inl hmem
      · rw [List.map_cons, List.mem_cons, not_or] at hnot
        exact Or.inr ⟨by rw [if_neg hnot.1]; exact hget, hnot.2⟩
  exact hfold table empty hnodup (Or.inl he)

end Trie
