import Mathlib.Data.Nat.Notation
import Mathlib.Data.List.Basic
import Mathlib.Tactic.Common

/-!
# Nested brackets in a text

A text over an alphabet with several pairs of brackets and one quotation mark. Brackets between
quotation marks do not count. A scan keeps the closing brackets that are due, innermost first.
-/

/-- The opening and closing brackets, in pairs, and the quotation mark. -/
structure Brackets (α : Type) where
  pairs : List (α × α)
  quote : α

namespace Brackets

variable {α : Type} [DecidableEq α]

/-- Whether a scan stands between quotation marks, and the closing brackets that are due. -/
structure Scan (α : Type) where
  quoted : Bool
  due : List α
  deriving DecidableEq

/-- One character. A closing bracket has to be the one that is due. -/
def step (B : Brackets α) (s : Scan α) (c : α) : Option (Scan α) :=
  if c = B.quote then some { s with quoted := !s.quoted }
  else if s.quoted then some s
  else match B.pairs.lookup c with
    | some closing => some { s with due := closing :: s.due }
    | none =>
      if c ∈ B.pairs.map Prod.snd then
        if s.due.head? = some c then some { s with due := s.due.tail } else none
      else some s

/-- The state after all characters, if none of them closes the wrong bracket. -/
def scan (B : Brackets α) (s : Scan α) (cs : List α) : Option (Scan α) := cs.foldlM B.step s

/-- Every bracket outside quotes is closed, and in nested order. -/
def Nested (B : Brackets α) (cs : List α) : Prop := B.scan ⟨false, []⟩ cs = some ⟨false, []⟩

instance (B : Brackets α) (cs : List α) : Decidable (B.Nested cs) :=
  inferInstanceAs (Decidable (_ = _))

/-- What is due before the text is due after it. -/
def Neutral (B : Brackets α) (cs : List α) : Prop :=
  ∀ due, B.scan ⟨false, due⟩ cs = some ⟨false, due⟩

/-- Characters that are neither brackets nor quotation marks. -/
def Plain (B : Brackets α) (c : α) : Prop :=
  c ≠ B.quote ∧ c ∉ B.pairs.map Prod.fst ∧ c ∉ B.pairs.map Prod.snd

instance (B : Brackets α) (c : α) : Decidable (B.Plain c) :=
  inferInstanceAs (Decidable (_ ∧ _))

variable {B : Brackets α}

theorem scan_append (s : Scan α) (cs cs' : List α) :
    B.scan s (cs ++ cs') = (B.scan s cs).bind fun s => B.scan s cs' := List.foldlM_append

theorem scan_cons (s : Scan α) (c : α) (cs : List α) :
    B.scan s (c :: cs) = (B.step s c).bind fun s => B.scan s cs := List.foldlM_cons

/-- A neutral text is nested when nothing is due before it. -/
theorem Neutral.nested {cs : List α} (h : B.Neutral cs) : B.Nested cs := h []

theorem Neutral.nil : B.Neutral [] := fun _ => rfl

/-- Neutral texts can be joined. -/
theorem Neutral.append {cs cs' : List α} (h : B.Neutral cs) (h' : B.Neutral cs') :
    B.Neutral (cs ++ cs') := by
  intro due
  rw [scan_append, h due]
  exact h' due

/-- A plain character changes nothing, inside quotation marks or outside. -/
theorem step_plain {s : Scan α} {c : α} (h : B.Plain c) : B.step s c = some s := by
  obtain ⟨hquote, hopen, hclose⟩ := h
  have hlookup : B.pairs.lookup c = none := by
    rw [List.lookup_eq_none_iff]
    intro p hp
    rw [bne_iff_ne]
    exact fun heq => hopen (heq ▸ List.mem_map_of_mem hp)
  rw [step, if_neg hquote, hlookup]
  simp [hclose]

/-- Plain text changes nothing. -/
theorem scan_plain {s : Scan α} {cs : List α} (h : ∀ c ∈ cs, B.Plain c) : B.scan s cs = some s := by
  induction cs with
  | nil => rfl
  | cons c cs ih =>
    rw [scan_cons, step_plain (h c (List.mem_cons_self ..)), Option.bind_some]
    exact ih fun c hc => h c (List.mem_cons_of_mem _ hc)

theorem Neutral.plain {cs : List α} (h : ∀ c ∈ cs, B.Plain c) : B.Neutral cs :=
  fun _ => scan_plain h

/-- Inside quotation marks nothing else is looked at. -/
theorem scan_quoted {due : List α} {cs : List α} (h : B.quote ∉ cs) :
    B.scan ⟨true, due⟩ cs = some ⟨true, due⟩ := by
  induction cs with
  | nil => rfl
  | cons c cs ih =>
    rw [List.mem_cons, not_or] at h
    rw [scan_cons, step, if_neg (Ne.symm h.1), if_pos rfl]
    exact ih h.2

/-- What stands between quotation marks does not count. -/
theorem Neutral.quoted {cs : List α} (h : B.quote ∉ cs) :
    B.Neutral (B.quote :: (cs ++ [B.quote])) := by
  intro due
  rw [scan_cons, step, if_pos rfl, Option.bind_some, scan_append]
  simp only [Bool.not_false, scan_quoted h, Option.bind_some, scan_cons, step, if_pos,
    Bool.not_true]
  rfl

/-- An opening bracket and the one that closes it. -/
def IsPair (B : Brackets α) (o c : α) : Prop :=
  o ≠ B.quote ∧ c ≠ B.quote ∧ B.pairs.lookup o = some c ∧ B.pairs.lookup c = none ∧
    c ∈ B.pairs.map Prod.snd

instance (B : Brackets α) (o c : α) : Decidable (B.IsPair o c) :=
  inferInstanceAs (Decidable (_ ∧ _))

/-- An opening bracket makes its closing one due. -/
theorem step_open {o c : α} (h : B.IsPair o c) (due : List α) :
    B.step ⟨false, due⟩ o = some ⟨false, c :: due⟩ := by
  rw [step, if_neg h.1, if_neg Bool.false_ne_true, h.2.2.1]

theorem step_close {o c : α} (h : B.IsPair o c) (due : List α) :
    B.step ⟨false, c :: due⟩ c = some ⟨false, due⟩ := by
  obtain ⟨-, hquote, -, hlookup, hmem⟩ := h
  rw [step, if_neg hquote, if_neg Bool.false_ne_true, hlookup]
  simp [hmem]

/-- A neutral text between a pair of brackets. -/
theorem Neutral.bracket {o c : α} {cs : List α} (h : B.IsPair o c) (hcs : B.Neutral cs) :
    B.Neutral (o :: (cs ++ [c])) := by
  intro due
  rw [scan_cons, step_open h, Option.bind_some, scan_append, hcs, Option.bind_some, scan_cons,
    step_close h]
  rfl

/-- The text closes the brackets `x` that are due, and leaves the brackets `y` due. -/
def Moves (B : Brackets α) (cs x y : List α) : Prop :=
  ∀ due, B.scan ⟨false, x ++ due⟩ cs = some ⟨false, y ++ due⟩

/-- What the first text leaves due is closed by the second one. -/
theorem Moves.append {cs cs' x y z : List α} (h : B.Moves cs x y) (h' : B.Moves cs' y z) :
    B.Moves (cs ++ cs') x z := by
  intro due
  rw [scan_append, h due]
  exact h' due

/-- A neutral text closes nothing and leaves nothing due. -/
theorem Neutral.moves {cs : List α} (h : B.Neutral cs) (x : List α) : B.Moves cs x x :=
  fun due => h (x ++ due)

/-- A text that needs no brackets around it is neutral. -/
theorem Moves.neutral {cs : List α} (h : B.Moves cs [] []) : B.Neutral cs := h

/-- A closing bracket that is not the innermost one that is due. -/
theorem Moves.not_nested {cs cs' y : List α} {c : α} (h : B.Moves cs [] y) (hquote : c ≠ B.quote)
    (hopen : B.pairs.lookup c = none) (hclose : c ∈ B.pairs.map Prod.snd) (hc : y.head? ≠ some c) :
    ¬B.Nested (cs ++ c :: cs') := by
  intro hnested
  have hdue : B.scan ⟨false, []⟩ cs = some ⟨false, y⟩ := by
    have hmoves := h []
    rwa [List.append_nil, List.append_nil] at hmoves
  unfold Nested at hnested
  rw [scan_append, hdue, Option.bind_some, scan_cons, step, if_neg hquote,
    if_neg Bool.false_ne_true, hopen, if_pos hclose, if_neg hc] at hnested
  cases hnested

end Brackets
