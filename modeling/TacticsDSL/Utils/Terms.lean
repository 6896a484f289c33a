import Mathlib.Algebra.BigOperators.Group.List.Basic
import Mathlib.Algebra.BigOperators.Ring.List
import Mathlib.Algebra.Order.Ring.Defs
import Mathlib.Tactic.Ring
import Mathlib.Tactic.Linarith
import Mathlib.Tactic.Positivity

/-!
# Sums of products

A formula in `+` and `*` that is written without parentheses is a sum of products: a list of terms,
each a list of factors. Writing `a + b` appends the terms of `b` to those of `a`. Writing `a * b`
glues the last term of `a` to the first term of `b`, which is the product of the two only if
neither is a proper sum.
-/

namespace Terms

variable {α R : Type}

/-- The terms of `a * b`, from those of `a` and of `b`. -/
def glue : List (List α) → List (List α) → List (List α)
  | [], us => us
  | [t], [] => [t]
  | [t], u :: us => (t ++ u) :: us
  | t :: t' :: ts, us => t :: glue (t' :: ts) us

/-- Gluing joins the last term of one list with the first of the other. -/
theorem glue_concat_cons (ts : List (List α)) (t u : List α) (us : List (List α)) :
    glue (ts ++ [t]) (u :: us) = ts ++ (t ++ u) :: us := by
  induction ts with
  | nil => rfl
  | cons s ts ih =>
    obtain ⟨s', rest, h⟩ : ∃ s' rest, ts ++ [t] = s' :: rest := by
      cases ts with
      | nil => exact ⟨t, [], rfl⟩
      | cons s' ts => exact ⟨s', ts ++ [t], rfl⟩
    rw [List.cons_append, h, glue, ← h, ih, List.cons_append]

/-- A list with elements has a last one. -/
theorem exists_concat {ts : List (List α)} (h : ts ≠ []) : ∃ ts' t, ts = ts' ++ [t] :=
  ⟨ts.dropLast, ts.getLast h, (List.dropLast_append_getLast h).symm⟩

/-- Terms with factors, one at least. -/
structure Proper (ts : List (List α)) : Prop where
  ne_nil : ts ≠ []
  factors : ∀ t ∈ ts, t ≠ []

theorem Proper.single {a : α} : Proper [[a]] :=
  ⟨List.cons_ne_nil _ _, List.forall_mem_singleton.2 (List.cons_ne_nil _ _)⟩

theorem Proper.append {ts us : List (List α)} (ht : Proper ts) (hu : Proper us) :
    Proper (ts ++ us) :=
  ⟨List.append_ne_nil_of_left_ne_nil ht.ne_nil _, List.forall_mem_append.2 ⟨ht.factors, hu.factors⟩⟩

/-- Gluing terms with factors leaves no term empty. -/
theorem Proper.glue {ts us : List (List α)} (ht : Proper ts) (hu : Proper us) :
    Proper (glue ts us) := by
  obtain ⟨ts, t, rfl⟩ := exists_concat ht.ne_nil
  obtain ⟨u, us, rfl⟩ := List.exists_cons_of_ne_nil hu.ne_nil
  have hts := List.forall_mem_append.1 ht.factors
  have hus := List.forall_mem_cons.1 hu.factors
  rw [glue_concat_cons]
  refine ⟨by simp, List.forall_mem_append.2 ⟨hts.1, List.forall_mem_cons.2 ⟨?_, hus.2⟩⟩⟩
  exact List.append_ne_nil_of_right_ne_nil _ hus.1

/-- A property of all factors. -/
def All (P : α → Prop) (ts : List (List α)) : Prop := ∀ t ∈ ts, ∀ a ∈ t, P a

theorem All.single {P : α → Prop} {a : α} (h : P a) : All P [[a]] :=
  List.forall_mem_singleton.2 (List.forall_mem_singleton.2 h)

theorem All.append {P : α → Prop} {ts us : List (List α)} (ht : All P ts) (hu : All P us) :
    All P (ts ++ us) :=
  List.forall_mem_append.2 ⟨ht, hu⟩

/-- Gluing brings in no new factors. -/
theorem All.glue {P : α → Prop} {ts us : List (List α)} (ht : All P ts) (hu : All P us)
    (hts : Proper ts) (hus : Proper us) : All P (glue ts us) := by
  obtain ⟨ts, t, rfl⟩ := exists_concat hts.ne_nil
  obtain ⟨u, us, rfl⟩ := List.exists_cons_of_ne_nil hus.ne_nil
  obtain ⟨hts, ht⟩ := List.forall_mem_append.1 ht
  obtain ⟨hu, hus⟩ := List.forall_mem_cons.1 hu
  rw [glue_concat_cons]
  refine List.forall_mem_append.2 ⟨hts, List.forall_mem_cons.2 ⟨?_, hus⟩⟩
  exact List.forall_mem_append.2 ⟨ht t (List.mem_singleton_self t), hu⟩

/-! ## Texts -/

section

variable {β : Type}

/-- The text of two lists of words is that of the first, a separator and that of the second. -/
theorem intercalate_append {sep : List β} {xs ys : List (List β)} (hx : xs ≠ []) (hy : ys ≠ []) :
    sep.intercalate (xs ++ ys) = sep.intercalate xs ++ (sep ++ sep.intercalate ys) := by
  induction xs with
  | nil => exact absurd rfl hx
  | cons x xs ih =>
    by_cases hnil : xs = []
    · subst hnil
      rw [List.singleton_append, List.intercalate_cons_of_ne_nil hy, List.intercalate_singleton,
        List.append_assoc]
    · rw [List.cons_append, List.intercalate_cons_of_ne_nil (by simp [hnil]), ih hnil,
        List.intercalate_cons_of_ne_nil hnil]
      simp

/-- How a sum of products is written: `w` gives the text of a factor. -/
def spelled (plus times : β) (w : α → List β) (ts : List (List α)) : List β :=
  [plus].intercalate (ts.map fun t => [times].intercalate (t.map w))

variable (plus times : β) (w : α → List β)

@[simp] theorem spelled_single (a : α) : spelled plus times w [[a]] = w a := by
  simp [spelled]

/-- A sum of sums is spelled with a plus between them. -/
theorem spelled_append {ts us : List (List α)} (ht : ts ≠ []) (hu : us ≠ []) :
    spelled plus times w (ts ++ us) =
      spelled plus times w ts ++ plus :: spelled plus times w us := by
  rw [spelled, List.map_append, intercalate_append (by simpa using ht) (by simpa using hu)]
  rfl

/-- A longer last term is spelled with a times before what was added. -/
theorem spelled_concat_append (ts : List (List α)) {t u : List α} (ht : t ≠ []) (hu : u ≠ []) :
    spelled plus times w (ts ++ [t ++ u]) =
      spelled plus times w (ts ++ [t]) ++ times :: [times].intercalate (u.map w) := by
  have htu : [times].intercalate ((t ++ u).map w) =
      [times].intercalate (t.map w) ++ times :: [times].intercalate (u.map w) := by
    rw [List.map_append, intercalate_append (by simpa using ht) (by simpa using hu)]
    rfl
  by_cases hts : ts = []
  · subst hts
    simpa [spelled] using htu
  · rw [spelled_append _ _ _ hts (by simp), spelled_append _ _ _ hts (by simp)]
    simp only [spelled, List.map_singleton, List.intercalate_singleton, htu]
    simp

/-- Without parentheses the text of a product is that of its terms glued. -/
theorem spelled_glue {ts us : List (List α)} (ht : Proper ts) (hu : Proper us) :
    spelled plus times w (glue ts us) =
      spelled plus times w ts ++ times :: spelled plus times w us := by
  obtain ⟨ts, t, rfl⟩ := exists_concat ht.ne_nil
  obtain ⟨u, us, rfl⟩ := List.exists_cons_of_ne_nil hu.ne_nil
  have htne : t ≠ [] := ht.factors t (by simp)
  have hune : u ≠ [] := hu.factors u (by simp)
  have hglued : spelled plus times w (ts ++ [t ++ u]) =
      spelled plus times w (ts ++ [t]) ++ times :: [times].intercalate (u.map w) :=
    spelled_concat_append plus times w ts htne hune
  rw [glue_concat_cons]
  by_cases hus : us = []
  · subst hus
    rw [hglued]
    simp [spelled]
  · rw [List.append_cons, spelled_append _ _ _ (by simp) hus, hglued]
    rw [show u :: us = [u] ++ us from rfl, spelled_append _ _ _ (by simp) hus]
    simp [spelled]

end

/-! ## Values -/

section

variable [CommSemiring R] (v : α → R)

/-- The value of a term. -/
def product (t : List α) : R := (t.map v).prod

/-- The value of a sum of products. -/
def value (ts : List (List α)) : R := (ts.map (product v)).sum

/-- The product of joined factors. -/
@[simp] theorem product_append (t u : List α) : product v (t ++ u) = product v t * product v u := by
  simp [product]

@[simp] theorem value_nil : value v [] = 0 := by simp [value]

@[simp] theorem value_singleton (t : List α) : value v [t] = product v t := by
  simp [value]

@[simp] theorem value_cons (t : List α) (ts : List (List α)) :
    value v (t :: ts) = product v t + value v ts := by
  simp [value]

@[simp] theorem value_append (ts us : List (List α)) : value v (ts ++ us) = value v ts + value v us := by
  simp [value]

/-- The product of single terms is their product. -/
theorem value_glue_single (t u : List α) :
    value v (glue [t] [u]) = value v [t] * value v [u] := by
  simp [glue]

end

/-! ## Gluing proper sums -/

section

variable [CommRing R] [LinearOrder R] [IsStrictOrderedRing R] {v : α → R}

/-- A product of factors of at least two. -/
theorem two_le_product {t : List α} (hv : ∀ a ∈ t, 2 ≤ v a) (ht : t ≠ []) : 2 ≤ product v t := by
  induction t with
  | nil => exact absurd rfl ht
  | cons a t ih =>
    obtain ⟨ha, hv⟩ := List.forall_mem_cons.1 hv
    by_cases hnil : t = []
    · subst hnil
      simpa [product] using ha
    · have := ih hv hnil
      have hcons : product v (a :: t) = v a * product v t := by simp [product]
      rw [hcons]
      nlinarith

/-- A sum of such products is at least two. -/
theorem two_le_value {ts : List (List α)} (hv : All (2 ≤ v ·) ts) (h : Proper ts) :
    2 ≤ value v ts := by
  induction ts with
  | nil => exact absurd rfl h.ne_nil
  | cons t ts ih =>
    obtain ⟨hvt, hv⟩ := List.forall_mem_cons.1 hv
    have ht := two_le_product hvt (h.factors t (List.mem_cons_self ..))
    rw [value_cons]
    by_cases hnil : ts = []
    · subst hnil
      simpa using ht
    · have := ih hv ⟨hnil, fun t ht => h.factors t (List.mem_cons_of_mem _ ht)⟩
      linarith

/-- A sum of such products is positive unless it is empty. -/
theorem value_nonneg {ts : List (List α)} (hv : All (2 ≤ v ·) ts) (h : ∀ t ∈ ts, t ≠ []) : 0 ≤ value v ts ∧ (ts ≠ [] → 0 < value v ts) := by
  by_cases hnil : ts = []
  · subst hnil
    simp
  · have := two_le_value hv ⟨hnil, h⟩
    constructor
    · linarith
    · intro _
      linarith

/-- Where all factors are at least 2, gluing gives at most the product, and less if one of the two
is a proper sum. -/
theorem value_glue_le {ts us : List (List α)} (hvt : All (2 ≤ v ·) ts)
    (hvu : All (2 ≤ v ·) us) (ht : Proper ts) (hu : Proper us) :
    value v (glue ts us) ≤ value v ts * value v us ∧
      (1 < ts.length ∨ 1 < us.length → value v (glue ts us) < value v ts * value v us) := by
  obtain ⟨ts, t, rfl⟩ := exists_concat ht.ne_nil
  obtain ⟨u, us, rfl⟩ := List.exists_cons_of_ne_nil hu.ne_nil
  have hts := List.forall_mem_append.1 ht.factors
  have hus := List.forall_mem_cons.1 hu.factors
  obtain ⟨hvts, hvt⟩ := List.forall_mem_append.1 hvt
  obtain ⟨hvu, hvus⟩ := List.forall_mem_cons.1 hvu
  have hx := two_le_product (hvt t (List.mem_singleton_self t)) (hts.2 t (List.mem_singleton_self t))
  have hy := two_le_product hvu hus.1
  obtain ⟨hA, hA'⟩ := value_nonneg hvts hts.1
  obtain ⟨hB, hB'⟩ := value_nonneg hvus hus.2
  have hglue : value v (glue (ts ++ [t]) (u :: us)) =
      value v ts + product v t * product v u + value v us := by
    rw [glue_concat_cons]
    simp
    ring
  -- what the product has besides: the other terms of each times the rest of the other
  have hprod : value v (ts ++ [t]) * value v (u :: us) =
      value v (glue (ts ++ [t]) (u :: us)) + (value v ts * (product v u - 1) +
        value v ts * value v us + value v us * (product v t - 1)) := by
    rw [hglue]
    simp
    ring
  rw [hprod]
  have h1 : 0 ≤ value v ts * (product v u - 1) := mul_nonneg hA (by linarith)
  have h2 : 0 ≤ value v ts * value v us := mul_nonneg hA hB
  have h3 : 0 ≤ value v us * (product v t - 1) := mul_nonneg hB (by linarith)
  refine ⟨by linarith, ?_⟩
  rintro (hlen | hlen)
  · have hne : ts ≠ [] := by
      rintro rfl
      simp at hlen
    have : 0 < value v ts * (product v u - 1) := mul_pos (hA' hne) (by linarith)
    linarith
  · have hne : us ≠ [] := by
      rintro rfl
      simp at hlen
    have : 0 < value v us * (product v t - 1) := mul_pos (hB' hne) (by linarith)
    linarith

end

end Terms
