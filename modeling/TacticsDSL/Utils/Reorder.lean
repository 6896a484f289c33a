import Mathlib.Data.List.Basic
import Mathlib.Data.List.Nodup
import Mathlib.Data.List.Perm.Subperm
import Mathlib.Tactic.Common
import Mathlib.Tactic.Ring

/-!
# Reordering lists

`positions src dst` lists where the elements of `dst` stand in `src`: the reordering that takes
a list arranged like `src` to one arranged like `dst`. `expand a as l` is `l` with the list `as`
in the place of the element `a`.
-/

namespace Reorder

variable {α : Type} [DecidableEq α]

/-! ## Positions -/

/-- Where the elements of `dst` stand in `src`; an absent one at the end. -/
def positions (src dst : List α) : List ℕ := dst.map fun d => src.idxOf d

@[simp] theorem length_positions (src dst : List α) :
    (positions src dst).length = dst.length := by
  simp [positions]

/-- The positions of a list are those of its parts. -/
theorem positions_append (src dst dst' : List α) :
    positions src (dst ++ dst') = positions src dst ++ positions src dst' := by
  simp [positions]

/-- Where an element of the destination stands in the source. -/
theorem getElem?_positions (src dst : List α) (i : ℕ) :
    (positions src dst)[i]? = dst[i]?.map fun d => src.idxOf d := by
  simp [positions]

/-- Where an element stands in a list without repetitions. -/
theorem idxOf_eq_iff {src : List α} (hsrc : src.Nodup) {d : α} (hd : d ∈ src) {j : ℕ} :
    src.idxOf d = j ↔ src[j]? = some d := by
  constructor
  · rintro rfl
    rw [List.getElem?_eq_getElem (List.idxOf_lt_length_iff.2 hd), List.getElem_idxOf]
  · intro hj
    obtain ⟨hlt, rfl⟩ := List.getElem?_eq_some_iff.1 hj
    exact hsrc.idxOf_getElem j hlt

/-- The positions of all occurrences, in a list without repetitions. -/
theorem filter_range_eq {src : List α} (hsrc : src.Nodup) {d : α} (hd : d ∈ src) :
    (List.range src.length).filter (fun j => src[j]? = some d) = [src.idxOf d] := by
  have hlt := List.idxOf_lt_length_iff.2 hd
  have hcongr : (List.range src.length).filter (fun j => src[j]? = some d) =
      (List.range src.length).filter (· == src.idxOf d) := by
    refine List.filter_congr fun j _ => ?_
    rw [beq_eq_decide, decide_eq_decide, ← idxOf_eq_iff hsrc hd, eq_comm]
  have hcount : (List.range src.length).count (src.idxOf d) = 1 :=
    List.count_eq_one_of_mem List.nodup_range (List.mem_range.2 hlt)
  rw [hcongr, List.filter_beq, hcount, List.replicate_one]

/-- Looking through all positions for each element finds its position. -/
theorem flatMap_filter_range_eq {src dst : List α} (hsrc : src.Nodup)
    (hdst : ∀ d ∈ dst, d ∈ src) :
    (dst.flatMap fun d => (List.range src.length).filter fun j => src[j]? = some d) =
      positions src dst := by
  rw [positions, List.map_eq_flatMap]
  exact List.flatMap_congr fun d hd => filter_range_eq hsrc (hdst d hd)

/-- Positions count up from zero exactly in the list itself, without repetitions. -/
theorem positions_eq_range_iff {src dst : List α} :
    positions src dst = List.range src.length ↔ dst = src ∧ src.Nodup := by
  constructor
  · intro h
    have hlen : dst.length = src.length := by
      have := congrArg List.length h
      simpa using this
    -- the element at each place is first met at that place, in both lists
    have hidx : ∀ i (hi : i < dst.length), src.idxOf dst[i] = i := by
      intro i hi
      have hget := congrArg (fun l => l[i]?) h
      rw [getElem?_positions, List.getElem?_eq_getElem hi, List.getElem?_range (by omega)] at hget
      simpa using hget
    have hdst : dst = src := by
      refine List.ext_getElem hlen fun i hi hi' => ?_
      have hmem : dst[i] ∈ src := by
        rw [← List.idxOf_lt_length_iff, hidx i hi]
        exact hi'
      have hget := List.getElem_idxOf (List.idxOf_lt_length_iff.2 hmem)
      simp only [hidx i hi] at hget
      exact hget.symm
    subst hdst
    refine ⟨rfl, List.nodup_iff_injective_getElem.2 ?_⟩
    intro i j hij
    have hij : dst[i.1] = dst[j.1] := hij
    have hi := hidx i i.2
    rw [hij, hidx j j.2] at hi
    exact Fin.ext hi.symm
  · rintro ⟨rfl, hnodup⟩
    refine List.ext_getElem (by simp) fun i hi hi' => ?_
    simp only [positions, List.getElem_map, List.getElem_range]
    exact hnodup.idxOf_getElem i _

/-! ## Permutations -/

/-- The list takes `src` to `dst`: it is a permutation of the positions, and names for each
element of `dst` a position in `src` where it stands. -/
structure Takes (src dst : List α) (ps : List ℕ) : Prop where
  perm : ps.Perm (List.range dst.length)
  get : ∀ i < dst.length, (ps[i]?.bind fun j => src[j]?) = dst[i]?

/-- Listing all positions of every element of `dst` gives a permutation if and only if `dst` has
no repetitions. -/
theorem takes_flatMap_iff {src dst : List α} (hlen : src.length = dst.length)
    (hdst : ∀ d ∈ dst, d ∈ src) :
    Takes src dst
        (dst.flatMap fun d => (List.range src.length).filter fun j => src[j]? = some d) ↔
      dst.Nodup := by
  constructor
  · intro h
    -- two equal elements would name the same positions
    have hnodup := h.perm.nodup_iff.2 List.nodup_range
    refine (List.nodup_flatMap.1 hnodup).2.imp_of_mem fun {x y} hx _ hdisjoint heq => ?_
    subst heq
    have hlt := List.idxOf_lt_length_iff.2 (hdst x hx)
    have hmem : src.idxOf x ∈ (List.range src.length).filter fun j => src[j]? = some x := by
      rw [List.mem_filter, List.getElem?_eq_getElem hlt, List.getElem_idxOf]
      exact ⟨List.mem_range.2 hlt, decide_eq_true rfl⟩
    exact hdisjoint hmem hmem
  · intro hnodup
    have hperm : dst.Perm src :=
      (List.subperm_of_subset hnodup hdst).perm_of_length_le (Nat.le_of_eq hlen)
    have hsrc : src.Nodup := hperm.nodup_iff.1 hnodup
    rw [flatMap_filter_range_eq hsrc hdst]
    refine ⟨?_, fun i hi => ?_⟩
    · have hpositions : (positions src dst).Nodup :=
        hnodup.map_on fun x hx y _ hxy => (List.idxOf_inj (hdst x hx)).1 hxy
      have hrange : ∀ p ∈ positions src dst, p ∈ List.range dst.length := by
        intro p hp
        obtain ⟨d, hd, rfl⟩ := List.mem_map.1 hp
        rw [List.mem_range, ← hlen]
        exact List.idxOf_lt_length_iff.2 (hdst d hd)
      exact (List.subperm_of_subset hpositions hrange).perm_of_length_le (by simp)
    · rw [getElem?_positions, List.getElem?_eq_getElem hi]
      exact (idxOf_eq_iff hsrc (hdst _ (List.getElem_mem hi))).1 rfl

/-- A list that counts up and is a permutation of the positions starts at zero. -/
theorem range'_eq_range_of_perm {a n : ℕ} (h : (List.range' a n).Perm (List.range n)) :
    List.range' a n = List.range n := by
  cases n with
  | zero => rfl
  | succ n =>
    have hzero : 0 ∈ List.range' a (n + 1) := h.symm.subset (List.mem_range.2 (Nat.succ_pos n))
    have ha : a = 0 := by
      rw [List.mem_range'_1] at hzero
      omega
    rw [ha, List.range_eq_range']

/-- Each of the lists leads back to where the other one came from. -/
def Inverse (ps qs : List ℕ) : Prop := ∀ i j : ℕ, ps[i]? = some j ↔ qs[j]? = some i

/-- At `i` stands `j` if both lists have one element, the one list at `j` and the other at `i`. -/
theorem getElem?_positions_iff {src dst : List α} (hsrc : src.Nodup) (hdst : ∀ d ∈ dst, d ∈ src)
    {i j : ℕ} :
    (positions src dst)[i]? = some j ↔ ∃ d, dst[i]? = some d ∧ src[j]? = some d := by
  rw [getElem?_positions, Option.map_eq_some_iff]
  refine exists_congr fun d => and_congr_right fun hd => ?_
  exact idxOf_eq_iff hsrc (hdst d (List.mem_of_getElem? hd))

/-- The positions in the one list are the inverse of those in the other. -/
theorem inverse_positions {src dst : List α} (hsrc : src.Nodup) (hperm : src.Perm dst) :
    Inverse (positions src dst) (positions dst src) := by
  intro i j
  have hdst : dst.Nodup := hperm.nodup_iff.1 hsrc
  rw [getElem?_positions_iff hsrc fun d hd => hperm.symm.subset hd,
    getElem?_positions_iff hdst fun d hd => hperm.subset hd]
  exact exists_congr fun d => and_comm

/-! ## Reorderings that are their own inverses -/

/-- Whenever `l` has at position `i` what `r` has at `j`, it has at `j` what `r` has at `i`. -/
def SelfInverse (l r : List α) : Prop :=
  ∀ i < l.length, ∀ j < r.length, l[i]? = r[j]? → l[j]? = r[i]?

instance (l r : List α) : Decidable (SelfInverse l r) :=
  inferInstanceAs (Decidable (∀ i < l.length, ∀ j < r.length, l[i]? = r[j]? → l[j]? = r[i]?))

omit [DecidableEq α] in
/-- The relation is symmetric. -/
theorem SelfInverse.symm {l r : List α} (h : SelfInverse l r) : SelfInverse r l :=
  fun i hi j hj hij => (h j hj i hi hij.symm).symm

/-- Each list has the positions in the other one that this has in it, exactly for self-inverse ones.
-/
theorem positions_comm_iff {l r : List α} (hl : l.Nodup) (hr : r.Nodup) (hperm : l.Perm r) :
    positions l r = positions r l ↔ SelfInverse l r := by
  have hlen := hperm.length_eq
  constructor
  · intro h i hi j hj hij
    have hget := congrArg (fun ps => ps[i]?) h
    simp only [getElem?_positions] at hget
    rw [List.getElem?_eq_getElem hi, List.getElem?_eq_getElem (by omega)] at hget
    simp only [Option.map_some, Option.some.injEq] at hget
    -- the positions of an element and of its image are read off both lists
    have hidx : r.idxOf l[i] = j := by
      refine (idxOf_eq_iff hr (hperm.subset (List.getElem_mem hi))).2 ?_
      rw [← hij, List.getElem?_eq_getElem hi]
    rw [hidx] at hget
    rw [List.getElem?_eq_getElem (show i < r.length by omega)]
    exact (idxOf_eq_iff hl (hperm.symm.subset (List.getElem_mem _))).1 hget
  · intro h
    refine List.ext_getElem (by simp [hlen]) fun i hi hi' => ?_
    rw [length_positions] at hi hi'
    simp only [positions, List.getElem_map]
    have hmem : l[i] ∈ r := hperm.subset (List.getElem_mem hi')
    have hget : r[r.idxOf l[i]]? = some l[i] := (idxOf_eq_iff hr hmem).1 rfl
    have hcross := h i hi' (r.idxOf l[i]) (List.idxOf_lt_length_iff.2 hmem)
      (by rw [hget, List.getElem?_eq_getElem hi'])
    rw [List.getElem?_eq_getElem hi] at hcross
    exact (idxOf_eq_iff hl (hperm.symm.subset (List.getElem_mem hi))).2 hcross

/-! ## Expansion -/

/-- The list with `as` in the place of `a`. -/
def expand (a : α) (as l : List α) : List α := l.flatMap fun x => if x = a then as else [x]

/-- Nothing is expanded in a list without the element. -/
theorem expand_of_not_mem {a : α} {as l : List α} (h : a ∉ l) : expand a as l = l := by
  induction l with
  | nil => rfl
  | cons x l ih =>
    rw [List.mem_cons, not_or] at h
    rw [expand, List.flatMap_cons, if_neg (Ne.symm h.1)]
    exact congrArg (x :: ·) (ih h.2)

/-- Expanding a list expands its parts. -/
theorem expand_append (a : α) (as l l' : List α) :
    expand a as (l ++ l') = expand a as l ++ expand a as l' := by
  simp [expand]

/-- An element that is expanded to itself. -/
theorem expand_self (a : α) (l : List α) : expand a [a] l = l := by
  induction l with
  | nil => rfl
  | cons x l ih =>
    rw [expand] at ih
    rw [expand, List.flatMap_cons, ih]
    by_cases hx : x = a
    · rw [if_pos hx, hx, List.singleton_append]
    · rw [if_neg hx, List.singleton_append]

/-- In a list without repetitions there is one place. -/
theorem expand_eq_of_nodup {a : α} {as l : List α} (hl : l.Nodup) (ha : a ∈ l) :
    expand a as l = l.take (l.idxOf a) ++ as ++ l.drop (l.idxOf a + 1) := by
  obtain ⟨l₁, l₂, rfl⟩ := List.append_of_mem ha
  rw [List.nodup_middle, List.nodup_cons] at hl
  obtain ⟨hnot, -⟩ := hl
  rw [List.mem_append, not_or] at hnot
  have hidx : (l₁ ++ a :: l₂).idxOf a = l₁.length := by
    rw [List.idxOf_append_of_notMem hnot.1]
    simp
  rw [hidx, expand_append, expand_of_not_mem hnot.1, List.take_left,
    show l₁ ++ a :: l₂ = (l₁ ++ [a]) ++ l₂ by simp, List.drop_left' (by simp)]
  have htail : expand a as (a :: l₂) = as ++ l₂ := by
    rw [expand, List.flatMap_cons, if_pos rfl]
    exact congrArg (as ++ ·) (expand_of_not_mem hnot.2)
  rw [htail, List.append_assoc]

/-- The parts of a list without repetitions around an element. -/
theorem exists_split {a : α} {l : List α} (hl : l.Nodup) (ha : a ∈ l) :
    ∃ l₁ l₂, l = l₁ ++ a :: l₂ ∧ l.idxOf a = l₁.length ∧
      ∀ as, expand a as l = l₁ ++ (as ++ l₂) := by
  have hlt := List.idxOf_lt_length_iff.2 ha
  refine ⟨l.take (l.idxOf a), l.drop (l.idxOf a + 1), ?_, ?_, fun as => ?_⟩
  · have hget : l.drop (l.idxOf a) = a :: l.drop (l.idxOf a + 1) := by
      rw [List.drop_eq_getElem_cons hlt, List.getElem_idxOf]
    rw [← hget, List.take_append_drop]
  · rw [List.length_take]
    omega
  · rw [expand_eq_of_nodup hl ha, List.append_assoc]

/-- The elements after the expansion. -/
theorem mem_expand {a x : α} {as l : List α} :
    x ∈ expand a as l ↔ (x ∈ l ∧ x ≠ a) ∨ (a ∈ l ∧ x ∈ as) := by
  rw [expand, List.mem_flatMap]
  constructor
  · rintro ⟨y, hy, hx⟩
    split at hx
    next heq => exact Or.inr ⟨heq ▸ hy, hx⟩
    next hne =>
      rw [List.mem_singleton] at hx
      exact Or.inl ⟨hx ▸ hy, hx ▸ hne⟩
  · rintro (⟨hx, hne⟩ | ⟨ha, hx⟩)
    · exact ⟨x, hx, by simp [hne]⟩
    · exact ⟨a, ha, by simpa using hx⟩

/-- The expanded element is replaced by as many as there are. -/
theorem length_expand {a : α} {as l : List α} (hl : l.Nodup) (ha : a ∈ l) :
    (expand a as l).length = l.length - 1 + as.length := by
  have hlt := List.idxOf_lt_length_iff.2 ha
  rw [expand_eq_of_nodup hl ha]
  simp only [List.length_append, List.length_take, List.length_drop]
  omega

/-- Every occurrence is replaced. -/
theorem length_expand_eq (a : α) (as l : List α) :
    (expand a as l).length = (l.filter fun x => x ≠ a).length + l.count a * as.length := by
  induction l with
  | nil => simp [expand]
  | cons x l ih =>
    rw [expand] at ih
    rw [expand, List.flatMap_cons, List.length_append, ih, List.filter_cons, List.count_cons]
    by_cases hx : x = a
    · simp [hx]
      ring
    · simp [hx]
      omega

/-- New and distinct elements keep the list free of duplicates. -/
theorem nodup_expand {a : α} {as l : List α} (hl : l.Nodup) (has : as.Nodup)
    (hfresh : ∀ x ∈ as, x ∉ l) : (expand a as l).Nodup := by
  by_cases ha : a ∈ l
  · have hrest : (l.take (l.idxOf a) ++ l.drop (l.idxOf a + 1)).Sublist l := by
      rw [← List.eraseIdx_eq_take_drop_succ]
      exact List.eraseIdx_sublist _ _
    have hperm : (expand a as l).Perm
        (as ++ (l.take (l.idxOf a) ++ l.drop (l.idxOf a + 1))) := by
      rw [expand_eq_of_nodup hl ha, ← List.append_assoc]
      exact List.perm_append_comm.append_right _
    rw [hperm.nodup_iff, List.nodup_append']
    exact ⟨has, hl.sublist hrest, fun x hx hx' => hfresh x hx (hrest.subset hx')⟩
  · rwa [expand_of_not_mem ha]

/-- The elements put in are none of the others. -/
theorem nodup_append_of_expand {a : α} {as l : List α} (hl : l.Nodup) (ha : a ∈ l) (hnot : a ∉ as)
    (h : (expand a as l).Nodup) : (l ++ as).Nodup := by
  obtain ⟨l₁, l₂, hsplit, -, hexpand⟩ := exists_split hl ha
  have hperm : (l ++ as).Perm (a :: expand a as l) := by
    rw [hexpand, hsplit, List.append_assoc, List.cons_append]
    exact List.perm_middle.trans ((List.perm_append_comm.append_left l₁).cons a)
  refine hperm.nodup_iff.2 (List.nodup_cons.2 ⟨fun hmem => ?_, h⟩)
  rcases mem_expand.1 hmem with ⟨-, hne⟩ | ⟨-, has⟩
  · exact hne rfl
  · exact hnot has

/-- The elements put in stand one after the other from where the element stood. -/
theorem positions_expand {a : α} {as l : List α} (hl : l.Nodup) (ha : a ∈ l)
    (hnodup : (expand a as l).Nodup) :
    positions (expand a as l) as = List.range' (l.idxOf a) as.length := by
  have hlt := List.idxOf_lt_length_iff.2 ha
  have hexpand : expand a as l = _ := expand_eq_of_nodup hl ha
  refine List.ext_getElem (by simp) fun i hi hi' => ?_
  rw [length_positions] at hi
  have hmem : as[i] ∈ expand a as l := mem_expand.2 (Or.inr ⟨ha, List.getElem_mem hi⟩)
  have htake : (l.take (l.idxOf a)).length = l.idxOf a := by
    rw [List.length_take]
    omega
  simp only [positions, List.getElem_map, List.getElem_range', Nat.one_mul]
  rw [idxOf_eq_iff hnodup hmem, hexpand, List.append_assoc,
    List.getElem?_append_right (by omega), htake, Nat.add_sub_cancel_left,
    List.getElem?_append_left hi, List.getElem?_eq_getElem hi]

end Reorder
